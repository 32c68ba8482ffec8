import Mathlib.Data.List.Pairwise
import SourceGraph.Proofs.Declarations
import SourceGraph.Proofs.EntityIds
import SourceGraph.Proofs.SelfCalls

/-!
# Names of members

The class of a member is not carried along: it is found again from the lines of the entities. The
classes of a file lie one after the other, but two of them may share a line, and so may a class and
what follows it. An entity on a single line can therefore have the name of a neighbour in front of
its own, and a member that covers exactly the lines of its class has no class at all.

* `SyntaxTree.IsLaidOut`: the nodes of a tree lie within each other or one after the other.
* `Script.pairwise_places`: so do the declarations of a file.
* `LineSpan.HasOnEdge`, `LineSpan.Outbids`: the ways to belong to a neighbour.
* `Artifact.shortest_name_iff`: which of the classes around some lines is the innermost one.
* `Script.qualified_by_own_class_iff`: which members and functions have the right name.
-/

set_option autoImplicit false

namespace SourceGraph

/-! ## Lines of nodes -/

namespace Text

theorem takeBytes_sublist {m n : Nat} (h : m ≤ n) (cs : List Char) :
    (takeBytes m cs).Sublist (takeBytes n cs) := by
  induction cs generalizing m n with
  | nil => exact .slnil
  | cons c cs ih =>
    rw [takeBytes, takeBytes]
    split
    · exact List.nil_sublist _
    · rw [if_neg (by omega)]
      exact (ih (by omega)).cons_cons c

theorem lineAt_mono {m n : Nat} (h : m ≤ n) (cs : List Char) : lineAt m cs ≤ lineAt n cs :=
  Nat.add_le_add_right ((takeBytes_sublist h cs).count_le _) 1

end Text

namespace SyntaxTree

variable {t n : SyntaxTree}

/-- Every node lies within its parent, after its earlier siblings. -/
def IsLaidOut (t : SyntaxTree) : Prop :=
  ∀ n ∈ t.preorder, n.start ≤ n.stop ∧ (∀ c ∈ n.children, n.start ≤ c.start ∧ c.stop ≤ n.stop) ∧
    n.children.Pairwise (·.stop ≤ ·.start)

theorem IsLaidOut.of_mem (h : t.IsLaidOut) (hn : n ∈ t.preorder) : n.IsLaidOut :=
  fun m hm => h m (mem_preorder_trans hn hm)

theorem IsLaidOut.start_le_stop (h : t.IsLaidOut) : t.start ≤ t.stop :=
  (h t t.self_mem_preorder).1

theorem IsLaidOut.bounds (h : t.IsLaidOut) (hn : n ∈ t.preorder) :
    t.start ≤ n.start ∧ n.stop ≤ t.stop := by
  induction t using forall_of_children with
  | h t ih =>
    rcases mem_preorder.mp hn with rfl | ⟨c, hc, hn⟩
    · exact ⟨le_rfl, le_rfl⟩
    · have hchild := (h t t.self_mem_preorder).2.1 c hc
      have hbelow := ih c hc (h.of_mem (mem_preorder_of_mem_children hc)) hn
      omega

theorem IsLaidOut.span_le (h : t.IsLaidOut) (source : List Char) :
    (t.span source).first ≤ (t.span source).last :=
  Text.lineAt_mono h.start_le_stop source

theorem IsLaidOut.span_bounds (h : t.IsLaidOut) (hn : n ∈ t.preorder) (source : List Char) :
    (t.span source).first ≤ (n.span source).first ∧
      (n.span source).last ≤ (t.span source).last :=
  (h.bounds hn).imp (Text.lineAt_mono · source) (Text.lineAt_mono · source)

end SyntaxTree

/-! ## Declarations in order -/

/-- Of two members of an ordered list, one comes before the other. -/
theorem rel_or_rel {α : Type} {R : α → α → Prop} {xs : List α} {x y : α} (h : xs.Pairwise R)
    (hx : x ∈ xs) (hy : y ∈ xs) (hne : x ≠ y) : R x y ∨ R y x := by
  have hsymm : xs.Pairwise (Relation.SymmGen R) := h.imp Or.inl
  exact hsymm.forall hx hy hne

namespace Script

open SyntaxTree

variable {source : List Char} {root t : SyntaxTree}

/-- What is found in trees that lie one after the other lies one after the other. -/
theorem pairwise_flatMap {ts : List SyntaxTree} {g : SyntaxTree → List Declaration}
    (hts : ts.Pairwise (·.stop ≤ ·.start)) (hlaid : ∀ t ∈ ts, t.IsLaidOut)
    (hin : ∀ t ∈ ts, ∀ d ∈ g t, d.IsIn t)
    (hg : ∀ t ∈ ts, (g t).Pairwise (·.head.site.stop ≤ ·.head.site.start)) :
    (ts.flatMap g).Pairwise (·.head.site.stop ≤ ·.head.site.start) := by
  refine List.pairwise_flatMap.mpr ⟨hg, hts.imp_of_mem ?_⟩
  intro t u ht hu hle d hd d' hd'
  have hbefore := ((hlaid t ht).bounds (hin t ht d hd).head.site).2
  have hafter := ((hlaid u hu).bounds (hin u hu d' hd').head.site).1
  exact hbefore.trans (hle.trans hafter)

theorem pairwise_toList (d? : Option Declaration) :
    d?.toList.Pairwise (·.head.site.stop ≤ ·.head.site.start) := by
  cases d? with
  | none => exact .nil
  | some d => exact List.pairwise_singleton _ d

theorem pairwise_statementDeclarations (h : t.IsLaidOut) :
    (statementDeclarations source t).Pairwise (·.head.site.stop ≤ ·.head.site.start) := by
  unfold statementDeclarations
  split
  · split
    · exact .nil
    · exact pairwise_toList _
  split
  · exact pairwise_toList _
  split
  · exact pairwise_toList _
  split
  · rw [List.filterMap_eq_flatMap_toList]
    have hsublist : ((t.namedChildren.filter (·.kind == "variable_declarator"))).Sublist
        t.children := List.filter_sublist.trans List.filter_sublist
    refine pairwise_flatMap ((h t t.self_mem_preorder).2.2.sublist hsublist) ?_ ?_ ?_
    · exact fun n hn => h.of_mem (mem_preorder_of_mem_children (hsublist.subset hn))
    · exact fun n _ d hd => isIn_declaratorDeclaration? (Option.mem_toList.mp hd)
    · exact fun n _ => pairwise_toList _
  · exact .nil

/-- The declarations of a file lie one after the other. -/
theorem pairwise_declarations (h : root.IsLaidOut) :
    (declarations source root).Pairwise (·.head.site.stop ≤ ·.head.site.start) := by
  have hlaid : ∀ t ∈ root.namedChildren, t.IsLaidOut := fun t ht =>
    h.of_mem (mem_preorder_of_mem_children (List.mem_filter.mp ht).1)
  refine pairwise_flatMap ((h root root.self_mem_preorder).2.2.sublist List.filter_sublist) hlaid
    ?_ ?_
  · exact fun t _ d hd =>
      (isIn_of_mem_statementDeclarations hd).of_mem (declaration_mem_preorder t)
  · exact fun t ht =>
      pairwise_statementDeclarations ((hlaid t ht).of_mem (declaration_mem_preorder t))

/-- Places at the top of a file lie one after the other. -/
theorem pairwise_places (h : root.IsLaidOut) :
    (places source root).Pairwise fun p q =>
      p.1 = none → q.1 = none → p.2.site.stop ≤ q.2.site.start := by
  refine List.pairwise_flatMap.mpr ⟨fun d _ => ?_, (pairwise_declarations h).imp ?_⟩
  · refine List.pairwise_cons.mpr ⟨fun q hq _ hnone => ?_, ?_⟩
    · obtain ⟨o, -, rfl⟩ := List.mem_map.mp hq
      cases hnone
    · refine List.pairwise_map.mpr (List.pairwise_of_forall fun o o' hnone => ?_)
      cases hnone
  · intro d d' hle p hp q hq hpnone hqnone
    rcases List.mem_cons.mp hp with rfl | hp
    · rcases List.mem_cons.mp hq with rfl | hq
      · exact hle
      · obtain ⟨o, -, rfl⟩ := List.mem_map.mp hq
        cases hqnone
    · obtain ⟨o, -, rfl⟩ := List.mem_map.mp hp
      cases hpnone

/-- A class is declared at the top of a file. -/
theorem fst_eq_none {p : Option Origin × Origin} (hp : p ∈ places source root)
    (hrole : p.2.role = .classDef) : p.1 = none := by
  obtain ⟨d, hd, rfl | ⟨o, ho, rfl⟩⟩ := mem_places.mp hp
  · rfl
  · obtain ⟨f, hf⟩ := ((isIn_of_mem_declarations hd).members o ho).2
    rw [hf] at hrole
    cases hrole

/-- A member lies in its class, which is declared at the top of the file. -/
theorem class_of_member {cls o : Origin} (hp : (some cls, o) ∈ places source root) :
    (none, cls) ∈ places source root ∧ cls.role = .classDef ∧ o.site ∈ cls.site.preorder := by
  obtain ⟨d, hd, h | ⟨o', ho, h⟩⟩ := mem_places.mp hp
  · cases h
  · cases h
    have hin := isIn_of_mem_declarations hd
    exact ⟨mem_places.mpr ⟨d, hd, Or.inl rfl⟩, hin.isClass (List.ne_nil_of_mem ho),
      (hin.members o ho).1.site⟩

/-- Two declarations at the top of a file have at most a line in common. -/
theorem apart_of_mem_places (h : root.IsLaidOut) {o o' : Origin}
    (ho : (none, o) ∈ places source root) (ho' : (none, o') ∈ places source root) (hne : o ≠ o') :
    (o.site.span source).last ≤ (o'.site.span source).first ∨
      (o'.site.span source).last ≤ (o.site.span source).first := by
  have hplaces := rel_or_rel (pairwise_places h) ho ho' (by simpa using hne)
  exact hplaces.imp (fun hle => Text.lineAt_mono (hle rfl rfl) source)
    fun hle => Text.lineAt_mono (hle rfl rfl) source

end Script

/-! ## Spans that share a line -/

namespace LineSpan

variable {k own inner : LineSpan}

/-- A single line is the first or the last one of a longer span. -/
def HasOnEdge (k inner : LineSpan) : Prop :=
  inner.first = inner.last ∧ k.first < k.last ∧ (inner.first = k.first ∨ inner.first = k.last)

/-- A span with a line on its edge has fewer lines than the own one, or as many and is in front. -/
def Outbids (k own inner : LineSpan) : Prop :=
  k.HasOnEdge inner ∧ (inner.first = k.last ∧ k.lineCount ≤ own.lineCount ∨
    inner.first = k.first ∧ k.lineCount < own.lineCount)

theorem strictlyContains_iff :
    k.strictlyContains inner = true ↔
      k.first ≤ inner.first ∧ inner.last ≤ k.last ∧ k ≠ inner := by
  simp [strictlyContains, and_assoc]

theorem ne_iff : k ≠ inner ↔ k.first ≠ inner.first ∨ k.last ≠ inner.last := by
  cases k
  cases inner
  simp only [ne_eq, mk.injEq, not_and_or]

theorem strictlyContains_of_hasOnEdge (h : k.HasOnEdge inner) :
    k.strictlyContains inner = true := by
  obtain ⟨hsingle, hlong, hedge⟩ := h
  rw [strictlyContains_iff, ne_iff]
  omega

/-- Of spans that share at most a line, one lies in the other only on its edge. -/
theorem strictlyContains_iff_hasOnEdge (hinner : inner.first ≤ inner.last)
    (h : k = inner ∨ k.last ≤ inner.first ∨ inner.last ≤ k.first) :
    k.strictlyContains inner = true ↔ k.HasOnEdge inner := by
  refine ⟨fun hin => ?_, strictlyContains_of_hasOnEdge⟩
  rw [strictlyContains_iff] at hin
  obtain ⟨hfirst, hlast, hne⟩ := hin
  have hapart := h.resolve_left hne
  rw [ne_iff] at hne
  unfold HasOnEdge
  omega

end LineSpan

/-! ## Owners -/

namespace Artifact

variable {a : Artifact} {e f : Entity}

theorem shortest_eq_none_iff {es : List Entity} : shortest es = none ↔ es = [] := by
  cases es with
  | nil => simp [shortest]
  | cons e es =>
    rw [shortest]
    split
    · simp
    · split <;> simp

/-- The shortest entity is shorter than those before it, and not longer than those after it. -/
theorem exists_of_shortest {es : List Entity} (h : shortest es = some f) :
    ∃ before after, es = before ++ f :: after ∧
      (∀ k ∈ before, f.span.lineCount < k.span.lineCount) ∧
      ∀ k ∈ after, f.span.lineCount ≤ k.span.lineCount := by
  induction es generalizing f with
  | nil => cases h
  | cons g es ih =>
    rw [shortest] at h
    split at h
    · rename_i hnone
      cases h
      exact ⟨[], [], by rw [shortest_eq_none_iff.mp hnone]; rfl, by simp, by simp⟩
    · rename_i f' hsome
      obtain ⟨before, after, rfl, hbefore, hafter⟩ := ih hsome
      split at h
      · rename_i hle
        cases h
        refine ⟨[], _, rfl, by simp, ?_⟩
        simp only [List.mem_append, List.mem_cons]
        rintro k (hk | rfl | hk)
        · exact hle.trans (hbefore k hk).le
        · exact hle
        · exact hle.trans (hafter k hk)
      · rename_i hlt
        cases h
        refine ⟨g :: before, after, rfl, ?_, hafter⟩
        exact List.forall_mem_cons.mpr ⟨Nat.lt_of_not_le hlt, hbefore⟩

/-- Of entities that lie one after the other, the shortest one is preferred to all others. -/
theorem shortest_le {es : List Entity} (hes : es.Pairwise (·.span.last ≤ ·.span.first))
    (h : shortest es = some f) {k : Entity} (hk : k ∈ es) (hne : k ≠ f) :
    k.span.last ≤ f.span.first ∧ f.span.lineCount < k.span.lineCount ∨
      f.span.last ≤ k.span.first ∧ f.span.lineCount ≤ k.span.lineCount := by
  obtain ⟨before, after, rfl, hbefore, hafter⟩ := exists_of_shortest h
  obtain ⟨-, hrest, hcross⟩ := List.pairwise_append.mp hes
  rcases List.mem_append.mp hk with hk | hk
  · exact Or.inl ⟨hcross k hk f List.mem_cons_self, hbefore k hk⟩
  · rcases List.mem_cons.mp hk with rfl | hk
    · exact absurd rfl hne
    · exact Or.inr ⟨List.rel_of_pairwise_cons hrest hk, hafter k hk⟩

/--
Of entities that lie one after the other around some lines, the shortest one has the name of `e`
unless another one outbids `e`.
-/
theorem shortest_name_iff {es : List Entity} {inner : LineSpan}
    (hinner : inner.first ≤ inner.last) (hes : es.Pairwise (·.span.last ≤ ·.span.first))
    (hin : ∀ k ∈ es, k.span.strictlyContains inner = true) (he : e ∈ es)
    (h : shortest es = some f) :
    f.name = e.name ↔ ∀ k ∈ es, k.span.Outbids e.span inner → k.name = e.name := by
  simp only [LineSpan.strictlyContains_iff, LineSpan.ne_iff] at hin
  have hf : f ∈ es := mem_of_shortest h
  have hinf := hin f hf
  have hine := hin e he
  constructor
  · rintro hname k hk ⟨⟨hsingle, hlong, -⟩, hbid⟩
    by_cases hkf : k = f
    · rw [hkf, hname]
    by_cases hke : k = e
    · rw [hke]
    have hink := hin k hk
    have hbeaten := shortest_le hes h hk hkf
    have hkapart := rel_or_rel hes hk he hke
    by_cases hef : e = f
    · subst hef
      omega
    · -- three entities around one line: the one in the middle is no longer than the line
      have heapart := rel_or_rel hes he hf hef
      omega
  · intro hnames
    by_cases hef : e = f
    · rw [hef]
    refine hnames f hf ?_
    have hbeaten := shortest_le hes h he hef
    unfold LineSpan.Outbids LineSpan.HasOnEdge
    omega

theorem owner?_eq_none_iff :
    a.owner? e = none ↔
      ∀ k ∈ a.entities, k.kind = .classDef → ¬ k.span.strictlyContains e.span = true := by
  rw [owner?, shortest_eq_none_iff, List.filter_eq_nil_iff]
  simp only [Bool.and_eq_true, beq_iff_eq, not_and]

theorem qualifiedName_eq_name_iff (hkind : e.kind ≠ .classDef) :
    a.qualifiedName e = e.name ↔ a.owner? e = none := by
  rw [qualifiedName, if_neg hkind]
  cases a.owner? e with
  | none => simp
  | some f => simp

theorem qualifiedName_eq_dotted_iff (hkind : e.kind ≠ .classDef) {cls : String} :
    a.qualifiedName e = cls ++ "." ++ e.name ↔ ∃ f, a.owner? e = some f ∧ f.name = cls := by
  rw [qualifiedName, if_neg hkind]
  cases a.owner? e with
  | none => simp [eq_comm (a := e.name)]
  | some f => simp

/--
An entity in a class has the name of that class in front of its own, unless another class outbids
it.
-/
theorem qualifiedName_eq_iff {cls : Entity} (hspan : e.span.first ≤ e.span.last)
    (hordered : a.entities.Pairwise fun k k' =>
      k.kind = .classDef → k'.kind = .classDef → k.span.last ≤ k'.span.first)
    (hkind : e.kind ≠ .classDef) (hcls : cls ∈ a.entities) (hclass : cls.kind = .classDef)
    (hin : cls.span.strictlyContains e.span = true) :
    a.qualifiedName e = cls.name ++ "." ++ e.name ↔
      ∀ k ∈ a.entities, k.kind = .classDef → k.span.Outbids cls.span e.span →
        k.name = cls.name := by
  let around := a.entities.filter fun c => c.kind == .classDef && c.span.strictlyContains e.span
  have hmem : ∀ k, k ∈ around ↔
      k ∈ a.entities ∧ k.kind = .classDef ∧ k.span.strictlyContains e.span = true := by
    simp [around]
  have haround : around.Pairwise (·.span.last ≤ ·.span.first) :=
    (hordered.sublist List.filter_sublist).imp_of_mem fun hk hk' hle =>
      hle ((hmem _).mp hk).2.1 ((hmem _).mp hk').2.1
  have hown : cls ∈ around := (hmem cls).mpr ⟨hcls, hclass, hin⟩
  obtain ⟨f, hf⟩ : ∃ f, shortest around = some f := Option.ne_none_iff_exists'.mp
    fun hnone => List.ne_nil_of_mem hown (shortest_eq_none_iff.mp hnone)
  have howner : a.owner? e = some f := hf
  rw [qualifiedName_eq_dotted_iff hkind, howner]
  simp only [Option.some.injEq, exists_eq_left']
  rw [shortest_name_iff hspan haround (fun k hk => ((hmem k).mp hk).2.2) hown hf]
  refine ⟨fun h k hk hkclass hbid => h k ((hmem k).mpr ⟨hk, hkclass, ?_⟩) hbid,
    fun h k hk => h k ((hmem k).mp hk).1 ((hmem k).mp hk).2.1⟩
  exact LineSpan.strictlyContains_of_hasOnEdge hbid.1

end Artifact

/-! ## Entities of a file -/

namespace Script

variable {source : List Char} {root : SyntaxTree} {file : FileIdentity}

theorem pairwise_of_forall₂ {α β : Type} {R : α → β → Prop} {S : α → α → Prop}
    {S' : β → β → Prop} {xs : List α} {ys : List β} (h : List.Forall₂ R xs ys)
    (hxs : xs.Pairwise S) (hrel : ∀ x x' y y', R x y → R x' y' → S x x' → S' y y') :
    ys.Pairwise S' := by
  induction h with
  | nil => exact .nil
  | cons hxy hrest ih =>
    refine List.pairwise_cons.mpr ⟨fun y' hy' => ?_, ih hxs.of_cons⟩
    obtain ⟨x', hx', hr⟩ := exists_of_forall₂ hrest hy'
    exact hrel _ x' _ y' hxy hr (List.rel_of_pairwise_cons hxs hx')

theorem Describes.role_eq {o : Origin} {e : Entity} (h : Describes source o e)
    (hclass : e.kind = .classDef) : o.role = .classDef := by
  have hrole := h.role
  cases hfits : o.role with
  | classDef => rfl
  | function f =>
    rw [hfits] at hrole
    exact absurd hclass hrole.1
  | constant =>
    rw [hfits, Role.Fits, hclass] at hrole
    cases hrole

/-- A class of a file is declared at its top. -/
theorem exists_place_of_class {k : Entity} (hk : k ∈ (artifact file source root).entities)
    (hclass : k.kind = .classDef) :
    ∃ o, (none, o) ∈ places source root ∧ o.role = .classDef ∧ Describes source o k := by
  obtain ⟨⟨cls?, o⟩, hp, hdescribes⟩ := exists_of_forall₂ (forall₂_artifact file source root) hk
  have hrole := hdescribes.role_eq hclass
  obtain rfl : cls? = none := fst_eq_none hp hrole
  exact ⟨o, hp, hrole, hdescribes⟩

/-- A class that is declared at the top of a file is an entity. -/
theorem exists_class_of_place (file : FileIdentity) {cls : Origin}
    (hcls : (none, cls) ∈ places source root)
    (hrole : cls.role = .classDef) :
    ∃ k ∈ (artifact file source root).entities, k.kind = .classDef ∧ k.name = cls.name ∧
      k.span = cls.site.span source := by
  obtain ⟨k, hk, hdescribes⟩ := exists_of_forall₂ (forall₂_artifact file source root).flip hcls
  have hclass : k.kind = .classDef := by simpa [hrole, Role.Fits] using hdescribes.role
  exact ⟨k, hk, hclass, hdescribes.name, hdescribes.span⟩

/-- The classes of a file lie one after the other. -/
theorem pairwise_classes (h : root.IsLaidOut) :
    (artifact file source root).entities.Pairwise fun k k' =>
      k.kind = .classDef → k'.kind = .classDef → k.span.last ≤ k'.span.first := by
  have hplaces : (places source root).Pairwise fun p q => p.2.role = .classDef →
      q.2.role = .classDef → p.2.site.stop ≤ q.2.site.start :=
    (pairwise_places h).imp_of_mem fun hp hq hle hprole hqrole =>
      hle (fst_eq_none hp hprole) (fst_eq_none hq hqrole)
  refine pairwise_of_forall₂ (forall₂_artifact file source root) hplaces ?_
  intro p q k k' hk hk' hle hclass hclass'
  rw [hk.span, hk'.span]
  exact Text.lineAt_mono (hle (hk.role_eq hclass) (hk'.role_eq hclass')) source

/-- Around the lines of a declaration at the top of a file, a class has them on its edge. -/
theorem strictlyContains_iff_of_place (h : root.IsLaidOut) {o : Origin} {inner : LineSpan}
    (ho : (none, o) ∈ places source root) (hinner : inner = o.site.span source) {k : Entity}
    (hk : k ∈ (artifact file source root).entities) (hclass : k.kind = .classDef) :
    k.span.strictlyContains inner = true ↔ k.span.HasOnEdge inner := by
  obtain ⟨o', ho', -, hdescribes⟩ := exists_place_of_class hk hclass
  subst hinner
  refine LineSpan.strictlyContains_iff_hasOnEdge
    ((h.of_mem (isIn_of_mem_places ho).site).span_le source) ?_
  rw [hdescribes.span]
  by_cases hne : o' = o
  · exact Or.inl (by rw [hne])
  · exact Or.inr (apart_of_mem_places h ho' ho hne)

/-- A member on other lines than its class is in the class unless another class outbids it. -/
theorem qualifiedName_eq_iff_outbids (h : root.IsLaidOut) {cls o : Origin} {e : Entity}
    (hp : (some cls, o) ∈ places source root) (hspan : e.span = o.site.span source)
    (hkind : e.kind ≠ .classDef) (hne : cls.site.span source ≠ e.span) :
    (artifact file source root).qualifiedName e = cls.name ++ "." ++ e.name ↔
      ∀ k ∈ (artifact file source root).entities, k.kind = .classDef →
        k.span.Outbids (cls.site.span source) e.span → k.name = cls.name := by
  obtain ⟨hcls, hrole, hsite⟩ := class_of_member hp
  obtain ⟨k, hk, hclass, hname, hlines⟩ := exists_class_of_place file hcls hrole
  have hlaid := h.of_mem (isIn_of_mem_places hcls).site
  have hin : k.span.strictlyContains e.span = true := by
    rw [LineSpan.strictlyContains_iff, hlines]
    refine ⟨?_, ?_, hne⟩ <;> rw [hspan]
    · exact (hlaid.span_bounds hsite source).1
    · exact (hlaid.span_bounds hsite source).2
  have hle : e.span.first ≤ e.span.last := by
    rw [hspan]
    exact (hlaid.of_mem hsite).span_le source
  rw [← hname, ← hlines]
  exact Artifact.qualifiedName_eq_iff hle (pairwise_classes h) hkind hk hclass hin

/-- What covers the lines of a declaration at the top of a file has a class only on its edge. -/
theorem qualifiedName_eq_iff_hasOnEdge (h : root.IsLaidOut) {o : Origin} {e : Entity}
    (ho : (none, o) ∈ places source root) (hspan : e.span = o.site.span source)
    (hkind : e.kind ≠ .classDef) :
    (artifact file source root).qualifiedName e = e.name ↔
      ∀ k ∈ (artifact file source root).entities, k.kind = .classDef →
        ¬ k.span.HasOnEdge e.span := by
  rw [Artifact.qualifiedName_eq_name_iff hkind, Artifact.owner?_eq_none_iff]
  exact forall₃_congr fun k hk hclass =>
    not_congr (strictlyContains_iff_of_place h ho hspan hk hclass)

/--
Every function and constant is written at the top of the file or in a class. A member of a class has
the name of the class in front of its own unless the lines of a neighbour outbid the class. A member
that covers exactly the lines of its class, and what is written outside of any class, has its own
name unless it lies on the edge of a class.
-/
theorem qualified_by_own_class_iff (file : FileIdentity) (source : List Char) (root : SyntaxTree)
    (hroot : root.IsLaidOut) :
    let a := artifact file source root
    ∀ (i : Nat) (e : Entity), a.entities[i]? = some e → e.kind ≠ .classDef →
      ∃ cls? o, (places source root)[i]? = some (cls?, o) ∧ e.name = o.name ∧
        e.span = o.site.span source ∧
        (∀ cls, cls? = some cls → cls.role = .classDef ∧ o.site ∈ cls.site.preorder ∧
          (cls.site.span source ≠ e.span →
            (a.qualifiedName e = cls.name ++ "." ++ e.name ↔
              ∀ k ∈ a.entities, k.kind = .classDef →
                k.span.Outbids (cls.site.span source) e.span → k.name = cls.name)) ∧
          (cls.site.span source = e.span →
            (a.qualifiedName e = e.name ↔
              ∀ k ∈ a.entities, k.kind = .classDef → ¬ k.span.HasOnEdge e.span) ∧
            (a.qualifiedName e = cls.name ++ "." ++ e.name →
              ∃ k ∈ a.entities, k.kind = .classDef ∧ k.span.HasOnEdge e.span ∧
                k.name = cls.name))) ∧
        (cls? = none →
          (a.qualifiedName e = e.name ↔
            ∀ k ∈ a.entities, k.kind = .classDef → ¬ k.span.HasOnEdge e.span)) := by
  intro a i e he hkind
  obtain ⟨⟨cls?, o⟩, hp, hdescribes⟩ := exists_place he
  have hplace := List.mem_of_getElem? hp
  refine ⟨cls?, o, hp, hdescribes.name, hdescribes.span, ?_, ?_⟩
  · rintro cls rfl
    obtain ⟨hcls, hrole, hsite⟩ := class_of_member hplace
    refine ⟨hrole, hsite, fun hne => ?_, fun heq => ⟨?_, fun hname => ?_⟩⟩
    · exact qualifiedName_eq_iff_outbids hroot hplace hdescribes.span hkind hne
    · exact qualifiedName_eq_iff_hasOnEdge hroot hcls heq.symm hkind
    · obtain ⟨f, hf, hfname⟩ := (Artifact.qualifiedName_eq_dotted_iff hkind).mp hname
      obtain ⟨hmem, hclass, hin⟩ := Artifact.of_owner? hf
      have hedge := (strictlyContains_iff_of_place hroot hcls heq.symm hmem hclass).mp hin
      exact ⟨f, hmem, hclass, hedge, hfname⟩
  · rintro rfl
    exact qualifiedName_eq_iff_hasOnEdge hroot hplace hdescribes.span hkind

/-- The syntax tree of `class A { m() {} }`, on one line. -/
def cramped : SyntaxTree :=
  ⟨"program", true, none, 0, 18, [⟨"class_declaration", true, none, 0, 18,
    [⟨"class", false, none, 0, 5, []⟩, ⟨"type_identifier", true, some "name", 6, 7, []⟩,
      ⟨"class_body", true, some "body", 8, 18, [⟨"method_definition", true, none, 10, 16,
        [⟨"property_identifier", true, some "name", 10, 11, []⟩,
          ⟨"formal_parameters", true, some "parameters", 11, 13, []⟩,
          ⟨"statement_block", true, some "body", 14, 16, []⟩]⟩]⟩]⟩]⟩

/-- The syntax tree of the same class on three lines, and of `function f() {}` on the last one. -/
def adjoining : SyntaxTree :=
  ⟨"program", true, none, 0, 36, [⟨"class_declaration", true, none, 0, 20,
    [⟨"class", false, none, 0, 5, []⟩, ⟨"type_identifier", true, some "name", 6, 7, []⟩,
      ⟨"class_body", true, some "body", 8, 20, [⟨"method_definition", true, none, 12, 18,
        [⟨"property_identifier", true, some "name", 12, 13, []⟩,
          ⟨"formal_parameters", true, some "parameters", 13, 15, []⟩,
          ⟨"statement_block", true, some "body", 16, 18, []⟩]⟩]⟩]⟩,
    ⟨"function_declaration", true, none, 21, 36,
      [⟨"function", false, none, 21, 29, []⟩, ⟨"identifier", true, some "name", 30, 31, []⟩,
        ⟨"formal_parameters", true, some "parameters", 31, 33, []⟩,
        ⟨"statement_block", true, some "body", 34, 36, []⟩]⟩]⟩

theorem qualified_by_own_class_iff_adjoining :
    let line := "class A \x7b m() \x7b\x7d \x7d".toList
    let lines := "class A \x7b\n  m() \x7b\x7d\n\x7d function f() \x7b\x7d".toList
    (artifact default line cramped).qualifiedNames[1]? = some "m" ∧
    (artifact default lines adjoining).qualifiedNames[1]? = some "A.m" ∧
    (artifact default lines adjoining).qualifiedNames[2]? ≠ some "f" := by
  intro line lines
  have hcramped : cramped.IsLaidOut := by
    unfold SyntaxTree.IsLaidOut
    decide +kernel
  have hadjoining : adjoining.IsLaidOut := by
    unfold SyntaxTree.IsLaidOut
    decide +kernel
  obtain ⟨m, hm, hcovered⟩ := Option.map_eq_some_iff.mp (by decide +kernel :
    (artifact default line cramped).entities[1]?.map (fun e => (e.kind, e.name, e.span)) =
      some (.method, "m", ⟨1, 1⟩))
  obtain ⟨n, hn, hinner⟩ := Option.map_eq_some_iff.mp (by decide +kernel :
    (artifact default lines adjoining).entities[1]?.map (fun e => (e.kind, e.name, e.span)) =
      some (.method, "m", ⟨2, 2⟩))
  obtain ⟨f, hf, hlast⟩ := Option.map_eq_some_iff.mp (by decide +kernel :
    (artifact default lines adjoining).entities[2]?.map (fun e => (e.kind, e.name, e.span)) =
      some (.function, "f", ⟨3, 3⟩))
  simp only [Prod.mk.injEq] at hcovered hinner hlast
  obtain ⟨_, _, hp, -, -, halone, -⟩ :=
    qualified_by_own_class_iff default line _ hcramped 1 m hm (by simp [hcovered])
  obtain ⟨_, _, hq, -, -, hinside, -⟩ :=
    qualified_by_own_class_iff default lines _ hadjoining 1 n hn (by simp [hinner])
  obtain ⟨_, _, hr, -, -, -, hbeside⟩ :=
    qualified_by_own_class_iff default lines _ hadjoining 2 f hf (by simp [hlast])
  have hplace : (places line cramped)[1]? = some (some _, _) := rfl
  have hplace' : (places lines adjoining)[1]? = some (some _, _) := rfl
  have htop : (places lines adjoining)[2]? = some (none, _) := rfl
  cases hplace.symm.trans hp
  cases hplace'.symm.trans hq
  cases htop.symm.trans hr
  obtain ⟨-, -, -, hsame⟩ := halone _ rfl
  obtain ⟨-, -, hother, -⟩ := hinside _ rfl
  rw [hcovered.2.1, hcovered.2.2] at hsame
  rw [hinner.2.1, hinner.2.2] at hother
  rw [hlast.2.1, hlast.2.2] at hbeside
  unfold LineSpan.HasOnEdge at hsame hbeside
  unfold LineSpan.Outbids LineSpan.HasOnEdge at hother
  rw [Artifact.getElem?_qualifiedNames hm, Artifact.getElem?_qualifiedNames hn,
    Artifact.getElem?_qualifiedNames hf]
  refine ⟨congrArg some ((hsame (by decide +kernel)).1.mpr (by decide +kernel)),
    congrArg some ((hother (by decide +kernel)).mpr (by decide +kernel)), fun hname => ?_⟩
  exact absurd ((hbeside rfl).mp (Option.some.inj hname)) (by decide +kernel)

end Script

end SourceGraph
