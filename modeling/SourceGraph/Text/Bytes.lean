/-!
# Byte offsets

Offsets count the bytes of a text in UTF-8. The functions work on lists of characters; offsets in
the middle of a character do not occur.

* `dropBytes`, `takeBytes`: a text from an offset on, or up to it.
* `between`: the text between two offsets.
* `lineAt`: the number of the line at an offset.
-/

set_option autoImplicit false

namespace SourceGraph.Text

/-- The characters from byte `n` on. -/
def dropBytes (n : Nat) : List Char → List Char
  | [] => []
  | c :: cs => if n = 0 then c :: cs else dropBytes (n - c.utf8Size) cs

/-- The characters before byte `n`. -/
def takeBytes (n : Nat) : List Char → List Char
  | [] => []
  | c :: cs => if n = 0 then [] else c :: takeBytes (n - c.utf8Size) cs

/-- The characters from byte `start` up to byte `stop`. -/
def between (start stop : Nat) (cs : List Char) : List Char :=
  takeBytes (stop - start) (dropBytes start cs)

/-- The line of byte `n`, counted from 1. -/
def lineAt (n : Nat) (cs : List Char) : Nat := (takeBytes n cs).count '\n' + 1

end SourceGraph.Text
