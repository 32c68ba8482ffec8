import SourceGraph.Command.Basic

/-!
# Arguments

The arguments of the program: options, the name of a command, and the options and paths of that
command. Options may stand before or after the name. None may be given twice in one place; what is
given after the name wins.

* `Form`: the options and paths that are accepted in one place.
* `Form.read`: the arguments up to the name of a command, or all.
* `Invocation.ofArguments`: the invocation that arguments mean.
-/

set_option autoImplicit false

namespace SourceGraph

/-- Why arguments mean no invocation. -/
inductive ArgumentStop where
  /-- They are wrong. -/
  | usage
  /-- They ask for help. -/
  | help
  /-- They ask for the version. -/
  | version
deriving DecidableEq, Inhabited

/-- What is accepted in one place. -/
structure Form where
  /-- The options without a value. -/
  flags : List String
  /-- The options with a value. -/
  options : List String
  /-- The number of paths. -/
  paths : Nat := 0
  /-- The names that end the place. -/
  commands : List String := []
deriving DecidableEq, Inhabited

/-- What was given in one place. -/
structure Given where
  flags : List String := []
  values : List (String × String) := []
  paths : List String := []
deriving DecidableEq, Inhabited

namespace Given

/-- One more option without a value. -/
def flag (g : Given) (name : String) : Except ArgumentStop Given :=
  if name = "help" then .error .help
  else if name = "version" then .error .version
  else if g.flags.contains name then .error .usage
  else .ok { g with flags := name :: g.flags }

/-- One more option with a value. -/
def value (g : Given) (name value : String) : Except ArgumentStop Given :=
  if value = "" ∨ (g.values.lookup name).isSome then .error .usage
  else .ok { g with values := (name, value) :: g.values }

/-- One more path. -/
def path (f : Form) (g : Given) (path : String) : Except ArgumentStop Given :=
  if path ≠ "" ∧ g.paths.length < f.paths then .ok { g with paths := g.paths ++ [path] }
  else .error .usage

/-- The value of an option, as a path. -/
def path? (g : Given) (name : String) : Option Path := (g.values.lookup name).map Path.mk

end Given

namespace Form

/-- The option of a letter. -/
def ofLetter? (f : Form) (c : Char) : Option String :=
  f.flags.find? fun name =>
    (c == 'v' && name == "verbose") || (c == 'h' && name == "help") || (c == 'V' && name == "version")

/-- Some options given by their letters. -/
def letters (f : Form) (g : Given) : List Char → Except ArgumentStop Given
  | [] => .ok g
  | c :: cs =>
    match f.ofLetter? c with
    | none => .error .usage
    | some name => (g.flag name).bind fun g => f.letters g cs

/-- Whether an argument is an option rather than a value. -/
def isOption : List Char → Bool
  | '-' :: _ :: _ => true
  | _ => false

/-- All remaining arguments, taken as paths. -/
def plain (f : Form) (g : Given) : List String → Except ArgumentStop Given
  | [] => .ok g
  | arg :: rest => (Given.path f g arg).bind fun g => f.plain g rest

/-- A named option: its name, the value that is attached to it, and the arguments after it. -/
def named (f : Form) (g : Given) (name : String) (attached : Option String) (rest : List String) :
    Except ArgumentStop (Given × List String) :=
  if f.flags.contains name then
    match attached with
    | none => (g.flag name).map fun g => (g, rest)
    | some _ => .error .usage
  else if f.options.contains name then
    match attached, rest with
    | some v, rest => (g.value name v).map fun g => (g, rest)
    | none, v :: rest =>
      if isOption v.toList then .error .usage else (g.value name v).map fun g => (g, rest)
    | none, [] => .error .usage
  else .error .usage

/-- The name of an option and the value that is attached to it. -/
def cutOption (cs : List Char) : String × Option String :=
  match cs.dropWhile (· ≠ '=') with
  | '=' :: v => (String.ofList (cs.takeWhile (· ≠ '=')), some (String.ofList v))
  | _ => (String.ofList cs, none)

/--
What is given in one place, and the arguments from the name of a command on. The first argument
bounds the number of arguments.
-/
def readIn (f : Form) : Nat → Given → List String → Except ArgumentStop (Given × List String)
  | _, g, [] => .ok (g, [])
  | 0, _, _ :: _ => .error .usage
  | n + 1, g, arg :: rest =>
    if f.commands.contains arg then .ok (g, arg :: rest)
    else
      match arg.toList with
      | ['-', '-'] => (f.plain g rest).map fun g => (g, [])
      | '-' :: '-' :: cs =>
        let (name, attached) := cutOption cs
        (f.named g name attached rest).bind fun (g, rest) => f.readIn n g rest
      | '-' :: c :: cs => (f.letters g (c :: cs)).bind fun g => f.readIn n g rest
      | _ => (Given.path f g arg).bind fun g => f.readIn n g rest

/-- What is given in one place, and the arguments from the name of a command on. -/
def read (f : Form) (args : List String) : Except ArgumentStop (Given × List String) :=
  f.readIn args.length {} args

end Form

namespace Command

/-- The options that go with all commands. -/
def commonForm : Form := { flags := ["verbose", "help"], options := ["config"] }

/-- The names of the commands, and of the help on them. -/
def names : List String :=
  ["init", "add", "remove", "sync", "reindex", "watch", "status", "show", "tree", "help"]

/-- What is accepted before the name of a command. -/
def outerForm : Form :=
  { commonForm with flags := "version" :: commonForm.flags, commands := names }

/-- What is accepted after the name of a command. -/
def form (name : String) : Form :=
  match name with
  | "init" => { commonForm with flags := "force" :: commonForm.flags }
  | "add" | "remove" => { commonForm with paths := 1 }
  | "show" =>
    { commonForm with
      flags := "calls" :: commonForm.flags, options := "file" :: "folder" :: commonForm.options }
  | _ => commonForm

/-- The files that options select. -/
def selection (g : Given) : Except ArgumentStop Selection :=
  match g.path? "file", g.path? "folder" with
  | some _, some _ => .error .usage
  | some p, none => .ok (.file p)
  | none, some p => .ok (.folder p)
  | none, none => .ok .everything

/-- The command of a name with its options and paths. -/
def ofGiven (name : String) (g : Given) : Except ArgumentStop Command :=
  match name, g.paths with
  | "init", [] => .ok (.init (g.flags.contains "force"))
  | "add", [p] => .ok (.add ⟨p⟩)
  | "remove", [p] => .ok (.remove ⟨p⟩)
  | "sync", [] => .ok .sync
  | "reindex", [] => .ok .reindex
  | "watch", [] => .ok .watch
  | "status", [] => .ok .status
  | "show", [] => (selection g).map fun files => .show files (g.flags.contains "calls")
  | "tree", [] => .ok .tree
  | _, _ => .error .usage

end Command

/-- Whether the names after `help` are those of at most one command. -/
def isHelpTopic : List String → Bool
  | [] => true
  | [name] => Command.names.contains name
  | _ => false

/--
The invocation that arguments mean. The environment may name settings too; an option wins over it,
but it must not be empty.
-/
def Invocation.ofArguments (environment : Option String) (args : List String) :
    Except ArgumentStop Invocation := do
  let (outer, rest) ← Command.outerForm.read args
  match rest with
  | [] => .error .usage
  | name :: rest =>
    if name = "help" then .error (if isHelpTopic rest then .help else .usage)
    else
      let (inner, _) ← (Command.form name).read rest
      let command ← Command.ofGiven name inner
      if environment = some "" then .error .usage
      else
        .ok
          { command
            settings :=
              ((inner.path? "config").or (outer.path? "config")).or (environment.map Path.mk)
            isVerbose := inner.flags.contains "verbose" || outer.flags.contains "verbose" }

end SourceGraph
