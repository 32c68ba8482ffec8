/-!
# Folders

The contents of a folder, sorted by name. Names occur once.

* `Listing`, `Entry`: a folder's contents, and what a name in it stands for.
* `Listing.get?`, `Listing.put`, `Listing.erase`: look-up and change of one name.
* `Listing.at?`, `Listing.changeAt`: look-up and change through folders.
-/

set_option autoImplicit false

namespace SourceGraph

/-- Files and folders by name, in the order of the names. -/
inductive Listing where
  | nil
  | file (name : String) (content : ByteArray) (rest : Listing)
  | folder (name : String) (inside : Listing) (rest : Listing)
deriving Inhabited

/-- What a name stands for. -/
inductive Entry where
  | file (content : ByteArray)
  | folder (inside : Listing)
deriving Inhabited

namespace Listing

/-- An entry in front of others. -/
def cons (name : String) (e : Entry) (rest : Listing) : Listing :=
  match e with
  | .file content => .file name content rest
  | .folder inside => .folder name inside rest

/-- What a name stands for. -/
def get? (name : String) : Listing → Option Entry
  | nil => none
  | file n content rest => if n = name then some (.file content) else get? name rest
  | folder n inside rest => if n = name then some (.folder inside) else get? name rest

/-- The contents with a name set to an entry. -/
def put (name : String) (e : Entry) : Listing → Listing
  | nil => cons name e nil
  | file n content rest =>
    if n = name then cons name e rest
    else if name < n then cons name e (file n content rest)
    else file n content (put name e rest)
  | folder n inside rest =>
    if n = name then cons name e rest
    else if name < n then cons name e (folder n inside rest)
    else folder n inside (put name e rest)

/-- The contents without a name. -/
def erase (name : String) : Listing → Listing
  | nil => nil
  | file n content rest => if n = name then erase name rest else file n content (erase name rest)
  | folder n inside rest => if n = name then erase name rest else folder n inside (erase name rest)

/-- What is reached through the names of folders; nothing is below a file. -/
def at? (l : Listing) : List String → Option Entry
  | [] => some (.folder l)
  | name :: names =>
    match l.get? name with
    | some (.folder inside) => inside.at? names
    | some (.file content) => if names = [] then some (.file content) else none
    | none => none

/-- The contents after `change` in the folder that is reached through some names. -/
def changeAt (change : Listing → Listing) (l : Listing) : List String → Listing
  | [] => change l
  | name :: names =>
    match l.get? name with
    | some (.folder inside) => l.put name (.folder (changeAt change inside names))
    | _ => l

end Listing

end SourceGraph
