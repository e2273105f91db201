import Std.Data.ExtTreeMap
import TokenLedger.Host.Disk

/-! A folder in memory as a disk. It has no links, every file has one name, a write is refused before it has
begun or is done as a whole, and no path leads out: the root is the folder itself, which is the directory of
commands as well. So it is a plain case of a volume (`Volume.Plain`). -/

namespace TokenLedger

inductive Node where
  | file (content : Bytes)
  | directory
  deriving DecidableEq

/-- Files and directories by the names that lead to them, with slashes between. -/
abbrev Folder := Std.ExtTreeMap String Node

namespace Folder

def keyOf (names : List String) : String := "/".intercalate names

/-- A place in a folder: the names that lead to it, each of them forward, and what is there. -/
structure Place where
  names : List String
  node : Option Node

def Place.key (x : Place) : String := keyOf x.names

def maxName : Nat := 255

def maxPath : Nat := 4095

/-- Follows names from the directory to which `seen` leads; a point stays there and two points go back.
Only the last name may lead to nothing. -/
def walk (f : Folder) (seen : List String) : List String → Except FileError Place
  | [] => .ok ⟨seen, some .directory⟩
  | n :: ns => do
    if n = "." then walk f seen ns
    else if n = ".." then walk f seen.dropLast ns
    else if maxName < (Text.utf8 n).length then throw .nameTooLong
    else
      let here := f[keyOf (seen ++ [n])]?
      match ns, here with
      | [], _ => return ⟨seen ++ [n], here⟩
      | _ :: _, some .directory => walk f (seen ++ [n]) ns
      | _ :: _, some (.file _) => throw .notDirectory
      | _ :: _, none => throw .missing

/-- A path that can be followed is neither empty nor too long. -/
def checkPath (p : Path) : Except FileError Unit :=
  if p.hasNull then .error .nullCharacter
  else if p.text.isEmpty then .error .missing
  else if maxPath < (Text.utf8 p.text).length then .error .nameTooLong
  else .ok ()

/-- The place that the names of a path lead to. -/
def follow (f : Folder) (p : Path) : Except FileError Place := do
  checkPath p
  walk f [] p.names

/-- The place that a path names. A file is not found under the path of a directory. -/
def find (f : Folder) (p : Path) : Except FileError Place := do
  let x ← f.follow p
  match x.node with
  | some (.file _) => if p.isDirectoryOnly then throw .notDirectory else return x
  | _ => return x

def isThere (f : Folder) (p : Path) : Bool :=
  match f.find p with
  | .ok x => x.node.isSome
  | .error _ => false

def read (f : Folder) (p : Path) : Except FileError Bytes := do
  match (← f.find p).node with
  | some (.file b) => return b
  | some .directory => throw .isDirectory
  | none => throw .missing

def write (f : Folder) (p : Path) (b : Bytes) : Except FileError Folder := do
  let x ← f.follow p
  if p.isDirectoryOnly then throw .isDirectory
  match x.node with
  | some .directory => throw .isDirectory
  | _ => return f.insert x.key (.file b)

def isDirectory (f : Folder) (p : Path) : Bool :=
  match f.find p with
  | .ok x => x.node == some .directory
  | .error _ => false

def makeDirectory (f : Folder) (p : Path) : Except FileError Folder := do
  let x ← f.follow p
  match x.node with
  | some _ => throw .alreadyThere
  | none => return f.insert x.key .directory

/-- Moves a file, in place of another if there is one. -/
def rename (f : Folder) (p q : Path) : Except FileError Folder := do
  checkPath p
  checkPath q
  let x ← walk f [] p.names
  let y ← walk f [] q.names
  if p.endsWithPoints || q.endsWithPoints then throw .busy
  match x.node, y.node with
  | none, _ => throw .missing
  | some .directory, _ => throw .isDirectory
  | some (.file b), z =>
    if p.isDirectoryOnly || q.isDirectoryOnly then throw .notDirectory
    if z = some .directory then throw .isDirectory
    return (f.erase x.key).insert y.key (.file b)

def files (f : Folder) : List (String × Bytes) :=
  f.toList.filterMap fun (k, n) => match n with
    | .file b => some (k, b)
    | .directory => none

/-- Keeps the folder that an operation gives. -/
def keep (r : Folder → Except FileError Folder) : StateM Folder (Except FileError Unit) := fun f =>
  match r f with
  | .ok f => (.ok (), f)
  | .error e => (.error e, f)

def disk : Disk (StateM Folder) where
  isThere p := do return (← get).isThere p
  isDirectory p := do return (← get).isDirectory p
  read p := do return (← get).read p
  write p b := keep (·.write p b)
  makeDirectory p := keep (·.makeDirectory p)
  rename p q := keep (·.rename p q)

end Folder
end TokenLedger
