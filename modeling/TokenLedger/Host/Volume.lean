import TokenLedger.Host.Folder

/-! Files that may have several names, links that lead elsewhere, and directories above the one in which commands
run. A folder is the part of a volume that has none of these. -/

namespace TokenLedger

/-- What stands under a name: a file by its number, which other names may stand for as well, a directory, or a
link with the path to which it leads. -/
inductive Volume.Item where
  | file (number : Nat)
  | directory
  | link (target : Path)
  deriving DecidableEq

structure Volume where
  /-- What stands under the names that lead from the root, with slashes between. -/
  items : Std.ExtTreeMap String Volume.Item
  contents : Std.ExtTreeMap Nat Bytes
  /-- The names that lead to the directory in which commands run. -/
  here : List String

namespace Volume

structure Place where
  names : List String
  item : Option Item

def Place.key (x : Place) : String := Folder.keyOf x.names

/-- The links that may be followed on one way. -/
def maxLinks : Nat := 40

/-- The names to which a link leads. What ends with a slash has to be a directory, as before a point. -/
def route (target : Path) : List String :=
  if target.isDirectoryOnly then target.names ++ ["."] else target.names

/-- Follows names from the directory to which `seen` leads as far as the next link, from where `jump` goes on.
The last name is followed as a link only if the way goes `through` it. -/
def walkNames (v : Volume) (through : Bool) (jump : List String → List String → Except FileError Place)
    (seen : List String) : List String → Except FileError Place
  | [] => .ok ⟨seen, some .directory⟩
  | n :: ns => do
    if n = "." then walkNames v through jump seen ns
    else if n = ".." then walkNames v through jump seen.dropLast ns
    else if Folder.maxName < (Text.utf8 n).length then throw .nameTooLong
    else
      let item := v.items[Folder.keyOf (seen ++ [n])]?
      match item, ns with
      | some (.link target), ns =>
        if ns.isEmpty && !through then return ⟨seen ++ [n], item⟩
        else jump (if target.isAbsolute then [] else seen) (route target ++ ns)
      | _, [] => return ⟨seen ++ [n], item⟩
      | some .directory, _ :: _ => walkNames v through jump (seen ++ [n]) ns
      | some (.file _), _ :: _ => throw .notDirectory
      | none, _ :: _ => throw .missing

/-- Follows names and so many links at most. -/
def walk (v : Volume) (through : Bool) : (links : Nat) → (seen names : List String) → Except FileError Place
  | 0 => v.walkNames through fun _ _ => .error .tooManyLinks
  | links + 1 => v.walkNames through (v.walk through links)

def follow (v : Volume) (through : Bool) (p : Path) : Except FileError Place := do
  Folder.checkPath p
  v.walk through maxLinks (if p.isAbsolute then [] else v.here) p.names

/-- The place that a path names, behind all links. -/
def find (v : Volume) (p : Path) : Except FileError Place := do
  let x ← v.follow true p
  match x.item with
  | some (.file _) => if p.isDirectoryOnly then throw .notDirectory else return x
  | _ => return x

def isThere (v : Volume) (p : Path) : Bool :=
  match v.find p with
  | .ok x => x.item.isSome
  | .error _ => false

def isDirectory (v : Volume) (p : Path) : Bool :=
  match v.find p with
  | .ok x => x.item == some .directory
  | .error _ => false

def Item.number? : Item → Option Nat
  | .file i => some i
  | _ => none

def content (v : Volume) (i : Nat) : Bytes := (v.contents[i]?).getD []

/-- The content of the file under a key. -/
def content? (v : Volume) (k : String) : Option Bytes := (v.items[k]?.bind Item.number?).map v.content

def read (v : Volume) (p : Path) : Except FileError Bytes := do
  match (← v.find p).item with
  | some (.file i) => return v.content i
  | some _ => throw .isDirectory
  | none => throw .missing

def fresh (v : Volume) : Nat := (v.items.toList.filterMap (·.2.number?)).max?.getD 0 + 1

/-- Where the file is that a path names, behind all links, and its number, a new one if there is no file. -/
def target (v : Volume) (p : Path) : Except FileError (String × Nat) := do
  let x ← v.follow true p
  if p.isDirectoryOnly then throw .isDirectory
  match x.item with
  | some (.file i) => return (x.key, i)
  | some _ => throw .isDirectory
  | none => return (x.key, v.fresh)

def put (v : Volume) (k : String) (i : Nat) (b : Bytes) : Volume :=
  { v with items := v.items.insert k (.file i), contents := v.contents.insert i b }

def write (v : Volume) (p : Path) (b : Bytes) : Except FileError Volume := do
  let (k, i) ← v.target p
  return v.put k i b

def makeDirectory (v : Volume) (p : Path) : Except FileError Volume := do
  let x ← v.follow false p
  match x.item with
  | some _ => throw .alreadyThere
  | none => return { v with items := v.items.insert x.key .directory }

def move (v : Volume) (j k : String) (item : Item) : Volume :=
  { v with items := (v.items.erase j).insert k item }

/-- Moves a file or a link, which is not followed, in place of another if there is one. Of two names of one file
both stay. -/
def rename (v : Volume) (p q : Path) : Except FileError Volume := do
  Folder.checkPath p
  Folder.checkPath q
  let x ← v.follow false p
  let y ← v.follow false q
  if p.endsWithPoints || q.endsWithPoints then throw .busy
  match x.item with
  | none => throw .missing
  | some item =>
    if item = .directory then throw .isDirectory
    if p.isDirectoryOnly || q.isDirectoryOnly then throw .notDirectory
    if y.item = some .directory then throw .isDirectory
    return if item.number?.isSome && y.item = some item then v else v.move x.key y.key item

end Volume
end TokenLedger
