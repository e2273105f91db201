import TokenLedger.Text.Split

/-! The texts of paths: names with slashes between them. -/

namespace TokenLedger

structure Path where
  text : String
  deriving DecidableEq, Repr

namespace Path

def chars (p : Path) : List Char := p.text.toList

/-- Without the slashes, and the slashes with a point, at the end of a reversed path. -/
def dropTrailing : List Char → List Char
  | '/' :: s => dropTrailing s
  | '.' :: '/' :: s => dropTrailing s
  | s => s

def names (p : Path) : List String :=
  ((Text.pieces '/' p.chars).filter (!·.isEmpty)).map String.ofList

def hasNull (p : Path) : Bool := p.chars.contains '\x00'

/-- The last name stays or goes back, or there is none. -/
def endsWithPoints (p : Path) : Bool :=
  match p.names.getLast? with
  | some n => n == "." || n == ".."
  | none => true

def isDirectoryOnly (p : Path) : Bool := p.chars.getLast? == some '/'

def isAbsolute (p : Path) : Bool := p.chars.head? == some '/'

/-- The path without its last name; empty for a single name. -/
def parent (p : Path) : Path :=
  let r := dropTrailing p.chars.reverse
  ⟨String.ofList (dropTrailing (r.dropWhile (· != '/'))).reverse⟩

def join (p : Path) (n : String) : Path :=
  ⟨if p.text.isEmpty || p.text.endsWith "/" then p.text ++ n else p.text ++ "/" ++ n⟩

/-- What stands before the last point of a name: all of it if the extension is missing, as in a name
that begins with its only point. -/
def stem (name : List Char) : List Char :=
  let s := ((name.reverse.dropWhile (· != '.')).drop 1).reverse
  if s.isEmpty then name else s

/-- The path whose last name has the extension `e` instead of its own. Where two points are left when
the old extension is cut off, the path leads back and takes no other. -/
def withExtension (p : Path) (e : String) : Path :=
  let r := dropTrailing p.chars.reverse
  let name := (r.takeWhile (· != '/')).reverse
  let before := (r.dropWhile (· != '/')).reverse
  if name = [] ∨ name = ['.'] ∨ name = ['.', '.'] then p
  else if stem name = ['.'] ∧ r.length = p.chars.length then ⟨String.ofList (before ++ ['.', '.'])⟩
  else ⟨String.ofList (before ++ stem name) ++ "." ++ e⟩

end Path
end TokenLedger
