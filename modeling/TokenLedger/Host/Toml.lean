import TokenLedger.Text.Hex

/-! Configuration documents in TOML, as far as a configuration can hold them: texts, lists and tables.
A document with a value of another kind counts as broken. -/

namespace TokenLedger.Toml

abbrev Way := List String

inductive Value where
  | text (s : String)
  | list (items : List Value)
  | table (members : List (Way × Value))
  deriving Repr

instance : Inhabited Value := ⟨.list []⟩

def Value.isHollow : Value → Bool
  | .list [] | .table [] => true
  | _ => false

/-- A line of a document: the heading of a table, or a value in the table under the last heading. -/
inductive Line where
  | heading (way : Way)
  | pair (way : Way) (v : Value)

/-- A reader: what it takes from the front, and the rest. -/
abbrev Reading (α : Type) := List Char → Option (α × List Char)

def isSpace (c : Char) : Bool := c == ' ' || c == '\t'

def isControl (c : Char) : Bool := (c.toNat < 32 && c != '\t') || c.toNat == 127

def spaces (s : List Char) : List Char := s.dropWhile isSpace

/-- What follows the end of a line, if the line ends here. -/
def lineEnd? : List Char → Option (List Char)
  | '\n' :: s => some s
  | '\r' :: '\n' :: s => some s
  | _ => none

def comment (s : List Char) : List Char :=
  match spaces s with
  | '#' :: s => s.dropWhile (!isControl ·)
  | s => s

/-- Passes over blank lines and comments, at most `fuel` lines. -/
def blankLines : (fuel : Nat) → List Char → List Char
  | 0, s => s
  | fuel + 1, s =>
    let t := comment s
    match lineEnd? t with
    | some t => blankLines fuel t
    | none => t

def gap (s : List Char) : List Char := blankLines (s.length + 1) s

def codePoint? (ds : List Char) : Option Char := do
  let ns ← ds.mapM fun c => (Hex.value (UInt8.ofNat c.toNat) 0).toOption.filter fun _ => c.toNat < 128
  let n := ns.foldl (fun n d => n * 16 + d) 0
  if h : n.isValidChar then some (Char.ofNatAux n h) else none

def escaped? : Char → Option Char
  | '"' => some '"'
  | '\\' => some '\\'
  | 'b' => some '\x08'
  | 'f' => some '\x0c'
  | 'n' => some '\n'
  | 'r' => some '\r'
  | 't' => some '\t'
  | _ => none

def consTo (c : Char) (r : Option (List Char × List Char)) : Option (List Char × List Char) :=
  r.map fun (t, s) => (c :: t, s)

/-- A text with escapes on one line, behind its opening quote. -/
def basic : Reading (List Char)
  | [] => none
  | '"' :: s => some ([], s)
  | '\\' :: 'u' :: a :: b :: c :: d :: s => do consTo (← codePoint? [a, b, c, d]) (basic s)
  | '\\' :: 'U' :: a :: b :: c :: d :: e :: f :: g :: h :: s => do
    consTo (← codePoint? [a, b, c, d, e, f, g, h]) (basic s)
  | '\\' :: c :: s => do consTo (← escaped? c) (basic s)
  | c :: s => if isControl c || c == '\\' then none else consTo c (basic s)

/-- A text without escapes on one line, behind its opening quote. -/
def plain : Reading (List Char)
  | [] => none
  | '\'' :: s => some ([], s)
  | c :: s => if isControl c then none else consTo c (plain s)

/-- A text over several lines, behind its opening quotes. After a backslash at the end of a line
(`joined`) all that is blank is left out. -/
def basicLines : (joined : Bool) → Reading (List Char)
  | _, [] => none
  | true, ' ' :: s => basicLines true s
  | true, '\t' :: s => basicLines true s
  | true, '\n' :: s => basicLines true s
  | true, '\r' :: '\n' :: s => basicLines true s
  | _, '"' :: '"' :: '"' :: '"' :: '"' :: s => some (['"', '"'], s)
  | _, '"' :: '"' :: '"' :: '"' :: s => some (['"'], s)
  | _, '"' :: '"' :: '"' :: s => some ([], s)
  | _, '\\' :: 'u' :: a :: b :: c :: d :: s => do
    consTo (← codePoint? [a, b, c, d]) (basicLines false s)
  | _, '\\' :: 'U' :: a :: b :: c :: d :: e :: f :: g :: h :: s => do
    consTo (← codePoint? [a, b, c, d, e, f, g, h]) (basicLines false s)
  | _, '\\' :: c :: s =>
    match escaped? c with
    | some e => consTo e (basicLines false s)
    | none => if (lineEnd? (spaces (c :: s))).isSome then basicLines true (c :: s) else none
  | _, '\n' :: s => consTo '\n' (basicLines false s)
  | _, '\r' :: '\n' :: s => consTo '\n' (basicLines false s)
  | _, c :: s => if isControl c || c == '\\' then none else consTo c (basicLines false s)

/-- A text without escapes over several lines, behind its opening quotes. -/
def plainLines : Reading (List Char)
  | [] => none
  | '\'' :: '\'' :: '\'' :: '\'' :: '\'' :: s => some (['\'', '\''], s)
  | '\'' :: '\'' :: '\'' :: '\'' :: s => some (['\''], s)
  | '\'' :: '\'' :: '\'' :: s => some ([], s)
  | '\n' :: s => consTo '\n' (plainLines s)
  | '\r' :: '\n' :: s => consTo '\n' (plainLines s)
  | c :: s => if isControl c then none else consTo c (plainLines s)

/-- A line end that follows the opening quotes does not count. -/
def withoutFirstEnd (s : List Char) : List Char := (lineEnd? s).getD s

def text : Reading (List Char)
  | '"' :: '"' :: '"' :: s => basicLines false (withoutFirstEnd s)
  | '\'' :: '\'' :: '\'' :: s => plainLines (withoutFirstEnd s)
  | '"' :: s => basic s
  | '\'' :: s => plain s
  | _ => none

def isBare (c : Char) : Bool := c.isAlphanum || c == '-' || c == '_'

def name : Reading String
  | '"' :: s => (basic s).map fun (t, s) => (String.ofList t, s)
  | '\'' :: s => (plain s).map fun (t, s) => (String.ofList t, s)
  | s =>
    let t := s.takeWhile isBare
    if t.isEmpty then none else some (String.ofList t, s.dropWhile isBare)

/-- Names with points between them, at most `fuel` of them. -/
def way : (fuel : Nat) → Reading Way
  | 0, _ => none
  | fuel + 1, s => do
    let (n, s) ← name (spaces s)
    match spaces s with
    | '.' :: s => do
      let (ns, s) ← way fuel s
      return (n :: ns, s)
    | s => return ([n], s)

def apart (ws : List Way) : Bool :=
  match ws with
  | [] => true
  | w :: ws => ws.all (fun v => !w.isPrefixOf v && !v.isPrefixOf w) && apart ws

mutual

/-- Reads a value; `fuel` bounds the number of values in it. -/
def value : (fuel : Nat) → Reading Value
  | 0, _ => none
  | fuel + 1, s =>
    match s with
    | '[' :: s => do
      let (vs, s) ← items fuel (gap s)
      return (.list vs, s)
    | '\x7b' :: s =>
      match spaces s with
      | '\x7d' :: s => some (.table [], s)
      | s => do
        let (ms, s) ← members fuel s
        if apart (ms.map (·.1)) then return (.table ms, s) else none
    | s => (text s).map fun (t, s) => (.text (String.ofList t), s)

/-- The items of a list, up to its closing bracket. -/
def items : (fuel : Nat) → Reading (List Value)
  | 0, _ => none
  | fuel + 1, s =>
    match s with
    | ']' :: s => some ([], s)
    | s => do
      let (v, s) ← value fuel s
      match gap s with
      | ',' :: s => do
        let (vs, s) ← items fuel (gap s)
        return (v :: vs, s)
      | ']' :: s => return ([v], s)
      | _ => none

/-- The members of a table on one line, up to its closing brace. -/
def members : (fuel : Nat) → Reading (List (Way × Value))
  | 0, _ => none
  | fuel + 1, s => do
    let (m, s) ← pair fuel s
    match spaces s with
    | ',' :: s => do
      let (ms, s) ← members fuel s
      return (m :: ms, s)
    | '\x7d' :: s => return ([m], s)
    | _ => none

def pair : (fuel : Nat) → Reading (Way × Value)
  | 0, _ => none
  | fuel + 1, s => do
    let (w, s) ← way (s.length + 1) s
    match spaces s with
    | '=' :: s => do
      let (v, s) ← value fuel (spaces s)
      return ((w, v), s)
    | _ => none

end

def line : Reading Line
  | '[' :: s => do
    let (w, s) ← way (s.length + 1) s
    match s with
    | ']' :: s => return (.heading w, s)
    | _ => none
  | s => (pair (2 * s.length + 2) s).map fun ((w, v), s) => (.pair w v, s)

def lines : (fuel : Nat) → List Char → Option (List Line)
  | 0, _ => none
  | fuel + 1, s =>
    match gap s with
    | [] => some []
    | s => do
      let (l, s) ← line s
      match comment s with
      | [] => return [l]
      | s => do return l :: (← lines fuel (← lineEnd? s))

structure Document where
  headings : List Way
  pairs : List (Way × Value)

/-- Puts the pairs under their headings. -/
def gather : Way → List Line → Document
  | _, [] => ⟨[], []⟩
  | base, .pair w v :: ls =>
    let d := gather base ls
    { d with pairs := (base ++ w, v) :: d.pairs }
  | _, .heading w :: ls =>
    let d := gather w ls
    { d with headings := w :: d.headings }

/-- Headings of tables that a pair has made by a name with points. -/
def dotted (base : Way) : List Line → List Way
  | [] => []
  | .heading w :: ls => dotted w ls
  | .pair w _ :: ls => ((List.range w.length).drop 1).map (base ++ w.take ·) ++ dotted base ls

def Document.isConsistent (d : Document) (ls : List Line) : Bool :=
  apart (d.pairs.map (·.1)) && decide d.headings.Nodup
    && d.headings.all (fun h => d.pairs.all (fun p => !p.1.isPrefixOf h) && !(dotted [] ls).contains h)

def Document.ofText? (s : String) : Option Document := do
  let s := s.toList
  let ls ← lines (s.length + 1) (if s.head? = some '\uFEFF' then s.drop 1 else s)
  let d := gather [] ls
  if d.isConsistent ls then return d else none

end TokenLedger.Toml
