import TokenLedger.Host.Path
import TokenLedger.Record.Role

/-! The arguments of the command. Options with a value may stand before the task and behind its name.
Behind an operation, words with dashes that are no options are words like others, and once it has its
first argument, everything that follows is an argument of the operation. -/

namespace TokenLedger

/-- The options that every task takes. -/
structure Options where
  config : Option Path
  state : Option Path
  role : Option Role
  deriving DecidableEq

inductive Task where
  | invoke (operation : String) (args : List String)
  | keygen (directory : Path)
  | sign (secret transfer : String)
  deriving DecidableEq

inductive Request where
  | version
  | help
  | run (o : Options) (t : Task)
  deriving DecidableEq

namespace Arguments

inductive Word where
  /-- Two dashes alone: no options follow. -/
  | separator
  | long (name : String) (value : Option String)
  | short (letters : List Char)
  | plain (s : String)

def splitValue : List Char → List Char × Option (List Char)
  | [] => ([], none)
  | '=' :: s => ([], some s)
  | c :: s => let (n, v) := splitValue s; (c :: n, v)

def Word.of (s : String) : Word :=
  match s.toList with
  | ['-', '-'] => .separator
  | '-' :: '-' :: t => let (n, v) := splitValue t; .long (String.ofList n) (v.map String.ofList)
  | '-' :: c :: t => .short (c :: t)
  | _ => .plain s

def Word.isPlain (w : Word) : Bool := w matches .plain _

/-- A word that asks for help. Of letters behind one dash the first one counts. -/
def Word.isHelp (w : Word) : Bool :=
  match w with
  | .long "help" none => true
  | .short ('h' :: _) => true
  | _ => false

/-- A word that stands for itself although it may begin with dashes: neither two dashes alone, nor an
option that is known, nor help in any form. -/
def Word.isFree (known : List String) (w : Word) : Bool :=
  match w with
  | .separator => false
  | .long n _ => n != "help" && !known.contains n
  | .short ls => !ls.all (· == 'h')
  | .plain _ => true

/-- The options of one level of the command line, with their values. -/
abbrev Given := List (String × String)

inductive Front where
  | option (name value : String) (rest : List String)
  | other
  | broken

/-- Takes an option that is known by its name, with its value: what stands behind its equals sign, or
the next word, if that `isWord`. -/
def front (known : List String) (isWord : Word → Bool) : List String → Front
  | [] => .other
  | t :: ts =>
    match Word.of t with
    | .long n v =>
      if !known.contains n then .other
      else match v, ts with
        | some v, ts => .option n v ts
        | none, v :: ts => if isWord (.of v) then .option n v ts else .broken
        | none, [] => .broken
    | _ => .other

def isValue (name value : String) : Bool :=
  if name = "role" then (Role.ofName? value).isSome
  else name = "sk-hex" || !value.isEmpty

/-- The options at the front, each at most once, and what follows them. -/
def options (known : List String) (isWord : Word → Bool) :
    (fuel : Nat) → Given → List String → Option (Given × List String)
  | 0, _, _ => none
  | fuel + 1, given, ts =>
    match front known isWord ts with
    | .option n v rest =>
      if (given.lookup n).isSome || !isValue n v then none
      else options known isWord fuel ((n, v) :: given) rest
    | .other => some (given, ts)
    | .broken => none

def common : List String := ["config", "state", "role"]

def chosen (outer inner : Given) : Options :=
  let value (n : String) : Option String := (inner.lookup n).or (outer.lookup n)
  ⟨(value "config").map Path.mk, (value "state").map Path.mk, (value "role").bind Role.ofName?⟩

/-- The arguments behind `invoke`. -/
def invoke (outer : Given) (ts : List String) : Option Request := do
  let (given, ts) ← options common Word.isPlain (ts.length + 1) [] ts
  let (operation, ts) ← match ts with
    | [] => none
    | t :: ts => match Word.of t with
      | .plain s => some (s, ts)
      | .separator => match ts with
        | s :: ts => return .run (chosen outer given) (.invoke s ts)
        | [] => none
      | w => if w.isHelp then return .help else none
  let (given, ts) ← options common (Word.isFree common) (ts.length + 1) given ts
  let task (args : List String) : Request := .run (chosen outer given) (.invoke operation args)
  match ts with
  | [] => return task []
  | t :: ts =>
    match Word.of t with
    | .separator => return task ts
    | w =>
      if w.isFree common then return task (t :: ts)
      else if w.isHelp then return .help
      else none

def keygen (outer : Given) (ts : List String) : Option Request := do
  let (given, ts) ← options ("out-dir" :: common) Word.isPlain (ts.length + 1) [] ts
  match ts with
  | [] | ["--"] => return .run (chosen outer given) (.keygen ⟨← given.lookup "out-dir"⟩)
  | t :: _ => if (Word.of t).isHelp then return .help else none

/-- The arguments behind `sign`. -/
def sign (outer : Given) (ts : List String) : Option Request := do
  let known := "sk-hex" :: common
  let (given, ts) ← options known Word.isPlain (ts.length + 1) [] ts
  let (transfer, ts) ← match ts with
    | ["--", s] => some (s, [])
    | [] => none
    | t :: ts => match Word.of t with
      | .plain s => some (s, ts)
      | w => if w.isHelp then return .help else none
  let (given, ts) ← options known Word.isPlain (ts.length + 1) given ts
  match ts with
  | [] | ["--"] => return .run (chosen outer given) (.sign (← given.lookup "sk-hex") transfer)
  | t :: _ => if (Word.of t).isHelp then return .help else none

def tasks : List String := ["invoke", "keygen", "sign", "help"]

/-- What the arguments ask for; nothing where they cannot be understood. -/
def parse (ts : List String) : Option Request := do
  let (given, ts) ← options common Word.isPlain (ts.length + 1) [] ts
  match ts with
  | "invoke" :: ts => invoke given ts
  | "keygen" :: ts => keygen given ts
  | "sign" :: ts => sign given ts
  | ["help"] => return .help
  | ["help", t] => if tasks.contains t then return .help else none
  | t :: _ =>
    match Word.of t with
    | .long "version" none => return .version
    | .short ('V' :: _) => return .version
    | w => if w.isHelp then return .help else none
  | [] => none

end Arguments
end TokenLedger
