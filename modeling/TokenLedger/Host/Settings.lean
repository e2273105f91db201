import TokenLedger.Host.Path
import TokenLedger.Host.Toml
import TokenLedger.Record.Role

/-! The settings of a host. Each of them may be left out of the configuration document, but nothing
else may be in it. -/

namespace TokenLedger

structure Settings where
  stateFile : Option Path
  callerRole : Option Role
  knownActors : List String
  logFilter : Option String
  deriving DecidableEq

namespace Settings

open Toml

def default : Settings := ⟨none, none, [], none⟩

def defaultStateFile : Path := ⟨"coinbal.state.json"⟩

/-- The snapshot with the committed state. -/
def statePath (s : Settings) : Path := s.stateFile.getD defaultStateFile

/-- The value of a name, which is given at most once and as a whole. -/
def value? (d : Document) (n : String) : Option (Option Value) :=
  if d.headings.any (·.head? == some n) then none
  else match d.pairs.filter (·.1.head? == some n) with
    | [] => some none
    | [([_], v)] => some (some v)
    | _ => none

def text? (d : Document) (n : String) : Option (Option String) := do
  match ← value? d n with
  | none => return none
  | some (.text s) => return some s
  | some _ => none

def texts? (d : Document) (n : String) : Option (List String) := do
  match ← value? d n with
  | none => return []
  | some (.list vs) => vs.mapM fun
    | .text s => some s
    | _ => none
  | some _ => none

/-- The only name in a table that holds nothing under it. -/
def onlyName? (names : List Way) (members : List (Way × Value)) : Option String :=
  match (names ++ members.map (·.1)).eraseDups with
  | [[n]] => if members.all (·.2.isHollow) then some n else none
  | _ => none

/-- A role, by its name or by a table that holds this name and nothing under it. -/
def role? (d : Document) (n : String) : Option (Option Role) := do
  let below (w : Way) : Option Way := if w.head? = some n then some (w.drop 1) else none
  let headings := d.headings.filterMap below
  let members : List (Way × Value) := d.pairs.filterMap fun (w, v) => (below w).map (·, v)
  match headings, members with
  | [], [] => return none
  | [], [([], .text s)] => return some (← Role.ofName? s)
  | [], [([], .table ms)] => return some (← Role.ofName? (← onlyName? [] ms))
  | hs, ms => return some (← Role.ofName? (← onlyName? (hs.filter (· ≠ [])) ms))

def names : List String := ["state_file", "caller_role", "known_actors", "log_filter"]

/-- Nothing is set but the known names. -/
def isKnown (d : Document) : Bool :=
  (d.headings ++ d.pairs.map (·.1)).all fun w => (w.head?.map names.contains).getD false

def ofText? (s : String) : Option Settings := do
  let d ← Document.ofText? s
  if !isKnown d then none
  return ⟨(← text? d "state_file").map Path.mk, ← role? d "caller_role", ← texts? d "known_actors",
    ← text? d "log_filter"⟩

end Settings
end TokenLedger
