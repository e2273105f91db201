import TokenLedger.Failure
import TokenLedger.Store.Table
import TokenLedger.Store.Selector

/-! Transactions. A transaction holds back what it writes and keeps the version of each committed entry
that it was the first to read; it can be committed as long as none of these entries has changed.
Reading shows the committed state under the pending writes. -/

namespace TokenLedger

structure Transaction where
  reads : Table UInt64
  writes : Table (Option Bytes)
  deriving DecidableEq

namespace Transaction

def empty : Transaction := ⟨∅, ∅⟩

instance : Inhabited Transaction := ⟨empty⟩

def put (t : Transaction) (k : Key) (v : Option Bytes) : Transaction :=
  { t with writes := t.writes.insert k.encode v }

def stale? (s : Store) (t : Transaction) : Option String :=
  (t.reads.toList.find? fun (k, v) => s.version k != v).map (·.1)

/-- The store after the commit. Without writes it is the same. -/
def commit (s : Store) (t : Transaction) : Except Failure Store :=
  match t.stale? s with
  | some k => .error (.conflict k)
  | none =>
    if t.writes.isEmpty then .ok s
    else
      let height := s.height + 1
      .ok ⟨height, s.entries ∪ t.writes.map fun _ v => ⟨height, v⟩⟩

/-- The live values that an invocation sees: committed entries under its pending writes. -/
def view (s : Store) (t : Transaction) : Table Bytes :=
  (s.entries.map (fun _ e => e.value) ∪ t.writes).filterMap fun _ w => w

def note (t : Transaction) (versions : Table UInt64) : Transaction :=
  { t with reads := versions ∪ t.reads }

end Transaction

/-- A question to the state: what it looks at, and how it goes on with what it is shown. It can fail,
and it writes nothing. -/
inductive Query (α : Type) where
  | answer (a : α)
  | fail (f : Failure)
  /-- Looks at the live value under one text. -/
  | look (k : String) (next : Option Bytes → Query α)
  /-- Looks at all live values whose texts have a beginning, in the order of the texts. -/
  | range (p : String) (next : List (String × Bytes) → Query α)

namespace Query

variable {α β : Type}

def bind : Query α → (α → Query β) → Query β
  | .answer a, q => q a
  | .fail f, _ => .fail f
  | .look k next, q => .look k fun v => (next v).bind q
  | .range p next, q => .range p fun hits => (next hits).bind q

def rescue : Query α → (Failure → Query α) → Query α
  | .answer a, _ => .answer a
  | .fail f, q => q f
  | .look k next, q => .look k fun v => (next v).rescue q
  | .range p next, q => .range p fun hits => (next hits).rescue q

instance : Monad Query where
  pure := .answer
  bind := .bind

instance : MonadExceptOf Failure Query where
  throw := .fail
  tryCatch := .rescue

instance : MonadLift (Except Failure) Query where
  monadLift
    | .ok a => .answer a
    | .error f => .fail f

/-- Asks within a transaction. The versions of the entries that are looked at are kept, even by a
question that fails; a pending write answers without a look at the store. -/
def run : Query α → Store → Transaction → Except Failure α × Transaction
  | .answer a, _, t => (.ok a, t)
  | .fail f, _, t => (.error f, t)
  | .look k next, s, t =>
    match t.writes[k]? with
    | some w => (next w).run s t
    | none => (next (s.value? k)).run s (t.note ((∅ : Table UInt64).insert k (s.version k)))
  | .range p next, s, t =>
    (next (Store.under p (t.view s)).toList).run s
      (t.note ((Store.under p s.entries).map fun _ e => e.version))

/-- The live value of a key. -/
def get (k : Key) : Query (Option Bytes) := .look k.encode .answer

/-- The live records whose keys extend the given components, in the order of the keys' texts. -/
def scan (ns : Namespace) (components : List String) : Query (List (Key × Bytes)) :=
  .range (Key.scanPrefix ⟨ns, components⟩) fun hits => hits.mapM fun (text, b) =>
    match Key.decode text with
    | .ok k => return (k, b)
    | .error e => throw (.badKey e)

/-- The live records of a namespace that a selector accepts. -/
def select (s : Selector) : Query (List (Key × Bytes)) := do
  return (← scan s.ns []).filter fun (_, b) => s.accepts b

end Query
end TokenLedger
