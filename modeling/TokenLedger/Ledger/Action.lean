import TokenLedger.Ledger.Change

/-! What operations do. An operation asks the state and writes to it in the order of its steps, and any step can
fail. What was written before a failure stays pending. -/

namespace TokenLedger

inductive Action (α : Type) where
  | answer (a : α)
  | fail (f : Failure)
  | look (k : String) (next : Option Bytes → Action α)
  | range (p : String) (next : List (String × Bytes) → Action α)
  /-- Puts a change into the transaction. -/
  | write (c : Change) (next : Action α)

namespace Action

variable {α β : Type}

def ofQuery : Query α → Action α
  | .answer a => .answer a
  | .fail f => .fail f
  | .look k next => .look k fun v => ofQuery (next v)
  | .range p next => .range p fun hits => ofQuery (next hits)

def bind : Action α → (α → Action β) → Action β
  | .answer a, q => q a
  | .fail f, _ => .fail f
  | .look k next, q => .look k fun v => (next v).bind q
  | .range p next, q => .range p fun hits => (next hits).bind q
  | .write c next, q => .write c (next.bind q)

def rescue : Action α → (Failure → Action α) → Action α
  | .answer a, _ => .answer a
  | .fail f, q => q f
  | .look k next, q => .look k fun v => (next v).rescue q
  | .range p next, q => .range p fun hits => (next hits).rescue q
  | .write c next, q => .write c (next.rescue q)

instance : Monad Action where
  pure := .answer
  bind := .bind

instance : MonadExceptOf Failure Action where
  throw := .fail
  tryCatch := .rescue

instance : MonadLift Query Action where
  monadLift := ofQuery

/-- Carries out an action within a transaction, step by step. -/
def perform : Action α → Store → Transaction → Except Failure α × Transaction
  | .answer a, _, t => (.ok a, t)
  | .fail f, _, t => (.error f, t)
  | .look k next, s, t =>
    match t.writes[k]? with
    | some w => (next w).perform s t
    | none => (next (s.value? k)).perform s (t.note ((∅ : Table UInt64).insert k (s.version k)))
  | .range p next, s, t =>
    (next (Store.under p (t.view s)).toList).perform s
      (t.note ((Store.under p s.entries).map fun _ e => e.version))
  | .write c next, s, t => next.perform s (t.apply c)

/-- Encodes a record and writes it. -/
@[irreducible] def save (c : Change) : Action Unit :=
  match c.check with
  | .ok _ => .write c (.answer ())
  | .error e => .fail (.undecodable c.key.encode e)

end Action
end TokenLedger
