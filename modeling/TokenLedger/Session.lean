import TokenLedger.Ledger.Contract
import TokenLedger.Store.Snapshot

/-! Sessions: a store, and transactions that are open on it under names. Steps of different
transactions may follow each other in any order; a step outside of all of them runs in a transaction
of its own, which is committed unless the step fails. -/

namespace TokenLedger

structure Session where
  store : Store
  opened : Table Transaction

/-- A question or a change that a host puts to the ledger without an operation's name. -/
inductive Call where
  | balance (a : Account) (registered : Bool)
  | initialiseBalance (address symbol : String)
  | token (symbol : String)
  | wallet (address : String) (type : String)
  | transfer (t : Transfer)
  | saveBalance (b : Balance)
  | addressExists (address : String)

/-- What is done within a transaction. -/
inductive Deed where
  | invoke (role : Option Role) (operation : String) (args : List String)
  | call (c : Call)
  | get (k : Key)
  | put (k : Key) (v : Option Bytes)
  | scan (ns : Namespace) (components : List String)
  | select (s : Selector)

inductive Step where
  | begin (tx : String)
  | commit (tx : String)
  | drop (tx : String)
  /-- A deed in an open transaction, or in one of its own. -/
  | run (tx : Option String) (d : Deed)
  /-- The committed value of a key, outside of all transactions. -/
  | committed (k : Key)
  | save
  /-- Saves the store and goes on from the snapshot. -/
  | reload
  /-- Goes on from the snapshot at a path; from an empty store if there is no such file. -/
  | load (path : String) (snapshot : Option Bytes)

inductive Answer where
  | done
  | payload (b : Bytes)
  | document (b : Bytes)
  | exists (b : Bool)
  | value (v : Option Bytes)
  | hits (hs : List (Key × Bytes))
  | committed (height : UInt64)
  | snapshot (b : Bytes)
  deriving DecidableEq

namespace Call

open Json in
def action : Call → Action Answer
  | .balance a registered => do
    return .document (Balance.codec.write (← Query.balance a registered))
  | .initialiseBalance address symbol => do
    return .document (Balance.codec.write (← TokenLedger.initialiseBalance address symbol))
  | .token symbol => do
    return .document ((Codec.optional Token.codec).write (← Query.token? symbol))
  | .wallet address type => do
    let bs ← Query.wallet address (← liftM (TokenType.parse type))
    let pair := fun (s, b) =>
      Octet.listOpen :: Codec.separated [writeText s, Balance.codec.write b] ++ [Octet.listClose]
    return .document (Octet.listOpen :: Codec.separated (bs.map pair) ++ [Octet.listClose])
  | .transfer t => do return .document (← TokenLedger.transfer t).write
  | .saveBalance b => do
    .save (.balance b)
    return .done
  | .addressExists address => do return .exists (← Query.addressExists address)

end Call

def Deed.perform (c : Contract) (s : Store) (t : Transaction) :
    Deed → Except Failure Answer × Transaction
  | .invoke role operation args =>
    let (r, t) := c.invoke s t role operation args
    (r.map .payload, t)
  | .call d => d.action.perform s t
  | .get k =>
    let (r, t) := (Query.get k).run s t
    (r.map .value, t)
  | .put k v => (.ok .done, t.put k v)
  | .scan ns components =>
    let (r, t) := (Query.scan ns components).run s t
    (r.map .hits, t)
  | .select sel =>
    let (r, t) := (Query.select sel).run s t
    (r.map .hits, t)

namespace Session

def empty : Session := ⟨.empty, ∅⟩

/-- The transaction open under a name. -/
def transaction (x : Session) (tx : String) : Transaction := x.opened[tx]?.getD .empty

def within (c : Contract) (x : Session) (tx : String) (d : Deed) :
    Except Failure Answer × Session :=
  let (r, t) := d.perform c x.store (x.transaction tx)
  (r, { x with opened := x.opened.insert tx t })

def alone (c : Contract) (x : Session) (d : Deed) : Except Failure Answer × Session :=
  match d.perform c x.store .empty with
  | (.ok a, t) => match t.commit x.store with
    | .ok s => (.ok a, { x with store := s })
    | .error f => (.error f, x)
  | (.error f, _) => (.error f, x)

/-- Goes on from a snapshot, with no transaction open. -/
def load (x : Session) (path : String) (snapshot : Bytes) : Except Failure Answer × Session :=
  match Snapshot.load snapshot with
  | .ok s => (.ok .done, ⟨s, ∅⟩)
  | .error e => (.error (.unreadableSnapshot path e), x)

/-- Carries out a step. A commit closes its transaction whether it succeeds or not. -/
def step (c : Contract) (x : Session) : Step → Except Failure Answer × Session
  | .begin tx => (.ok .done, { x with opened := x.opened.insert tx .empty })
  | .commit tx =>
    let y := { x with opened := x.opened.erase tx }
    match (x.transaction tx).commit x.store with
    | .ok s => (.ok (.committed s.height), { y with store := s })
    | .error f => (.error f, y)
  | .drop tx => (.ok .done, { x with opened := x.opened.erase tx })
  | .run (some tx) d => x.within c tx d
  | .run none d => x.alone c d
  | .committed k => (.ok (.value (x.store.value? k.encode)), x)
  | .save => (.ok (.snapshot (Snapshot.save x.store)), x)
  | .reload => x.load "state.json" (Snapshot.save x.store)
  | .load path (some b) => x.load path b
  | .load _ none => (.ok .done, empty)

/-- The answers to a list of steps, and the session after them. -/
def run (c : Contract) (x : Session) : List Step → List (Except Failure Answer) × Session
  | [] => ([], x)
  | a :: as =>
    let (r, y) := x.step c a
    let (rs, z) := run c y as
    (r :: rs, z)

end Session
end TokenLedger
