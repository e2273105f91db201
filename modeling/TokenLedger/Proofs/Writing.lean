import TokenLedger.Proofs.Plan

/-! The operations ask and refuse before they write. Each of them is planned as questions that end in an answer and
the changes, and none looks at the state or fails behind its first write. -/

namespace TokenLedger

open TokenLedger.Action

def Touched.changes (m : Touched) : List Change := m.toList.map fun (_, b) => .balance b

/-- The answer and the changes for a new balance and a new supply. -/
def supplyEffect (r : Transfer) (t : Token) (b : Balance) : Effect Envelope :=
  ⟨((Envelope.empty.withBalance b).withToken t).withTransfer r, [.balance b, .token t]⟩

theorem Touched.flush_eq (m : Touched) : m.flush = m.changes.forM save := by
  rw [flush, changes]
  induction m.toList with
  | nil => rfl
  | cons p ps ih => exact congrArg (save (.balance p.2) >>= fun _ => ·) ih

@[simp] theorem Touched.plan_flush_bind {α : Type} (m : Touched) (f : Unit → Action α) :
    (m.flush >>= f).plan = Effect.after m.changes <$> (f ()).plan := by
  rw [plan_bind, flush_eq, plan_saves, pure_bind]

theorem Touched.settled_flush (m : Touched) : m.flush.Settled := by
  rw [flush_eq]
  exact Settled.forM settled_save

@[simp] theorem plan_saveSupply (r : Transfer) (t : Token) (b : Balance) :
    (saveSupply r t b).plan = pure (supplyEffect r t b) := by
  simp only [saveSupply, plan_save_bind]
  rfl

theorem settled_saveSupply (r : Transfer) (t : Token) (b : Balance) : (saveSupply r t b).Settled :=
  (settled_save _).bind fun _ => settled_saved ..

section Plans

theorem plan_registerToken (t : Token) (holder : String) : (registerToken t holder).plan = (do
    if (← Query.token? t.symbol).isSome then throw (.tokenListed t.symbol)
    let held := (← Query.balancesOfToken t.symbol).filter (!·.amount.isZero)
    unless held.isEmpty do throw (.tokenHeld t.symbol held.length)
    liftM t.requireIntegralSupply
    let b := { Balance.zero ⟨holder, t.symbol⟩ with amount := t.supply }
    return ⟨(Envelope.empty.withToken t).withBalance b, [.token t, .balance b]⟩) := by
  simp only [registerToken, plan_liftM_bind, plan_ite, plan_throw_bind, plan_except_bind, plan_save_bind]
  rfl

theorem plan_removeToken (symbol : String) : (removeToken symbol).plan = (do
    let t ← Query.token symbol
    return ⟨(), [.unlist t.symbol]⟩) := by
  simp only [removeToken, plan_liftM_bind, plan_save]

theorem plan_updateToken (t : Token) : (updateToken t).plan = (do
    let current ← Query.token t.symbol
    let t := { t with supply := current.supply }
    liftM t.requireIntegralSupply
    if t.type.isIntegral && !current.type.isIntegral then Query.requireIntegralHoldings t
    return ⟨Envelope.empty.withToken t, [.token t]⟩) := by
  simp only [updateToken, plan_liftM_bind, plan_ite, plan_except_bind, plan_save_bind, plan_pure, map_pure,
    Effect.after, Effect.unchanged, List.append_nil]

theorem plan_transfer (t : Transfer) : (transfer t).plan = (do
    if t.sender = t.receiver then throw .selfTransfer
    if t.amount.isZero then throw (.nothingMoved .transfer)
    let m ← Touched.transfer ∅ t
    let e := Envelope.empty.withTransfer { t with kind := Transfer.recordedKind }
    return ⟨{ e with balances := some m }, m.changes⟩) := by
  simp only [transfer, plan_liftM_bind, plan_ite, plan_throw_bind, Touched.plan_flush_bind, plan_pure, map_pure,
    Effect.after, Effect.unchanged, List.append_nil]

theorem plan_multitransfer (ts : List Transfer) : (multitransfer ts).plan = (do
    let m ← Touched.transferAll ∅ ts
    let e := (ts.filter (·.isEffective)).foldl Envelope.withTransfer .empty
    return ⟨{ e with balances := some m }, m.changes⟩) := by
  simp only [multitransfer, plan_liftM_bind, Touched.plan_flush_bind, plan_pure, map_pure, Effect.after,
    Effect.unchanged, List.append_nil]

theorem plan_mint (r : Transfer) : (mint r).plan = (do
    let t ← Query.suppliedToken .mint r
    let b ← Query.balance ⟨r.receiver, t.symbol⟩ true
    let held ← liftM (b.amount.add r.amount)
    let supply ← liftM (t.supply.add r.amount)
    return supplyEffect r { t with supply } { b with amount := held }) := by
  simp only [mint, plan_liftM_bind, plan_except_bind, plan_saveSupply]

theorem plan_burn (r : Transfer) : (burn r).plan = (do
    let t ← Query.suppliedToken .burn r
    let b ← Query.balance ⟨r.sender, t.symbol⟩ true
    let held ← liftM (b.amount.sub r.amount)
    let supply ← liftM (t.supply.sub r.amount)
    return supplyEffect r { t with supply } { b with amount := held }) := by
  simp only [burn, plan_liftM_bind, plan_except_bind, plan_saveSupply]

theorem plan_registerAddress (address : String) : (registerAddress address).plan = (do
    if ← Query.addressExists address then throw (.addressKnown address)
    return ⟨(), [.wallet address]⟩) := by
  simp only [registerAddress, plan_liftM_bind, plan_ite, plan_throw_bind, plan_save]

theorem plan_initialiseBalance (address symbol : String) : (initialiseBalance address symbol).plan = (do
    let b ← Query.balanceOf address symbol
    return ⟨b, [.balance b]⟩) := by
  simp only [initialiseBalance, plan_liftM_bind, plan_save_bind]
  rfl

theorem plan_initialiseScores (actor : String) (s : Scores) : (initialiseScores actor s).plan = (do
    liftM s.validate
    return ⟨(), [.scores actor s]⟩) := by
  simp only [initialiseScores, plan_except_bind, plan_save]

theorem plan_updateScores (register : ActorRegister) (actor : String) (s : Scores) :
    (updateScores register actor s).plan = (do
      unless ← liftM (register actor) do throw (.actorUnknown actor)
      liftM s.validate
      return ⟨(), [.scores actor s]⟩) := by
  simp only [updateScores, plan_except_bind, plan_ite, plan_throw_bind, plan_initialiseScores]

end Plans

section WritesLast

theorem writesLast_registerToken (t : Token) (holder : String) : (registerToken t holder).WritesLast := by
  rw [registerToken]
  refine writesLast_liftM_bind _ fun listed => ?_
  split
  · exact writesLast_throw_bind ..
  · refine writesLast_liftM_bind _ fun held => ?_
    dsimp only
    split
    · refine writesLast_except_bind _ fun _ => Settled.writesLast ?_
      exact (settled_save _).bind fun _ => settled_saved ..
    · exact writesLast_throw_bind ..

theorem writesLast_removeToken (symbol : String) : (removeToken symbol).WritesLast :=
  writesLast_liftM_bind _ fun _ => (settled_save _).writesLast

/-- The balances are gone through before the description is written. -/
theorem writesLast_updateToken (t : Token) : (updateToken t).WritesLast := by
  rw [updateToken]
  refine writesLast_liftM_bind _ fun current => ?_
  dsimp only
  refine writesLast_except_bind _ fun _ => ?_
  split
  · exact writesLast_liftM_bind _ fun _ => (settled_saved ..).writesLast
  · exact (settled_saved ..).writesLast

/-- All balances of a request are written when all of its transfers have succeeded. -/
theorem writesLast_flush (q : Query Touched) (f : Touched → Envelope) :
    (do let m ← q; m.flush; return f m : Action Envelope).WritesLast :=
  writesLast_liftM_bind _ fun m => (m.settled_flush.bind fun _ => settled_pure _).writesLast

theorem writesLast_transfer (t : Transfer) : (transfer t).WritesLast := by
  rw [transfer]
  split
  · exact writesLast_throw_bind ..
  · dsimp only
    split
    · exact writesLast_throw_bind ..
    · exact writesLast_flush ..

theorem writesLast_multitransfer (ts : List Transfer) : (multitransfer ts).WritesLast := writesLast_flush ..

/-- Both sums are checked before either is written. -/
theorem writesLast_supply (k : Movement) (r : Transfer) (address : String) (change : Amount → Except Failure Amount) :
    (do
      let t ← Query.suppliedToken k r
      let b ← Query.balance ⟨address, t.symbol⟩ true
      let held ← liftM (change b.amount)
      let supply ← liftM (change t.supply)
      saveSupply r { t with supply } { b with amount := held } : Action Envelope).WritesLast :=
  writesLast_liftM_bind _ fun _ => writesLast_liftM_bind _ fun _ => writesLast_except_bind _ fun _ =>
    writesLast_except_bind _ fun _ => (settled_saveSupply ..).writesLast

theorem writesLast_mint (r : Transfer) : (mint r).WritesLast := writesLast_supply .mint r r.receiver (·.add r.amount)

theorem writesLast_burn (r : Transfer) : (burn r).WritesLast := writesLast_supply .burn r r.sender (·.sub r.amount)

theorem writesLast_registerAddress (address : String) : (registerAddress address).WritesLast := by
  rw [registerAddress]
  refine writesLast_liftM_bind _ fun known => ?_
  split
  · exact writesLast_throw_bind ..
  · exact (settled_save _).writesLast

theorem writesLast_initialiseBalance (address symbol : String) : (initialiseBalance address symbol).WritesLast :=
  writesLast_liftM_bind _ fun _ => (settled_saved ..).writesLast

theorem writesLast_initialiseScores (actor : String) (s : Scores) : (initialiseScores actor s).WritesLast :=
  writesLast_except_bind _ fun _ => (settled_save _).writesLast

theorem writesLast_updateScores (register : ActorRegister) (actor : String) (s : Scores) :
    (updateScores register actor s).WritesLast := by
  rw [updateScores]
  refine writesLast_except_bind _ fun known => ?_
  split
  · exact writesLast_initialiseScores actor s
  · exact writesLast_throw_bind ..

end WritesLast

/-- The document of an answer is written whatever the answer is. -/
theorem Query.encode_bind {α β : Type} (q : Query β) (c : Json.Codec α) [c.Total] (f : β → α) :
    (q >>= fun b => liftM (payload (c.encode (f b)))) = (fun b => c.write (f b)) <$> q := by
  simp only [payload_encode]
  exact (map_eq_pure_bind ..).symm

variable (c : Contract)

theorem Order.writesLast (o : Order) : (o.carryOut c).WritesLast := by
  cases o with
  | registerToken t holder => exact writesLast_registerToken t holder
  | updateToken t => exact writesLast_updateToken t
  | transfer t digest signature => exact writesLast_except_bind _ fun _ => writesLast_transfer t
  | multitransfer ts => exact writesLast_multitransfer ts
  | mint r => exact writesLast_mint r
  | burn r => exact writesLast_burn r

theorem Filing.writesLast (f : Filing) : (f.carryOut c).WritesLast := by
  cases f with
  | removeToken symbol => exact writesLast_removeToken symbol
  | registerAddress address => exact writesLast_registerAddress address
  | initialiseBalance address symbol => exact (writesLast_initialiseBalance address symbol).bind fun _ => settled_pure _
  | initialiseScores actor s => exact writesLast_initialiseScores actor s
  | updateScores actor s => exact writesLast_updateScores c.isActor actor s

theorem plan_file_initialiseBalance (address symbol : String) :
    ((Filing.initialiseBalance address symbol).carryOut c).plan =
      Effect.map (fun _ => ()) <$> (initialiseBalance address symbol).plan := plan_map (fun _ => ()) _

namespace Instruction

@[simp] theorem plan_ask (q : Question) : ((ask q).carryOut c).plan = Effect.unchanged <$> q.answer := plan_liftM q.answer

/-- The envelope is encoded behind the writes, and never refused. -/
theorem carryOut_order (o : Order) : (order o).carryOut c = Envelope.write <$> o.carryOut c := by
  change (do let e ← o.carryOut c; liftM (payload e.encode)) = _
  simp only [payload_envelope]
  rfl

@[simp] theorem plan_order (o : Order) :
    ((order o).carryOut c).plan = Effect.map Envelope.write <$> (o.carryOut c).plan := by
  rw [carryOut_order, plan_map]

@[simp] theorem plan_file (f : Filing) :
    ((file f).carryOut c).plan = Effect.map (fun _ => []) <$> (f.carryOut c).plan := plan_map (fun _ => []) _

theorem writesLast (i : Instruction) : (i.carryOut c).WritesLast := by
  cases i with
  | ask q => exact writesLast_liftM q.answer
  | order o => exact carryOut_order c o ▸ (o.writesLast c).bind fun _ => settled_pure _
  | file f => exact (f.writesLast c).bind fun _ => settled_pure _

end Instruction

namespace Contract

theorem writesLast_operate (op : Operation) (args : List String) : (c.operate op args).WritesLast :=
  writesLast_except_bind _ fun i => i.writesLast c

theorem writesLast_request (role : Option Role) (name : String) (args : List String) :
    (c.request role name args).WritesLast :=
  writesLast_except_bind _ fun op => writesLast_except_bind _ fun _ => c.writesLast_operate op args

/-- An invocation does what its request plans. -/
theorem invoke_eq (s : Store) (t : Transaction) (role : Option Role) (name : String) (args : List String) :
    c.invoke s t role name args = (c.request role name args).plan.perform s t :=
  (c.writesLast_request role name args).perform_eq s t

end Contract
end TokenLedger
