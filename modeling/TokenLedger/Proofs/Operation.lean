import TokenLedger.Proofs.Holding
import TokenLedger.Proofs.Instruction
import TokenLedger.Proofs.Payment

/-! What an operation of the contract does when it succeeds: it changes nothing, or it makes one of a few
kinds of changes. All that is said of operations in general is read off this list. -/

namespace TokenLedger

namespace Live

open Query

inductive Carried (c : Contract) (l : Table Bytes) : Operation → List String → List Change → Prop
  | nothing {op : Operation} {args : List String} {q : Question} (asks : Question.Spelled op args q) :
    Carried c l op args []
  | register {text holder : String} {t : Token} (read : Argument.token.read Token.codec text = .ok t)
      (unlisted : token? l t.symbol = none) (unheld : ∀ a : Account, a.token = t.symbol → held l a = 0)
      (admitted : t.type.admits t.supply) :
      Carried c l .registerToken [text, holder]
        [.token t, .balance { Balance.zero ⟨holder, t.symbol⟩ with amount := t.supply }]
  | remove {symbol : String} {t : Token} (listed : token? l symbol = some t) :
      Carried c l .removeToken [symbol] [.unlist symbol]
  | update {text : String} {t current : Token} (read : Argument.token.read Token.codec text = .ok t)
      (listed : token? l t.symbol = some current) (admitted : t.type.admits current.supply)
      (held : current.type.isIntegral = false →
        ∀ a : Account, a.token = t.symbol → t.type.admits (balance l a).amount) :
      Carried c l .updateTokenInfo [text] [.token { t with supply := current.supply }]
  | wallet (address : String) : Carried c l .registerAddress [address] [.wallet address]
  | initialise (address symbol : String) :
      Carried c l .initialiseBalance [address, symbol] [.balance (balance l ⟨address, symbol⟩)]
  | transfer {request digest signature : String} {t : Transfer} {s r : Balance}
      (read : Argument.transfer.read Transfer.codec request = .ok t)
      (signed : authorise c.verify t digest signature = .ok ()) (effective : t.isEffective)
      (moved : move l t = .ok (s, r)) :
      Carried c l .transfer [request, digest, signature] (((∅ : Touched).put s).put r).changes
  | multitransfer {requests : List String} {ts : List Transfer} {m : Touched}
      (read : requests.mapM (Argument.transfer.read Transfer.codec) = .ok ts)
      (moved : (Touched.transferAll ∅ ts).eval l = .ok m) :
      Carried c l .multitransfer requests m.changes
  | mint {request : String} {r : Transfer} {t : Token} {held supply : Amount}
      (read : Argument.mintRequest.read Transfer.codec request = .ok r)
      (listed : token? l r.token = some t)
      (added : held.units = Live.held l ⟨r.receiver, r.token⟩ + r.amount.units)
      (issued : supply.units = t.supply.units + r.amount.units) (admitted : t.type.admits r.amount) :
      Carried c l .mint [request] [.balance { balance l ⟨r.receiver, r.token⟩ with amount := held },
        .token { t with supply }]
  | burn {request : String} {r : Transfer} {t : Token} {held supply : Amount}
      (read : Argument.burnRequest.read Transfer.codec request = .ok r)
      (listed : token? l r.token = some t)
      (taken : held.units + r.amount.units = Live.held l ⟨r.sender, r.token⟩)
      (destroyed : supply.units + r.amount.units = t.supply.units) (admitted : t.type.admits r.amount) :
      Carried c l .burn [request] [.balance { balance l ⟨r.sender, r.token⟩ with amount := held },
        .token { t with supply }]
  | firstScores (actor text : String) (s : Scores) :
      Carried c l .initialiseFinancialScores [actor, text] [.scores actor s]
  | newScores (actor text : String) (s : Scores) :
      Carried c l .updateFinancialScores [actor, text] [.scores actor s]

section Carried

variable {l : Table Bytes} (h : Coherent l)

include h

theorem Coherent.eval_token_eq_ok {symbol : String} {t : Token} (ht : (Query.token symbol).eval l = .ok t) :
    token? l symbol = some t := by
  rw [h.eval_token] at ht
  cases hu : token? l symbol with
  | none => simp [hu] at ht
  | some u => simpa [hu] using ht

omit h in
theorem requireIntegralSupply_eq_ok {t : Token} {u : Unit} (hu : t.requireIntegralSupply = .ok u) :
    t.type.admits t.supply := by
  rw [Token.requireIntegralSupply] at hu
  cases ha : t.type.admits t.supply with
  | true => rfl
  | false => simp [ha] at hu

theorem Coherent.registerToken_eq_ok {t : Token} {holder : String} {e : Effect Envelope}
    (he : (registerToken t holder).plan.eval l = .ok e) : token? l t.symbol = none ∧
      (∀ a : Account, a.token = t.symbol → held l a = 0) ∧ t.type.admits t.supply ∧
      e.changes = [.token t, .balance { Balance.zero ⟨holder, t.symbol⟩ with amount := t.supply }] := by
  rw [h.eval_registerToken] at he
  split_ifs at he with h₁ h₂
  refine ⟨by simpa using h₁, ?_, ?_⟩
  · intro a ha
    refine h.held_of_nonzero_nil ?_
    rw [ha]
    exact not_not.mp h₂
  · cases hi : t.requireIntegralSupply with
    | error f => simp [hi, Except.map] at he
    | ok u =>
      rw [hi] at he
      cases he
      exact ⟨requireIntegralSupply_eq_ok hi, rfl⟩

theorem Coherent.updateToken_eq_ok {t : Token} {e : Effect Envelope}
    (he : (updateToken t).plan.eval l = .ok e) : ∃ current, token? l t.symbol = some current ∧
      t.type.admits current.supply ∧
      (current.type.isIntegral = false →
        ∀ a : Account, a.token = t.symbol → t.type.admits (balance l a).amount) ∧
      e.changes = [.token { t with supply := current.supply }] := by
  rw [h.eval_updateToken] at he
  cases hc : token? l t.symbol with
  | none => simp [hc] at he
  | some current =>
    simp only [hc, bind_eq_ok] at he
    obtain ⟨u, hu, he⟩ := he
    split at he
    · cases he
    · rename_i hnone
      cases he
      refine ⟨current, rfl, requireIntegralSupply_eq_ok hu, fun hcurrent a ha => ?_, rfl⟩
      cases htype : t.type.isIntegral with
      | false => simp [TokenType.admits, htype]
      | true =>
        simp only [htype, hcurrent, Bool.not_false, Bool.and_self, if_true] at hnone
        simp [TokenType.admits, h.isIntegral_of_fractional? (ha ▸ hnone)]

theorem Coherent.suppliedToken_eq_ok {k : Movement} {r : Transfer} {t : Token}
    (ht : (Query.suppliedToken k r).eval l = .ok t) : token? l r.token = some t ∧ t.type.admits r.amount := by
  rw [Query.suppliedToken] at ht
  cases hz : r.amount.isZero with
  | true => simp [hz, Except.bind] at ht
  | false =>
    simp only [hz, Bool.false_eq_true, if_false, eval_bind_eq_ok] at ht
    obtain ⟨u, hu, ht⟩ := ht
    have hu := h.eval_token_eq_ok hu
    cases ha : u.type.admits r.amount with
    | true =>
      simp only [ha, if_true, eval_pure] at ht
      cases ht
      exact ⟨hu, ha⟩
    | false => simp [ha, Except.map] at ht

theorem Coherent.mint_eq_ok {r : Transfer} {e : Effect Envelope} (he : (mint r).plan.eval l = .ok e) :
    ∃ t held supply, token? l r.token = some t ∧
      held.units = Live.held l ⟨r.receiver, r.token⟩ + r.amount.units ∧
      supply.units = t.supply.units + r.amount.units ∧ t.type.admits r.amount ∧
      e.changes = [.balance { balance l ⟨r.receiver, r.token⟩ with amount := held },
        .token { t with supply }] := by
  simp only [plan_mint, eval_bind_eq_ok, eval_liftM, eval_pure] at he
  obtain ⟨t, ht, b, hb, held, hheld, supply, hsupply, he⟩ := he
  cases he
  obtain ⟨ht, hadmitted⟩ := h.suppliedToken_eq_ok ht
  rw [h.token?_symbol ht] at hb
  obtain ⟨-, rfl⟩ := h.eval_balance_eq_ok hb
  exact ⟨t, held, supply, ht, Amount.add_eq_ok.mp hheld, Amount.add_eq_ok.mp hsupply, hadmitted, rfl⟩

theorem Coherent.burn_eq_ok {r : Transfer} {e : Effect Envelope} (he : (burn r).plan.eval l = .ok e) :
    ∃ t held supply, token? l r.token = some t ∧
      held.units + r.amount.units = Live.held l ⟨r.sender, r.token⟩ ∧
      supply.units + r.amount.units = t.supply.units ∧ t.type.admits r.amount ∧
      e.changes = [.balance { balance l ⟨r.sender, r.token⟩ with amount := held },
        .token { t with supply }] := by
  simp only [plan_burn, eval_bind_eq_ok, eval_liftM, eval_pure] at he
  obtain ⟨t, ht, b, hb, held, hheld, supply, hsupply, he⟩ := he
  cases he
  obtain ⟨ht, hadmitted⟩ := h.suppliedToken_eq_ok ht
  rw [h.token?_symbol ht] at hb
  obtain ⟨-, rfl⟩ := h.eval_balance_eq_ok hb
  exact ⟨t, held, supply, ht, Amount.sub_eq_ok.mp hheld, Amount.sub_eq_ok.mp hsupply, hadmitted, rfl⟩

theorem Coherent.transfer_eq_ok {t : Transfer} {e : Effect Envelope}
    (he : (TokenLedger.transfer t).plan.eval l = .ok e) : t.isEffective ∧ ∃ s r, move l t = .ok (s, r) ∧
      e.changes = (((∅ : Touched).put s).put r).changes := by
  rw [eval_transfer] at he
  split_ifs at he with hs hz
  rw [h.eval_touched_transfer fits_empty, overlay_empty, waive_empty] at he
  cases hmove : move l t with
  | error f => simp [hmove, Except.map] at he
  | ok p =>
    rw [hmove] at he
    cases he
    exact ⟨by simp [Transfer.isEffective, hs, hz], p.1, p.2, rfl, rfl⟩

end Carried

section Other

variable {l : Table Bytes}

theorem multitransfer_eq_ok {ts : List Transfer} {e : Effect Envelope}
    (he : (multitransfer ts).plan.eval l = .ok e) :
    ∃ m, (Touched.transferAll ∅ ts).eval l = .ok m ∧ e.changes = m.changes := by
  simp only [plan_multitransfer, eval_bind_eq_ok, eval_pure] at he
  obtain ⟨m, hm, he⟩ := he
  cases he
  exact ⟨m, hm, rfl⟩

theorem removeToken_changes (h : Coherent l) {symbol : String} {e : Effect Unit}
    (he : (removeToken symbol).plan.eval l = .ok e) :
    ∃ t, token? l symbol = some t ∧ e.changes = [.unlist symbol] := by
  simp only [plan_removeToken, eval_bind_eq_ok, eval_pure] at he
  obtain ⟨t, ht, he⟩ := he
  have ht := h.eval_token_eq_ok ht
  cases he
  exact ⟨t, ht, by rw [h.token?_symbol ht]⟩

theorem registerAddress_changes {address : String} {e : Effect Unit}
    (he : (registerAddress address).plan.eval l = .ok e) : e.changes = [.wallet address] := by
  rw [plan_registerAddress, eval_bind, eval_addressExists] at he
  cases hr : registered l address with
  | true => simp [hr, Except.bind, Except.map] at he
  | false =>
    simp only [hr, Except.bind, Bool.false_eq_true, if_false, eval_pure] at he
    cases he
    rfl

theorem initialiseBalance_changes (h : Coherent l) {address symbol : String} {e : Effect Balance}
    (he : (initialiseBalance address symbol).plan.eval l = .ok e) :
    e.changes = [.balance (balance l ⟨address, symbol⟩)] := by
  simp only [plan_initialiseBalance, Query.balanceOf, eval_bind_eq_ok, eval_pure] at he
  obtain ⟨b, hb, he⟩ := he
  obtain ⟨-, rfl⟩ := h.eval_balance_eq_ok hb
  cases he
  rfl

theorem initialiseScores_changes {actor : String} {s : Scores} {e : Effect Unit}
    (he : (initialiseScores actor s).plan.eval l = .ok e) : e.changes = [.scores actor s] := by
  simp only [plan_initialiseScores, eval_bind_eq_ok, eval_pure] at he
  obtain ⟨u, -, he⟩ := he
  cases he
  rfl

theorem updateScores_changes {register : ActorRegister} {actor : String} {s : Scores} {e : Effect Unit}
    (he : (updateScores register actor s).plan.eval l = .ok e) : e.changes = [.scores actor s] := by
  rw [plan_updateScores, eval_bind_eq_ok] at he
  obtain ⟨known, -, he⟩ := he
  cases known with
  | false => simp [Except.bind] at he
  | true =>
    simp only [if_true] at he
    exact initialiseScores_changes (plan_initialiseScores actor s ▸ he)

end Other

section Operate

variable {c : Contract} {l : Table Bytes} (h : Coherent l) {op : Operation} {args : List String}

include h

theorem Coherent.carried_order {o : Order} (ho : Order.Spelled op args o) {e : Effect Envelope}
    (he : (o.carryOut c).plan.eval l = .ok e) : Carried c l op args e.changes := by
  cases ho with
  | registerToken read holder =>
    obtain ⟨hnone, hzero, hadmitted, hch⟩ := h.registerToken_eq_ok he
    exact hch ▸ .register read hnone hzero hadmitted
  | updateToken read =>
    obtain ⟨current, hcurrent, hadmitted, hheld, hch⟩ := h.updateToken_eq_ok he
    exact hch ▸ .update read hcurrent hadmitted hheld
  | transfer read digest signature =>
    rw [Order.carryOut, Action.plan_except_bind, eval_bind_eq_ok, eval_liftM] at he
    obtain ⟨u, hsigned, he⟩ := he
    obtain ⟨heff, s, r, hmove, hch⟩ := h.transfer_eq_ok he
    exact hch ▸ .transfer read hsigned heff hmove
  | multitransfer read =>
    obtain ⟨m, hm, hch⟩ := multitransfer_eq_ok he
    exact hch ▸ .multitransfer read hm
  | mint read =>
    obtain ⟨t, held, supply, ht, hheld, hsupply, hadmitted, hch⟩ := h.mint_eq_ok he
    exact hch ▸ .mint read ht hheld hsupply hadmitted
  | burn read =>
    obtain ⟨t, held, supply, ht, hheld, hsupply, hadmitted, hch⟩ := h.burn_eq_ok he
    exact hch ▸ .burn read ht hheld hsupply hadmitted

theorem Coherent.carried_filing {f : Filing} (hf : Filing.Spelled op args f) {e : Effect Unit}
    (he : (f.carryOut c).plan.eval l = .ok e) : Carried c l op args e.changes := by
  cases hf with
  | removeToken symbol =>
    obtain ⟨t, ht, hch⟩ := removeToken_changes h he
    exact hch ▸ .remove ht
  | registerAddress address => exact registerAddress_changes he ▸ .wallet address
  | initialiseBalance address symbol =>
    rw [plan_file_initialiseBalance, eval_map_eq_ok] at he
    obtain ⟨e', he', rfl⟩ := he
    exact initialiseBalance_changes h he' ▸ .initialise address symbol
  | initialiseScores actor read => exact initialiseScores_changes he ▸ .firstScores actor _ _
  | updateScores actor read => exact updateScores_changes he ▸ .newScores actor _ _

/-- An operation that succeeds has carried out one kind of changes. -/
theorem Coherent.carried {e : Effect Bytes} (he : (c.operate op args).plan.eval l = .ok e) :
    Carried c l op args e.changes := by
  obtain ⟨i, hi, he⟩ := operate_eq_ok.mp he
  cases hi with
  | ask hq =>
    rw [Instruction.plan_ask, eval_map_eq_ok] at he
    obtain ⟨b, -, rfl⟩ := he
    exact .nothing hq
  | order ho =>
    rw [Instruction.plan_order, eval_map_eq_ok] at he
    obtain ⟨e', he', rfl⟩ := he
    exact h.carried_order ho he'
  | file hf =>
    rw [Instruction.plan_file, eval_map_eq_ok] at he
    obtain ⟨e', he', rfl⟩ := he
    exact h.carried_filing hf he'

end Operate

/-- A request that succeeds has named an operation, was permitted, and has carried it out. -/
theorem request_eq_ok {c : Contract} {l : Table Bytes} {role : Option Role} {name : String}
    {args : List String} {e : Effect Bytes} : (c.request role name args).plan.eval l = .ok e ↔
      ∃ op, Operation.parse name = .ok op ∧ op.permit role = .ok () ∧ (c.operate op args).plan.eval l = .ok e := by
  simp only [Contract.plan_request, eval_bind_eq_ok, eval_liftM]
  constructor
  · rintro ⟨op, hop, _, hpermit, he⟩
    exact ⟨op, hop, hpermit, he⟩
  · rintro ⟨op, hop, hpermit, he⟩
    exact ⟨op, hop, (), hpermit, he⟩

theorem Coherent.carried_request {c : Contract} {l : Table Bytes} (h : Coherent l) {role : Option Role}
    {name : String} {args : List String} {e : Effect Bytes} (he : (c.request role name args).plan.eval l = .ok e) :
    ∃ op, Operation.parse name = .ok op ∧ op.permit role = .ok () ∧ Carried c l op args e.changes := by
  obtain ⟨op, hop, hpermit, he⟩ := request_eq_ok.mp he
  exact ⟨op, hop, hpermit, h.carried he⟩

end Live
end TokenLedger
