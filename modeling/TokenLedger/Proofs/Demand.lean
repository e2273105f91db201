import TokenLedger.Proofs.Batch
import TokenLedger.Proofs.Integrality

/-! What is asked of a transfer, and in which order. A transfer is refused for the first thing that it does not meet;
if it meets all of them, then the amount goes from the sender to the receiver and nothing else changes. -/

namespace TokenLedger

/-- What a request must meet, and the failure if it does not. -/
structure Demand where
  met : Bool
  failure : Failure

def Demand.unmet? (ds : List Demand) : Option Failure := (ds.find? (!·.met)).map (·.failure)

namespace Demand

@[simp] theorem unmet?_nil : unmet? [] = none := rfl

@[simp] theorem unmet?_cons (d : Demand) (ds : List Demand) :
    unmet? (d :: ds) = if d.met then unmet? ds else some d.failure := by
  rw [unmet?, List.find?_cons]
  cases d.met <;> rfl

theorem exists_of_unmet? {ds : List Demand} {f : Failure} (h : unmet? ds = some f) : ∃ d ∈ ds, d.failure = f := by
  obtain ⟨d, hd, hf⟩ := Option.map_eq_some_iff.mp h
  exact ⟨d, List.mem_of_find?_eq_some hd, hf⟩

theorem unmet?_eq_none {ds : List Demand} : unmet? ds = none ↔ ∀ d ∈ ds, d.met := by
  simp [unmet?]

end Demand

namespace Live

section Conserved

variable {l : Table Bytes} (hl : Conserved l)

include hl

theorem Conserved.held_add_held_lt {a b : Account} {u : Token} (hu : token? l a.token = some u) (hne : a ≠ b)
    (htoken : b.token = a.token) : held l a + held l b < UInt64.size := by
  have hle := held_add_held_le_total l hne htoken
  rw [hl _ u hu] at hle
  exact hle.trans_lt u.supply.units_lt

theorem Conserved.shifted_cases {t : Transfer} {u : Token} (hu : token? l t.token = some u)
    (hne : t.sender ≠ t.receiver) :
    (t.amount.units ≤ held l ⟨t.sender, t.token⟩ ∧ ∃ p, shifted l t = .ok p) ∨
      (held l ⟨t.sender, t.token⟩ < t.amount.units ∧
        shifted l t = .error (.insufficientFunds (balance l ⟨t.sender, t.token⟩).amount t.amount)) := by
  have haccounts : (⟨t.sender, t.token⟩ : Account) ≠ ⟨t.receiver, t.token⟩ := fun he =>
    hne (congrArg Account.address he)
  have hroom : held l ⟨t.sender, t.token⟩ + held l ⟨t.receiver, t.token⟩ < UInt64.size :=
    hl.held_add_held_lt (a := ⟨t.sender, t.token⟩) hu haccounts rfl
  rw [shifted]
  rcases Nat.lt_or_ge (held l ⟨t.sender, t.token⟩) t.amount.units with hless | hfunds
  · rw [Amount.sub_eq_error.mpr ⟨hless, rfl⟩]
    exact .inr ⟨hless, rfl⟩
  · obtain ⟨sent, hsent⟩ := Amount.exists_sub hfunds
    obtain ⟨received, hreceived⟩ : ∃ b, (balance l ⟨t.receiver, t.token⟩).amount.add t.amount = .ok b :=
      Amount.exists_add (by rw [held, held] at *; omega)
    rw [hsent, hreceived]
    exact .inl ⟨hfunds, _, rfl⟩

end Conserved

def conditions (l : Table Bytes) (t : Transfer) : List Demand :=
  match token? l t.token with
  | none => [⟨false, .tokenUnknown t.token⟩]
  | some u =>
    [⟨u.lockUpDate ≤ t.date, .lockedUp t.token u.lockUpDate t.date⟩,
      ⟨u.type = .nftPod → Amount.scale ∣ t.amount.units, .fractionalMovement .transfer .nftPod t.amount⟩,
      ⟨t.anySender || registered l t.sender, .addressUnknown t.sender⟩,
      ⟨t.anyReceiver || registered l t.receiver, .addressUnknown t.receiver⟩,
      ⟨t.amount.units ≤ held l ⟨t.sender, t.token⟩,
        .insufficientFunds (balance l ⟨t.sender, t.token⟩).amount t.amount⟩]

def demands (l : Table Bytes) (t : Transfer) : List Demand :=
  ⟨t.sender ≠ t.receiver, .selfTransfer⟩ :: ⟨0 < t.amount.units, .nothingMoved .transfer⟩ :: conditions l t

/-- What a transfer changes: the amount is taken from the sender and given to the receiver, and whatever else their
records say is kept. -/
structure Moved (l m : Table Bytes) (t : Transfer) : Prop where
  sender : ∃ x : Amount, x.units + t.amount.units = held l ⟨t.sender, t.token⟩ ∧
    balance? m ⟨t.sender, t.token⟩ = some { balance l ⟨t.sender, t.token⟩ with amount := x }
  receiver : ∃ x : Amount, x.units = held l ⟨t.receiver, t.token⟩ + t.amount.units ∧
    balance? m ⟨t.receiver, t.token⟩ = some { balance l ⟨t.receiver, t.token⟩ with amount := x }
  rest : ∀ k : String, (⟨t.sender, t.token⟩ : Account).key.encode ≠ k →
    (⟨t.receiver, t.token⟩ : Account).key.encode ≠ k → m[k]? = l[k]?

section Demands

variable {l : Table Bytes} (h : Coherent l) (hl : Conserved l) {t : Transfer} (hne : t.sender ≠ t.receiver)

include h

theorem Coherent.moved_settle {s r : Balance} (hmove : move l t = .ok (s, r)) (hne : t.sender ≠ t.receiver) :
    Moved l (settle l (s, r)) t := by
  obtain ⟨hs, has, hr, har⟩ := h.move_plain hmove
  obtain ⟨u, sent, received, -, -, -, hsent, hreceived, hless, hmore⟩ := h.move_eq_ok hmove
  have hreceiver : ¬ r.account = ⟨t.sender, t.token⟩ := fun he =>
    hne (congrArg Account.address (he.symm.trans har))
  refine ⟨⟨sent, hless, ?_⟩, ⟨received, hmore, ?_⟩, fun k hks hkr => ?_⟩
  · rw [settle, balance?_apply_balance _ hr, if_neg hreceiver, balance?_apply_balance _ hs, if_pos has, hsent]
  · rw [settle, balance?_apply_balance _ hr, if_pos har, hreceived]
  · rw [settle, getElem?_apply, getElem?_apply, if_neg, if_neg]
    · exact fun he => hks (has ▸ he)
    · exact fun he => hkr (har ▸ he)

include hl hne

theorem Coherent.move_conditions : (∃ f, Demand.unmet? (conditions l t) = some f ∧ move l t = .error f) ∨
    (Demand.unmet? (conditions l t) = none ∧ ∃ p, move l t = .ok p) := by
  rw [h.move_eq, h.eval_transferableToken, conditions]
  cases hu : token? l t.token with
  | none => exact .inl ⟨_, rfl, rfl⟩
  | some u =>
    simp only [Demand.unmet?_cons, Demand.unmet?_nil, decide_eq_true_eq, h.token?_symbol hu]
    by_cases hdate : t.date < u.lockUpDate
    · rw [if_pos hdate, if_neg (Int64.not_le.mpr hdate)]
      exact .inl ⟨_, rfl, rfl⟩
    rw [if_neg hdate, if_pos (Int64.not_lt.mp hdate)]
    by_cases hadmits : u.type.admits t.amount
    swap
    · have hpod : ¬ (u.type = .nftPod → Amount.scale ∣ t.amount.units) := fun hwhole =>
        hadmits (TokenType.admits_iff_nftPod.mpr hwhole)
      rw [if_neg hadmits, if_neg hpod, (Classical.not_imp.mp hpod).1]
      exact .inl ⟨_, rfl, rfl⟩
    rw [if_pos hadmits, if_pos (TokenType.admits_iff_nftPod.mp hadmits), entry, entry]
    simp only [Except.bind]
    by_cases hsender : t.anySender || registered l t.sender
    swap
    · rw [if_neg hsender, if_neg hsender]
      exact .inl ⟨_, rfl, rfl⟩
    rw [if_pos hsender, if_pos hsender]
    by_cases hreceiver : t.anyReceiver || registered l t.receiver
    swap
    · rw [if_neg hreceiver, if_neg hreceiver]
      exact .inl ⟨_, rfl, rfl⟩
    rw [if_pos hreceiver, if_pos hreceiver]
    rcases hl.shifted_cases hu hne with ⟨hfunds, hok⟩ | ⟨hless, hshort⟩
    · rw [if_pos hfunds]
      exact .inr ⟨rfl, hok⟩
    · rw [if_neg hless.not_ge]
      exact .inl ⟨_, rfl, hshort⟩

omit hne in
theorem Coherent.transfer_demands (t : Transfer) :
    (∃ f, Demand.unmet? (demands l t) = some f ∧ (transfer t).plan.eval l = .error f) ∨
      (Demand.unmet? (demands l t) = none ∧
        ∃ e, (transfer t).plan.eval l = .ok e ∧ Moved l (applyAll l e.changes) t) := by
  rw [demands, Demand.unmet?_cons, Demand.unmet?_cons]
  simp only [decide_eq_true_eq]
  by_cases hne : t.sender = t.receiver
  · rw [if_neg (not_not.mpr hne), eval_transfer, if_pos hne]
    exact .inl ⟨_, rfl, rfl⟩
  rw [if_pos hne]
  by_cases hunits : 0 < t.amount.units
  swap
  · have hzero : t.amount.isZero := (Bool.not_eq_false _).mp (mt Amount.isZero_eq_false.mp hunits)
    rw [if_neg hunits, eval_transfer, if_neg hne, if_pos hzero]
    exact .inl ⟨_, rfl, rfl⟩
  rw [if_pos hunits, h.eval_transfer_effective (isEffective_iff.mpr ⟨hne, hunits⟩)]
  rcases h.move_conditions hl hne with ⟨f, hf, hmove⟩ | ⟨hnone, ⟨s, r⟩, hmove⟩
  · rw [hmove]
    exact .inl ⟨f, hf, rfl⟩
  · rw [hmove]
    refine .inr ⟨hnone, _, rfl, ?_⟩
    change Moved l (overlay l _) t
    rw [h.overlay_pair hmove]
    exact h.moved_settle hmove hne

end Demands
end Live

open Live

/-- In whatever state a contract has left the ledger, a transfer succeeds exactly if it meets all demands, and otherwise
fails for the first that it does not meet. Once it is committed, the sender has less and the receiver more by its
amount, and nothing else has changed. -/
theorem transfer_effect {c : Contract} {as : List Step} (h : Contractual c as)
    (hn : (Journal.run c .empty .empty as).committed.length < UInt64.size) (t : Transfer) :
    let s := (Session.run c .empty as).2.store
    let p := (transfer t).perform s .empty
    ((∃ e, p.1 = .ok e) ↔ ∀ d ∈ demands s.live t, d.met) ∧
      (∀ f, p.1 = .error f ↔ Demand.unmet? (demands s.live t) = some f) ∧
      ((∃ e, p.1 = .ok e) → ∃ s', p.2.commit s = .ok s' ∧ Moved s.live s'.live t) := by
  intro s p
  have hsound := (h.followed hn).sound
  have hcoherent : Coherent s.live := hsound.coherent
  have hanswer : p.1 = ((transfer t).plan.eval s.live).map Effect.answer :=
    (writesLast_transfer t).answer_perform_empty s
  rw [← Demand.unmet?_eq_none, hanswer]
  rcases hcoherent.transfer_demands hsound.conserved t with ⟨f, hf, he⟩ | ⟨hnone, e, he, hmoved⟩
  · rw [he, hf]
    refine ⟨iff_of_false (fun ⟨_, hok⟩ => by cases hok) nofun, fun g => ?_, fun ⟨_, hok⟩ => by cases hok⟩
    rw [Option.some.injEq]
    exact Except.error.injEq f g ▸ Iff.rfl
  · rw [he, hnone]
    refine ⟨iff_of_true ⟨_, rfl⟩ rfl, fun g => iff_of_false nofun nofun, fun _ => ?_⟩
    obtain ⟨s', hs, hlive⟩ := Query.commit_perform_empty he
    rw [← (writesLast_transfer t).perform_eq] at hs
    exact ⟨s', hs, hlive ▸ hmoved⟩

def givingAll : Transfer := ⟨"", "GLD", "alice", "bob", true, false, .whole 5, "1", 0⟩

/-- Bob cannot give it on, for three reasons: he and carol have no wallet, and he does not hold it. He is told the
first. -/
theorem transfer_effect_givingAll :
    (∃ s', ((transfer givingAll).perform listed.store .empty).2.commit listed.store = .ok s' ∧
      Moved listed.store.live s'.live givingAll) ∧
      ((transfer { givingAll with sender := "bob", receiver := "carol", anyReceiver := false }).perform
        listed.store .empty).1 = .error (.addressUnknown "bob") := by
  have hmet : ∀ d ∈ demands listed.store.live givingAll, d.met := by decide +kernel
  have hunmet : Demand.unmet? (demands listed.store.live
      { givingAll with sender := "bob", receiver := "carol", anyReceiver := false }) =
        some (.addressUnknown "bob") := by
    decide +kernel
  have h := transfer_effect (contractual_listing .signing)
    (lt_of_le_of_lt (Journal.committed_run_le .signing .empty .empty listing) (by decide))
  rw [← listed] at h
  obtain ⟨hiff, -, hmoved⟩ := h givingAll
  obtain ⟨-, hrefused, -⟩ := h { givingAll with sender := "bob", receiver := "carol", anyReceiver := false }
  exact ⟨hmoved (hiff.mpr hmet), (hrefused _).mpr hunmet⟩

end TokenLedger
