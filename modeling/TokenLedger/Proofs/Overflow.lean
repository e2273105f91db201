import TokenLedger.Proofs.Demand
import TokenLedger.Proofs.Filed

/-! Amounts have 64 bits, and so has the supply of a token. As long as what circulates is the supply, any two
accounts hold together an amount that still has 64 bits, so no transfer overflows; and whoever can destroy an
amount holds it, so the supply covers it. Only issuing can come to the end of the 64 bits, and the supply comes to
it first. -/

namespace TokenLedger

open Query

def Overflows {α : Type} (x : Except Failure α) : Prop := ∃ f : Failure, x = .error f ∧ f.kind = .overflow

namespace Live

theorem conditions_not_overflow {l : Table Bytes} {t : Transfer} {d : Demand} (hd : d ∈ conditions l t) :
    d.failure.kind ≠ .overflow := by
  rw [conditions] at hd
  split at hd
  · rw [List.mem_singleton.mp hd]
    rintro ⟨⟩
  · simp only [List.mem_cons, List.not_mem_nil, or_false] at hd
    rcases hd with rfl | rfl | rfl | rfl | rfl <;> rintro ⟨⟩

theorem demands_not_overflow {l : Table Bytes} {t : Transfer} {d : Demand} (hd : d ∈ demands l t) :
    d.failure.kind ≠ .overflow := by
  rw [demands, List.mem_cons, List.mem_cons] at hd
  rcases hd with rfl | rfl | hd
  · rintro ⟨⟩
  · rintro ⟨⟩
  · exact conditions_not_overflow hd

section Transfers

variable {l : Table Bytes} (h : Coherent l)

include h

theorem Coherent.move_not_overflow (hl : Conserved l) {t : Transfer} (hne : t.sender ≠ t.receiver) {f : Failure}
    (hf : move l t = .error f) : f.kind ≠ .overflow := by
  rcases h.move_conditions hl hne with ⟨g, hg, hmove⟩ | ⟨-, p, hmove⟩
  · obtain ⟨d, hd, rfl⟩ := Demand.exists_of_unmet? hg
    rw [hmove, Except.error.injEq] at hf
    exact hf ▸ conditions_not_overflow hd
  · rw [hmove] at hf
    cases hf

theorem Coherent.touched_transfer_not_overflow {m : Touched} (hm : Fits m) (hl : Conserved (overlay l m)) {t : Transfer}
    (ht : t.isEffective) : (m.transfer t).FailsWith (·.kind ≠ .overflow) l := by
  intro f hf
  rw [h.eval_touched_transfer hm] at hf
  cases hmove : move (overlay l m) (waive m t) with
  | ok p =>
    rw [hmove] at hf
    cases hf
  | error e =>
    rw [hmove] at hf
    cases hf
    exact (hm.coherent_overlay h).move_not_overflow hl (t := waive m t) (sender_ne_receiver ht) hmove

theorem Coherent.transferAll_not_overflow {m : Touched} (hm : Fits m) (hl : Conserved (overlay l m))
    (ts : List Transfer) : (m.transferAll ts).FailsWith (·.kind ≠ .overflow) l := by
  have heffective : ∀ t ∈ ts.filter (·.isEffective), t.isEffective := fun t ht => (List.mem_filter.mp ht).2
  rw [Touched.transferAll]
  generalize ts.filter (·.isEffective) = us at heffective
  induction us generalizing m with
  | nil => exact failsWith_pure m
  | cons t us ih =>
    have ht := heffective t (by simp)
    rw [List.foldlM_cons]
    refine (h.touched_transfer_not_overflow hm hl ht).bind fun m' hm' => ?_
    obtain ⟨s, r, hmove, -, hfits, hover⟩ := h.touched_transfer_eq_ok hm hm'
    have hsettled := hl.settle (hm.coherent_overlay h) (t := waive m t) (sender_ne_receiver ht) hmove
    exact ih hfits (hover ▸ hsettled) fun u hu => heffective u (by simp [hu])

theorem Coherent.transfer_not_overflow (hl : Conserved l) (t : Transfer) :
    (transfer t).plan.FailsWith (·.kind ≠ .overflow) l := by
  intro f hf
  rcases h.transfer_demands hl t with ⟨g, hg, he⟩ | ⟨-, e, he, -⟩
  · obtain ⟨d, hd, rfl⟩ := Demand.exists_of_unmet? hg
    rw [he, Except.error.injEq] at hf
    exact hf ▸ demands_not_overflow hd
  · rw [he] at hf
    cases hf

theorem Coherent.multitransfer_not_overflow (hl : Conserved l) (ts : List Transfer) :
    (multitransfer ts).plan.FailsWith (·.kind ≠ .overflow) l := by
  rw [plan_multitransfer]
  exact (h.transferAll_not_overflow fits_empty (by rwa [overlay_empty]) ts).bind fun _ _ => failsWith_pure _

theorem Coherent.request_not_overflow (hl : Conserved l) (c : Contract) (role : Option Role) {op : Operation}
    (hop : op = .transfer ∨ op = .multitransfer) (args : List String) : (c.request role op.name args).plan.FailsWith
      (fun f => f.kind = .overflow → ∃ key digest signature, c.verify key digest signature = .error f) l := by
  have hfailure {α : Type} {q : Query α} (hq : q.FailsWith (·.kind ≠ .overflow) l) : q.FailsWith
      (fun f => f.kind = .overflow → ∃ key digest signature, c.verify key digest signature = .error f) l :=
    fun f hf hkind => absurd hkind (hq f hf)
  have hparse : (liftM (Operation.parse op.name) : Query Operation).eval l = .ok op := by
    rw [eval_liftM, Operation.parse, Operation.ofName?_name]
  rw [c.plan_request]
  refine (failsWith_of_ok hparse).bind fun o ho => ?_
  rw [hparse, Except.ok.injEq] at ho
  subst ho
  have hpermit : (liftM (op.permit role) : Query Unit).eval l = .ok () := by
    rw [eval_liftM, Operation.permit]
    rcases hop with rfl | rfl <;> rfl
  refine (failsWith_of_ok hpermit).bind fun _ _ => ?_
  refine failsWith_operate (fun f hf hkind => by rw [hf] at hkind; cases hkind) fun i hi => ?_
  cases hi with
  | ask hq => rcases hop with rfl | rfl <;> cases hq
  | file hf => rcases hop with rfl | rfl <;> cases hf
  | order ho =>
    rw [Instruction.plan_order]
    refine FailsWith.map ?_ _
    cases ho with
    | @transfer _ t =>
      rw [Order.carryOut, Action.plan_except_bind]
      refine FailsWith.bind (failsWith_liftM fun f hf hkind => ?_) fun _ _ => hfailure (h.transfer_not_overflow hl t)
      rw [authorise] at hf
      split_ifs at hf
      · exact ⟨_, _, _, hf⟩
      · cases hf
        cases hkind
    | @multitransfer _ _ ts => exact hfailure (h.multitransfer_not_overflow hl ts)
    | _ => simp at hop

end Transfers

/-- A request to issue or to destroy some of a listed token, for an address that has a wallet. -/
structure Supplied (l : Table Bytes) (r : Transfer) (address : String) (u : Token) : Prop where
  listed : token? l r.token = some u
  registered : registered l address
  positive : 0 < r.amount.units
  whole : u.type = .nftPod → Amount.scale ∣ r.amount.units

theorem Conserved.held_le_supply {l : Table Bytes} (hl : Conserved l) {a : Account} {u : Token}
    (hu : token? l a.token = some u) : held l a ≤ u.supply.units :=
  (held_le_total l a).trans (hl _ u hu).le

section Supplies

variable {l : Table Bytes} (h : Coherent l) {r : Transfer} {u : Token}

include h

theorem Supplied.eval_suppliedToken {address : String} (hr : Supplied l r address u) (k : Movement) :
    (suppliedToken k r).eval l = .ok u := by
  have hzero : r.amount.isZero = false := Amount.isZero_eq_false.mpr hr.positive
  have hadmits : u.type.admits r.amount := TokenType.admits_iff_nftPod.mpr hr.whole
  rw [suppliedToken]
  simp [hzero, h.eval_token, hr.listed, hadmits, Except.bind]

theorem Supplied.eval_balance {address : String} (hr : Supplied l r address u) :
    (Query.balance ⟨address, u.symbol⟩ true).eval l = .ok (balance l ⟨address, r.token⟩) := by
  rw [h.token?_symbol hr.listed, h.eval_balance]
  simp [hr.registered]

theorem Supplied.burn_cases (hr : Supplied l r r.sender u) (hl : Conserved l) :
    (r.amount.units ≤ held l ⟨r.sender, r.token⟩ ∧ ∃ e, (burn r).plan.eval l = .ok e) ∨
      (held l ⟨r.sender, r.token⟩ < r.amount.units ∧
        (burn r).plan.eval l = .error (.insufficientFunds (balance l ⟨r.sender, r.token⟩).amount r.amount)) := by
  have hsupply := hl.held_le_supply (a := ⟨r.sender, r.token⟩) hr.listed
  rw [plan_burn, eval_bind, hr.eval_suppliedToken h, Except.bind, eval_bind, hr.eval_balance h]
  simp only [Except.bind, eval_bind, eval_liftM]
  rcases Nat.lt_or_ge (held l ⟨r.sender, r.token⟩) r.amount.units with hless | hfunds
  · rw [Amount.sub_eq_error.mpr ⟨hless, rfl⟩]
    exact .inr ⟨hless, rfl⟩
  · obtain ⟨rest, hrest⟩ := Amount.exists_sub hfunds
    obtain ⟨supply, hsub⟩ := Amount.exists_sub (hfunds.trans hsupply)
    rw [hrest, hsub]
    exact .inl ⟨hfunds, _, rfl⟩

theorem Supplied.mint_cases (hr : Supplied l r r.receiver u) (hl : Conserved l) :
    (u.supply.units + r.amount.units < UInt64.size ∧ ∃ e, (mint r).plan.eval l = .ok e) ∨
      (UInt64.size ≤ u.supply.units + r.amount.units ∧ Overflows ((mint r).plan.eval l)) := by
  have hsupply := hl.held_le_supply (a := ⟨r.receiver, r.token⟩) hr.listed
  rw [plan_mint, eval_bind, hr.eval_suppliedToken h, Except.bind, eval_bind, hr.eval_balance h]
  simp only [Except.bind, eval_bind, eval_liftM]
  rcases Nat.lt_or_ge (u.supply.units + r.amount.units) UInt64.size with hroom | hfull
  · obtain ⟨supply, hadd⟩ := Amount.exists_add hroom
    obtain ⟨sum, hsum⟩ := Amount.exists_add ((Nat.add_le_add_right hsupply r.amount.units).trans_lt hroom)
    rw [hsum, hadd]
    exact .inl ⟨hroom, _, rfl⟩
  · refine .inr ⟨hfull, ?_⟩
    rw [Amount.add_eq_error.mpr ⟨hfull, rfl⟩]
    cases hsum : (balance l ⟨r.receiver, r.token⟩).amount.add r.amount with
    | ok sum => exact ⟨_, rfl, rfl⟩
    | error f =>
      obtain ⟨-, rfl⟩ := Amount.add_eq_error.mp hsum
      exact ⟨_, rfl, rfl⟩

end Supplies

end Live

open Live

/-- No transfer and no batch of transfers overflows, whatever it asks for: an invocation of one of them does so only if
the check of signatures does. What is held can be destroyed, without regard to the supply, and nothing else can. An
amount can be issued exactly if the supply has room for it, whoever receives it. -/
theorem overflow_unreachable {c : Contract} {as : List Step} (h : Contractual c as)
    (hn : (Journal.run c .empty .empty as).committed.length < UInt64.size) :
    let s := (Session.run c .empty as).2.store
    (∀ t, ¬ Overflows ((transfer t).perform s .empty).1) ∧
      (∀ ts, ¬ Overflows ((multitransfer ts).perform s .empty).1) ∧
      (∀ (role : Option Role) (op : Operation) (args : List String), op = .transfer ∨ op = .multitransfer →
        Overflows (c.invoke s .empty role op.name args).1 →
        ∃ key digest signature, Overflows (c.verify key digest signature)) ∧
      (∀ r u, Supplied s.live r r.sender u →
        ((∃ e, ((burn r).perform s .empty).1 = .ok e) ↔ r.amount.units ≤ held s.live ⟨r.sender, r.token⟩)) ∧
      ∀ r u, Supplied s.live r r.receiver u →
        (Overflows ((mint r).perform s .empty).1 ↔ UInt64.size ≤ u.supply.units + r.amount.units) ∧
        ((∃ e, ((mint r).perform s .empty).1 = .ok e) ↔ u.supply.units + r.amount.units < UInt64.size) := by
  intro s
  have hsound := (h.followed hn).sound
  have hcoherent : Coherent s.live := hsound.coherent
  have hconserved : Conserved s.live := hsound.conserved
  refine ⟨fun t ⟨f, hf, hkind⟩ => ?_, fun ts ⟨f, hf, hkind⟩ => ?_, fun role op args hop ⟨f, hf, hkind⟩ => ?_,
    fun r u hr => ?_, fun r u hr => ?_⟩
  · exact hcoherent.transfer_not_overflow hconserved t f (((writesLast_transfer t).perform_eq_error _ _).mp hf) hkind
  · exact hcoherent.multitransfer_not_overflow hconserved ts f
      (((writesLast_multitransfer ts).perform_eq_error _ _).mp hf) hkind
  · obtain ⟨key, digest, signature, he⟩ := hcoherent.request_not_overflow hconserved c role hop args f
      (((c.writesLast_request role op.name args).perform_eq_error _ _).mp hf) hkind
    exact ⟨key, digest, signature, f, he, hkind⟩
  · rw [(writesLast_burn r).answer_perform_empty]
    rcases hr.burn_cases hcoherent hconserved with ⟨hfunds, e, he⟩ | ⟨hless, he⟩
    · rw [he]
      exact iff_of_true ⟨_, rfl⟩ hfunds
    · rw [he]
      exact iff_of_false (fun ⟨_, hok⟩ => by cases hok) hless.not_ge
  · rw [(writesLast_mint r).answer_perform_empty]
    rcases hr.mint_cases hcoherent hconserved with ⟨hroom, e, he⟩ | ⟨hfull, f, he, hkind⟩
    · rw [he]
      exact ⟨iff_of_false (fun ⟨_, hf, _⟩ => by cases hf) hroom.not_ge, iff_of_true ⟨_, rfl⟩ hroom⟩
    · rw [he]
      exact ⟨iff_of_true ⟨f, rfl, hkind⟩ hfull, iff_of_false (fun ⟨_, hok⟩ => by cases hok) hfull.not_gt⟩

def overfull : Transfer :=
  ⟨"", "GLD", "alice", "alice", false, false, ⟨UInt64.size - 500000000, by decide⟩, "", 0⟩

/-- Alice holds the whole supply. So much can neither be issued to her nor be destroyed, and that she sends it to bob
is refused for another reason. -/
theorem overflow_unreachable_overfull :
    Overflows ((mint overfull).perform listed.store .empty).1 ∧
      (¬ ∃ e, ((burn overfull).perform listed.store .empty).1 = .ok e) ∧
      ¬ Overflows ((transfer { overfull with receiver := "bob", anyReceiver := true }).perform
        listed.store .empty).1 := by
  have hlisted : token? listed.store.live "GLD" = some ⟨"", .crypto, "GLD", ⟨500000000, by decide⟩, 0⟩ := by
    decide +kernel
  have hholder : registered listed.store.live "alice" := by decide +kernel
  have hheld : held listed.store.live ⟨"alice", "GLD"⟩ = 500000000 := by decide +kernel
  have hsupplied (address : String) (ha : address = "alice") : Supplied listed.store.live overfull address
      ⟨"", .crypto, "GLD", ⟨500000000, by decide⟩, 0⟩ :=
    ⟨hlisted, ha ▸ hholder, by decide, nofun⟩
  have h := overflow_unreachable (contractual_listing .signing)
    (lt_of_le_of_lt (Journal.committed_run_le .signing .empty .empty listing) (by decide))
  rw [← listed] at h
  obtain ⟨htransfer, -, -, hburn, hmint⟩ := h
  refine ⟨(hmint _ _ (hsupplied _ rfl)).1.mpr (by decide), fun hok => ?_, htransfer _⟩
  have hfunds := (hburn _ _ (hsupplied _ rfl)).mp hok
  change overfull.amount.units ≤ held listed.store.live ⟨"alice", "GLD"⟩ at hfunds
  rw [hheld] at hfunds
  exact absurd hfunds (by decide)

end TokenLedger
