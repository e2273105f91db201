import TokenLedger.Proofs.Circulation
import TokenLedger.Proofs.Writing

/-! Transfers on live values. A batch works on balances that it has touched; what it would write over the
live values is what its transfers would have written one after the other. -/

namespace TokenLedger

namespace Live

section Several

variable {l : Table Bytes} {cs : List Change}

theorem getElem?_applyAll_of_forall {k : String} (h : ∀ c ∈ cs, c.key.encode ≠ k) :
    (applyAll l cs)[k]? = l[k]? := by
  induction cs generalizing l with
  | nil => rfl
  | cons c cs ih =>
    rw [applyAll_cons, ih fun d hd => h d (by simp [hd]), getElem?_apply, if_neg (h c (by simp))]

theorem held_applyAll_of_forall {a : Account} (h : ∀ c ∈ cs, c.key ≠ a.key) : held (applyAll l cs) a = held l a :=
  held_congr (getElem?_applyAll_of_forall fun c hc he => h c hc (Key.encode_injective he))

theorem getElem?_applyAll_of_mem (hn : (cs.map Change.key).Nodup) {c : Change} (hc : c ∈ cs) :
    (applyAll l cs)[c.key.encode]? = c.document := by
  induction cs generalizing l with
  | nil => cases hc
  | cons d cs ih =>
    rw [List.map_cons, List.nodup_cons] at hn
    obtain ⟨hnew, hn⟩ := hn
    rw [applyAll_cons]
    rcases List.mem_cons.mp hc with rfl | hc
    · rw [getElem?_applyAll_of_forall, getElem?_apply_self]
      intro d hd he
      exact hnew (Key.encode_injective he ▸ List.mem_map_of_mem hd)
    · exact ih hn hc

end Several

/-- Each balance is kept under its own account, as the operations make it. -/
def Fits (m : Touched) : Prop :=
  ∀ (a : Account) (b : Balance), m[a]? = some b → b.account = a ∧ b.Plain

theorem fits_empty : Fits ∅ := by
  intro a b h
  simp at h

theorem getElem?_put (m : Touched) (b : Balance) (a : Account) :
    (m.put b)[a]? = if b.account = a then some b else m[a]? := by
  rw [Touched.put, Std.ExtTreeMap.getElem?_insert]
  simp

theorem mem_put (m : Touched) (b : Balance) (a : Account) : a ∈ m.put b ↔ b.account = a ∨ a ∈ m := by
  simp [Touched.put]

theorem Fits.put {m : Touched} (hm : Fits m) {b : Balance} (hb : b.Plain) : Fits (m.put b) := by
  intro a r hr
  rw [getElem?_put] at hr
  split at hr
  · rename_i ha
    cases hr
    exact ⟨ha, hb⟩
  · exact hm a r hr

def overlay (l : Table Bytes) (m : Touched) : Table Bytes := applyAll l m.changes

@[simp] theorem overlay_empty (l : Table Bytes) : overlay l ∅ = l := by
  have h : (∅ : Touched).changes = [] := by simp [Touched.changes]
  rw [overlay, h, applyAll_nil]

section Overlay

variable {l : Table Bytes} {m : Touched} (hm : Fits m)

include hm

theorem Fits.mem_changes {c : Change} : c ∈ m.changes ↔ ∃ b, m[b.account]? = some b ∧ c = .balance b := by
  rw [Touched.changes, List.mem_map]
  constructor
  · rintro ⟨⟨a, b⟩, hp, rfl⟩
    have hb := Std.ExtTreeMap.mem_toList_iff_getElem?_eq_some.mp hp
    obtain ⟨rfl, -⟩ := hm a b hb
    exact ⟨b, hb, rfl⟩
  · rintro ⟨b, hb, rfl⟩
    exact ⟨(b.account, b), Std.ExtTreeMap.mem_toList_iff_getElem?_eq_some.mpr hb, rfl⟩

theorem Fits.plain_changes : ∀ c ∈ m.changes, c.Plain := by
  intro c hc
  obtain ⟨b, hb, rfl⟩ := hm.mem_changes.mp hc
  exact (hm _ b hb).2

theorem Fits.nodup_changes : (m.changes.map Change.key).Nodup := by
  have hk : m.changes.map Change.key = (m.toList.map Prod.fst).map Account.key := by
    rw [Touched.changes, List.map_map, List.map_map]
    refine List.map_congr_left fun p hp => ?_
    obtain ⟨a, b⟩ := p
    obtain ⟨rfl, -⟩ := hm a b (Std.ExtTreeMap.mem_toList_iff_getElem?_eq_some.mp hp)
    rfl
  rw [hk, Std.ExtTreeMap.map_fst_toList_eq_keys]
  exact List.Nodup.map (fun _ _ h => Account.key_injective h) Std.ExtTreeMap.nodup_keys

theorem Fits.getElem?_overlay (a : Account) : (overlay l m)[a.key.encode]? =
    match m[a]? with
    | some b => some (Balance.codec.write b)
    | none => l[a.key.encode]? := by
  cases ha : m[a]? with
  | some b =>
    obtain ⟨rfl, -⟩ := hm a b ha
    have hc : Change.balance b ∈ m.changes := hm.mem_changes.mpr ⟨b, ha, rfl⟩
    exact getElem?_applyAll_of_mem (c := .balance b) hm.nodup_changes hc
  | none =>
    rw [overlay, getElem?_applyAll_of_forall]
    intro c hc he
    obtain ⟨b, hb, rfl⟩ := hm.mem_changes.mp hc
    have hk : b.account.key = a.key := Key.encode_injective he
    rw [Account.key_injective hk, ha] at hb
    cases hb

theorem Fits.getElem?_overlay_of_ne {k : String} (hk : ∀ a : Account, a.key.encode ≠ k) :
    (overlay l m)[k]? = l[k]? := by
  refine getElem?_applyAll_of_forall fun c hc => ?_
  obtain ⟨b, -, rfl⟩ := hm.mem_changes.mp hc
  exact hk b.account

theorem Fits.coherent_overlay (h : Coherent l) : Coherent (overlay l m) := h.changes hm.plain_changes

theorem Fits.token?_overlay (symbol : String) : token? (overlay l m) symbol = token? l symbol := by
  rw [token?, token?, hm.getElem?_overlay_of_ne]
  intro a he
  cases congrArg Key.ns (Key.encode_injective he)

theorem Fits.registered_overlay (address : String) : registered (overlay l m) address = registered l address := by
  rw [registered, registered, hm.getElem?_overlay_of_ne]
  intro a he
  cases congrArg Key.ns (Key.encode_injective he)

theorem Fits.balance_overlay (a : Account) : balance (overlay l m) a = (m[a]?).getD (balance l a) := by
  rw [balance, balance?, hm.getElem?_overlay, balance, balance?]
  cases ha : m[a]? with
  | some b =>
    obtain ⟨-, hb⟩ := hm a b ha
    simp [Balance.decode_write hb, Except.toOption]
  | none => rfl

theorem Fits.overlay_put {b : Balance} (hb : b.Plain) : overlay l (m.put b) = apply (overlay l m) (.balance b) := by
  have hm' := hm.put hb
  refine Std.ExtTreeMap.ext_getElem? fun k => ?_
  by_cases hk : ∃ a : Account, a.key.encode = k
  · obtain ⟨a, rfl⟩ := hk
    rw [hm'.getElem?_overlay, getElem?_put, getElem?_apply]
    by_cases ha : b.account = a
    · subst ha
      simp [Change.key, Change.document]
    · have hne : ¬ (Change.balance b).key.encode = a.key.encode := fun he =>
        ha (Account.key_injective (Key.encode_injective he))
      rw [if_neg ha, if_neg hne, hm.getElem?_overlay]
  · have hk : ∀ a : Account, a.key.encode ≠ k := fun a he => hk ⟨a, he⟩
    have hne : ¬ (Change.balance b).key.encode = k := hk b.account
    rw [hm'.getElem?_overlay_of_ne hk, getElem?_apply, if_neg hne, hm.getElem?_overlay_of_ne hk]

end Overlay

/-- A transfer has an effect if it moves something between two parties. -/
theorem isEffective_iff {t : Transfer} : t.isEffective ↔ t.sender ≠ t.receiver ∧ 0 < t.amount.units := by
  rw [Transfer.isEffective, Bool.and_eq_true, bne_iff_ne, Bool.not_eq_true', Amount.isZero_eq_false]

/-- The transfer as a batch carries it out: accounts that it has touched before are not asked for a
wallet again. -/
def waive (m : Touched) (t : Transfer) : Transfer :=
  { t with
    anySender := t.anySender || (m[(⟨t.sender, t.token⟩ : Account)]?).isSome
    anyReceiver := t.anyReceiver || (m[(⟨t.receiver, t.token⟩ : Account)]?).isSome }

@[simp] theorem waive_empty (t : Transfer) : waive ∅ t = t := by simp [waive]

def move (l : Table Bytes) (t : Transfer) : Except Failure (Balance × Balance) :=
  ((Query.transferableToken t.token t.date t.amount).eval l).bind fun _ =>
    ((Query.balance ⟨t.sender, t.token⟩ !t.anySender).eval l).bind fun sender =>
      ((Query.balance ⟨t.receiver, t.token⟩ !t.anyReceiver).eval l).bind fun receiver =>
        (sender.amount.sub t.amount).bind fun sent =>
          (receiver.amount.add t.amount).bind fun received =>
            .ok ({ sender with amount := sent }, { receiver with amount := received })

def entry (l : Table Bytes) (any : Bool) (address : String) : Except Failure Unit :=
  if any || registered l address then .ok () else .error (.addressUnknown address)

/-- The balances after a transfer that nothing but the amounts can refuse. -/
def shifted (l : Table Bytes) (t : Transfer) : Except Failure (Balance × Balance) :=
  let sender := balance l ⟨t.sender, t.token⟩
  let receiver := balance l ⟨t.receiver, t.token⟩
  (sender.amount.sub t.amount).bind fun sent =>
    (receiver.amount.add t.amount).bind fun received =>
      .ok ({ sender with amount := sent }, { receiver with amount := received })

section Transfers

variable {l : Table Bytes} (h : Coherent l)

include h

theorem Coherent.eval_transferableToken (symbol : String) (date : Timestamp) (amount : Amount) :
    (Query.transferableToken symbol date amount).eval l =
      match token? l symbol with
      | none => .error (.tokenUnknown symbol)
      | some t =>
        if date < t.lockUpDate then .error (.lockedUp t.symbol t.lockUpDate date)
        else if t.type.admits amount then .ok t
        else .error (.fractionalMovement .transfer t.type amount) := by
  rw [Query.transferableToken, Query.eval_bind, h.eval_token]
  cases token? l symbol with
  | none => rfl
  | some t =>
    by_cases hd : date < t.lockUpDate
    · simp [Except.bind, hd]
    · cases ha : t.type.admits amount <;> simp [Except.bind, Except.map, hd, ha]

theorem Coherent.eval_transferableToken_eq_ok {symbol : String} {date : Timestamp} {amount : Amount}
    {t : Token} (ht : (Query.transferableToken symbol date amount).eval l = .ok t) :
    token? l symbol = some t ∧ ¬ date < t.lockUpDate ∧ t.type.admits amount := by
  rw [h.eval_transferableToken] at ht
  cases hu : token? l symbol with
  | none => simp [hu] at ht
  | some u =>
    simp only [hu] at ht
    split_ifs at ht with h₁ h₂
    cases ht
    exact ⟨rfl, h₁, h₂⟩

theorem Coherent.eval_balance_eq_ok {a : Account} {check : Bool} {b : Balance}
    (hb : (Query.balance a check).eval l = .ok b) :
    (check = true → registered l a.address) ∧ b = balance l a := by
  rw [h.eval_balance] at hb
  split_ifs at hb with hc
  cases hb
  refine ⟨fun hcheck => ?_, rfl⟩
  simpa [hcheck] using hc

theorem Coherent.eval_touched_balance {m : Touched} (hm : Fits m) (a : Account) (check : Bool) :
    (m.balance a check).eval l = (Query.balance a (check && !(m[a]?).isSome)).eval (overlay l m) := by
  rw [(hm.coherent_overlay h).eval_balance, hm.registered_overlay, hm.balance_overlay, Touched.balance]
  cases m[a]? with
  | some b => simp
  | none => simp [h.eval_balance]

/-- A transfer of a batch is the transfer on what the batch has left, without the checks that are
waived. -/
theorem Coherent.eval_touched_transfer {m : Touched} (hm : Fits m) (t : Transfer) :
    (m.transfer t).eval l = (move (overlay l m) (waive m t)).map fun p => (m.put p.1).put p.2 := by
  have hs : (!(waive m t).anySender) = (!t.anySender && !(m[(⟨t.sender, t.token⟩ : Account)]?).isSome) :=
    Bool.not_or _ _
  have hr : (!(waive m t).anyReceiver)
      = (!t.anyReceiver && !(m[(⟨t.receiver, t.token⟩ : Account)]?).isSome) := Bool.not_or _ _
  have hw : (waive m t).token = t.token ∧ (waive m t).date = t.date ∧ (waive m t).amount = t.amount ∧
      (waive m t).sender = t.sender ∧ (waive m t).receiver = t.receiver := ⟨rfl, rfl, rfl, rfl, rfl⟩
  have htoken : (Query.transferableToken t.token t.date t.amount).eval (overlay l m)
      = (Query.transferableToken t.token t.date t.amount).eval l := by
    rw [(hm.coherent_overlay h).eval_transferableToken, hm.token?_overlay, h.eval_transferableToken]
  rw [Touched.transfer, move, hs, hr, hw.1, hw.2.1, hw.2.2.1, hw.2.2.2.1, hw.2.2.2.2, htoken]
  simp only [Query.eval_bind, h.eval_touched_balance hm, Query.eval_liftM, Query.eval_pure]
  cases (Query.transferableToken t.token t.date t.amount).eval l with
  | error f => rfl
  | ok u =>
    simp only [Except.bind]
    split
    · rfl
    · split
      · rfl
      · rename_i sender _ _ receiver _
        cases sender.amount.sub t.amount with
        | error f => rfl
        | ok sent => cases receiver.amount.add t.amount <;> rfl

/-- A transfer asks for the token, for its parties and then for the amounts. -/
theorem Coherent.move_eq (t : Transfer) : move l t =
    ((Query.transferableToken t.token t.date t.amount).eval l).bind fun _ =>
      (entry l t.anySender t.sender).bind fun _ =>
        (entry l t.anyReceiver t.receiver).bind fun _ => shifted l t := by
  have hbalance (a : Account) (any : Bool) :
      (Query.balance a !any).eval l = (entry l any a.address).map fun _ => balance l a := by
    rw [h.eval_balance, entry]
    cases any <;> cases registered l a.address <;> rfl
  rw [move, hbalance, hbalance]
  cases (Query.transferableToken t.token t.date t.amount).eval l with
  | error f => rfl
  | ok v =>
    cases entry l t.anySender t.sender with
    | error f => rfl
    | ok v => cases entry l t.anyReceiver t.receiver <;> rfl

theorem Coherent.move_eq_ok {t : Transfer} {s r : Balance} (hmove : move l t = .ok (s, r)) :
    ∃ u sent received, token? l t.token = some u ∧
      (t.anySender = false → registered l t.sender) ∧ (t.anyReceiver = false → registered l t.receiver) ∧
      s = { balance l ⟨t.sender, t.token⟩ with amount := sent } ∧
      r = { balance l ⟨t.receiver, t.token⟩ with amount := received } ∧
      sent.units + t.amount.units = held l ⟨t.sender, t.token⟩ ∧
      received.units = held l ⟨t.receiver, t.token⟩ + t.amount.units := by
  simp only [move, Query.bind_eq_ok] at hmove
  obtain ⟨u, hu, sender, hs, receiver, hr, sent, hsent, received, hreceived, he⟩ := hmove
  obtain ⟨hsender, rfl⟩ := h.eval_balance_eq_ok hs
  obtain ⟨hreceiver, rfl⟩ := h.eval_balance_eq_ok hr
  cases he
  exact ⟨u, sent, received, (h.eval_transferableToken_eq_ok hu).1, fun hf => hsender (by rw [hf]; rfl),
    fun hf => hreceiver (by rw [hf]; rfl), rfl, rfl, Amount.sub_eq_ok.mp hsent,
    Amount.add_eq_ok.mp hreceived⟩

/-- The token admits the date and the amount of a transfer that succeeds. -/
theorem Coherent.move_admitted {t : Transfer} {p : Balance × Balance} (hmove : move l t = .ok p) :
    ∃ u, token? l t.token = some u ∧ ¬ t.date < u.lockUpDate ∧ u.type.admits t.amount := by
  obtain ⟨u, hu, -⟩ := Query.bind_eq_ok.mp hmove
  exact ⟨u, h.eval_transferableToken_eq_ok hu⟩

end Transfers

def settle (l : Table Bytes) (p : Balance × Balance) : Table Bytes :=
  apply (apply l (.balance p.1)) (.balance p.2)

section Settle

variable {l : Table Bytes} {t : Transfer} {s r : Balance} (h : Coherent l) (hmove : move l t = .ok (s, r))

include h hmove

theorem Coherent.move_plain : s.Plain ∧ s.account = ⟨t.sender, t.token⟩ ∧ r.Plain ∧
    r.account = ⟨t.receiver, t.token⟩ := by
  obtain ⟨u, sent, received, -, -, -, rfl, rfl, -, -⟩ := h.move_eq_ok hmove
  obtain ⟨hs, has⟩ := h.balance_plain ⟨t.sender, t.token⟩
  obtain ⟨hr, har⟩ := h.balance_plain ⟨t.receiver, t.token⟩
  exact ⟨hs.with_amount sent, has, hr.with_amount received, har⟩

/-- The amount goes from what the sender held to what the receiver holds. -/
theorem Coherent.move_units : s.amount.units + t.amount.units = held l s.account ∧
    r.amount.units = held l r.account + t.amount.units := by
  obtain ⟨-, has, -, har⟩ := h.move_plain hmove
  obtain ⟨u, sent, received, -, -, -, hs, hr, hsent, hreceived⟩ := h.move_eq_ok hmove
  rw [has, har, ← hsent, ← hreceived, hs, hr]
  exact ⟨rfl, rfl⟩

theorem Coherent.settled : Coherent (settle l (s, r)) := by
  obtain ⟨hs, -, hr, -⟩ := h.move_plain hmove
  have h₁ : Coherent (apply l (.balance s)) := h.change hs
  exact h₁.change hr

theorem Coherent.total_settle (hne : t.sender ≠ t.receiver) (symbol : String) :
    total (settle l (s, r)) symbol = total l symbol := by
  obtain ⟨hps, has, hpr, har⟩ := h.move_plain hmove
  obtain ⟨hs, hr⟩ := h.move_units hmove
  have h₁ := total_apply_balance l hps symbol
  have h₂ := total_apply_balance (apply l (.balance s)) hpr symbol
  have hother : held (apply l (.balance s)) r.account = held l r.account := by
    rw [held, balance_apply_balance l hps, if_neg, held]
    rw [has, har]
    intro he
    exact hne (congrArg Account.address he)
  have htoken : s.token = r.token :=
    (congrArg Account.token has).trans (congrArg Account.token har).symm
  rw [hother] at h₂
  rw [htoken] at h₁
  change total (apply (apply l (.balance s)) (.balance r)) symbol = _
  by_cases hsymbol : r.token = symbol
  · rw [if_pos hsymbol, if_pos hsymbol] at h₁ h₂
    omega
  · rw [if_neg hsymbol, if_neg hsymbol] at h₁ h₂
    omega

theorem Coherent.balance_settle (a : Account) : balance (settle l (s, r)) a =
    if r.account = a then r else if s.account = a then s else balance l a := by
  obtain ⟨hps, -, hpr, -⟩ := h.move_plain hmove
  rw [settle, balance_apply_balance _ hpr, balance_apply_balance _ hps]

theorem Coherent.held_settle_of_ne {a : Account} (ha : a.token ≠ t.token) :
    held (settle l (s, r)) a = held l a := by
  obtain ⟨-, has, -, har⟩ := h.move_plain hmove
  have hs : ¬ s.account = a := fun he => ha (by rw [← he, has])
  have hr : ¬ r.account = a := fun he => ha (by rw [← he, har])
  rw [held, h.balance_settle hmove, if_neg hr, if_neg hs, held]

theorem Coherent.held_le_settle {a : Account} (ha : a ≠ ⟨t.sender, t.token⟩) :
    held l a ≤ held (settle l (s, r)) a := by
  obtain ⟨-, has, -, -⟩ := h.move_plain hmove
  obtain ⟨-, hr⟩ := h.move_units hmove
  have hsender : ¬ s.account = a := fun he => ha (by rw [← he, has])
  rw [held, held, h.balance_settle hmove, if_neg hsender]
  by_cases hreceiver : r.account = a
  · rw [if_pos hreceiver, hr, hreceiver, held]
    omega
  · rw [if_neg hreceiver]

/-- A transfer between two parties changes amounts and nothing else: the sender's is less and the receiver's more. -/
theorem Coherent.amount_settle (hne : t.sender ≠ t.receiver) (a : Account) :
    ∃ x : Amount, balance (settle l (s, r)) a = { balance l a with amount := x } ∧
      x.units + (if (⟨t.sender, t.token⟩ : Account) = a then t.amount.units else 0) =
        held l a + if (⟨t.receiver, t.token⟩ : Account) = a then t.amount.units else 0 := by
  obtain ⟨-, has, -, har⟩ := h.move_plain hmove
  obtain ⟨u, sent, received, -, -, -, hs, hr, hsent, hreceived⟩ := h.move_eq_ok hmove
  rw [h.balance_settle hmove, has, har]
  by_cases hreceiver : (⟨t.receiver, t.token⟩ : Account) = a
  · have hsender : ¬ (⟨t.sender, t.token⟩ : Account) = a := fun he =>
      hne (congrArg Account.address (he.trans hreceiver.symm))
    subst hreceiver
    rw [if_pos rfl, if_pos rfl, if_neg hsender]
    exact ⟨received, hr, hreceived⟩
  · rw [if_neg hreceiver, if_neg hreceiver]
    by_cases hsender : (⟨t.sender, t.token⟩ : Account) = a
    · subst hsender
      rw [if_pos rfl, if_pos rfl]
      exact ⟨sent, hs, hsent⟩
    · rw [if_neg hsender, if_neg hsender]
      exact ⟨(balance l a).amount, rfl, rfl⟩

theorem Coherent.overlay_pair : overlay l (((∅ : Touched).put s).put r) = settle l (s, r) := by
  obtain ⟨hs, -, hr, -⟩ := h.move_plain hmove
  rw [(fits_empty.put hs).overlay_put hr, fits_empty.overlay_put hs, overlay_empty]
  rfl

end Settle

section Batch

variable {l : Table Bytes} (h : Coherent l)

include h

theorem Coherent.touched_transfer_eq_ok {m m' : Touched} (hm : Fits m) {t : Transfer}
    (ht : (m.transfer t).eval l = .ok m') : ∃ s r, move (overlay l m) (waive m t) = .ok (s, r) ∧
      m' = (m.put s).put r ∧ Fits m' ∧ overlay l m' = settle (overlay l m) (s, r) := by
  rw [h.eval_touched_transfer hm] at ht
  cases hmove : move (overlay l m) (waive m t) with
  | error f => simp [hmove, Except.map] at ht
  | ok p =>
    obtain ⟨s, r⟩ := p
    obtain ⟨hs, -, hr, -⟩ := (hm.coherent_overlay h).move_plain hmove
    have hm' : m' = (m.put s).put r := by
      rw [hmove] at ht
      exact (Except.ok.inj ht).symm
    refine ⟨s, r, rfl, hm', hm' ▸ (hm.put hs).put hr, ?_⟩
    rw [hm', (hm.put hs).overlay_put hr, hm.overlay_put hs]
    rfl

/-- What each transfer of a batch preserves, the batch preserves. -/
theorem Coherent.transferAll_induction {P : Table Bytes → Prop} {ts : List Transfer}
    (hstep : ∀ (m : Touched) (t : Transfer) (s r : Balance), t ∈ ts → t.isEffective → Fits m →
      move (overlay l m) (waive m t) = .ok (s, r) → P (overlay l m) → P (settle (overlay l m) (s, r)))
    {m m' : Touched} (hm : Fits m) (hP : P (overlay l m)) (ht : (m.transferAll ts).eval l = .ok m') :
    Fits m' ∧ P (overlay l m') := by
  refine Query.foldlM_induction (fun _ n => Fits n ∧ P (overlay l n)) ⟨hm, hP⟩ ?_ ht
  intro _ t n n' ht ⟨hn, hPn⟩ hn'
  obtain ⟨hmem, heff⟩ := List.mem_filter.mp ht
  obtain ⟨s, r, hmove, -, hfits, hover⟩ := h.touched_transfer_eq_ok hn hn'
  rw [hover]
  exact ⟨hfits, hstep n t s r hmem heff hn hmove hPn⟩

theorem Coherent.transferAll_fits {m m' : Touched} (hm : Fits m) {ts : List Transfer}
    (ht : (m.transferAll ts).eval l = .ok m') : Fits m' :=
  (h.transferAll_induction (P := fun _ => True) (fun _ _ _ _ _ _ _ _ hP => hP) hm trivial ht).1

end Batch

theorem eval_transfer (l : Table Bytes) (t : Transfer) : (transfer t).plan.eval l =
    if t.sender = t.receiver then .error .selfTransfer
    else if t.amount.isZero then .error (.nothingMoved .transfer)
    else ((Touched.transfer ∅ t).eval l).map fun m =>
      ⟨{ Envelope.empty.withTransfer { t with kind := Transfer.recordedKind } with balances := some m },
        m.changes⟩ := by
  rw [plan_transfer]
  by_cases hs : t.sender = t.receiver
  · simp [hs, Except.bind]
  · cases hz : t.amount.isZero with
    | true => simp [hs, Except.bind]
    | false =>
      simp only [hs, Query.eval_bind, Bool.false_eq_true, if_false]
      cases (Touched.transfer ∅ t).eval l <;> rfl

end Live
end TokenLedger
