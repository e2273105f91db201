import TokenLedger.Proofs.Coherence

/-! A batch against its transfers one after the other. A batch does not ask for a wallet where one of its
transfers has touched the account before; apart from this the two come to the same. -/

namespace TokenLedger

open Live

namespace Transfer

def accounts (t : Transfer) : List Account := [⟨t.sender, t.token⟩, ⟨t.receiver, t.token⟩]

def asked (t : Transfer) : List Account :=
  (if t.anySender then [] else [⟨t.sender, t.token⟩]) ++ if t.anyReceiver then [] else [⟨t.receiver, t.token⟩]

def waived (seen : List Account) (t : Transfer) : Transfer :=
  { t with
    anySender := t.anySender || decide (⟨t.sender, t.token⟩ ∈ seen)
    anyReceiver := t.anyReceiver || decide (⟨t.receiver, t.token⟩ ∈ seen) }

/-- Transfers that ask for a wallet where none before them has touched the account. -/
def waivedAll (seen : List Account) : List Transfer → List Transfer
  | [] => []
  | t :: ts => t.waived seen :: waivedAll (t.accounts ++ seen) ts

/-- The accounts for which a wallet is asked though they have been touched before. -/
def rechecked (seen : List Account) : List Transfer → List Account
  | [] => []
  | t :: ts => t.asked.filter (· ∈ seen) ++ rechecked (t.accounts ++ seen) ts

end Transfer

/-- Transfers one after the other within a transaction, up to the first that fails. -/
def transferEach (s : Store) : Transaction → List Transfer → Except Failure Unit × Transaction
  | t, [] => (.ok (), t)
  | t, r :: rs => match (transfer r).perform s t with
    | (.ok _, u) => transferEach s u rs
    | (.error f, u) => (.error f, u)

/-- Both succeed and show the same values, or both fail alike. -/
def SameOutcome (s : Store) {α β : Type} (p : Except Failure α × Transaction) (q : Except Failure β × Transaction) :
    Prop :=
  match p.1, q.1 with
  | .ok _, .ok _ => ∀ k : String, (p.2.view s)[k]? = (q.2.view s)[k]?
  | .error f, .error g => f = g
  | _, _ => False

def Leaves (s : Store) {α : Type} (p : Except Failure α × Transaction) : Except Failure (Table Bytes) → Prop
  | .ok l => (∃ a, p.1 = .ok a) ∧ p.2.view s = l
  | .error f => p.1 = .error f

theorem Leaves.sameOutcome {s : Store} {α β : Type} {p : Except Failure α × Transaction}
    {q : Except Failure β × Transaction} {r : Except Failure (Table Bytes)} (hp : Leaves s p r)
    (hq : Leaves s q r) : SameOutcome s p q := by
  rw [SameOutcome]
  cases r with
  | ok l =>
    obtain ⟨⟨a, ha⟩, hpv⟩ := hp
    obtain ⟨⟨b, hb⟩, hqv⟩ := hq
    rw [ha, hb]
    intro k
    rw [hpv, hqv]
  | error f =>
    rw [hp, hq]

namespace Live

def settleAll (l : Table Bytes) : List Transfer → Except Failure (Table Bytes)
  | [] => .ok l
  | t :: ts => (move l t).bind fun p => settleAll (settle l p) ts

section Waived

variable {l : Table Bytes}

theorem registered_settle (p : Balance × Balance) (address : String) :
    registered (settle l p) address = registered l address := by
  rw [settle, registered_apply_of_ne _ _ (fun he => by cases congrArg Key.ns he),
    registered_apply_of_ne _ _ (fun he => by cases congrArg Key.ns he)]

theorem Coherent.balance_waived (h : Coherent l) {a : Account} {any seen : Bool}
    (hr : any = false → seen = true → registered l a.address) :
    (Query.balance a !(any || seen)).eval l = (Query.balance a !any).eval l := by
  rw [h.eval_balance, h.eval_balance]
  cases any with
  | true => rfl
  | false =>
    cases seen with
    | false => rfl
    | true => simp [hr rfl rfl]

theorem Coherent.move_waived (h : Coherent l) {t : Transfer} {seen : List Account}
    (hr : ∀ a ∈ t.asked.filter (· ∈ seen), registered l a.address) : move l (t.waived seen) = move l t := by
  have hs : t.anySender = false → decide ((⟨t.sender, t.token⟩ : Account) ∈ seen) = true →
      registered l t.sender := fun hany hseen =>
    hr ⟨t.sender, t.token⟩ (List.mem_filter.mpr ⟨by simp [Transfer.asked, hany], hseen⟩)
  have hre : t.anyReceiver = false → decide ((⟨t.receiver, t.token⟩ : Account) ∈ seen) = true →
      registered l t.receiver := fun hany hseen =>
    hr ⟨t.receiver, t.token⟩ (List.mem_filter.mpr ⟨by simp [Transfer.asked, hany], hseen⟩)
  simp only [move, Transfer.waived, h.balance_waived (a := ⟨t.sender, t.token⟩) hs,
    h.balance_waived (a := ⟨t.receiver, t.token⟩) hre]

theorem Coherent.settleAll_waived (h : Coherent l) {seen : List Account} {ts : List Transfer}
    (hr : ∀ a ∈ Transfer.rechecked seen ts, registered l a.address) :
    settleAll l (Transfer.waivedAll seen ts) = settleAll l ts := by
  induction ts generalizing l seen with
  | nil => rfl
  | cons t ts ih =>
    rw [Transfer.waivedAll, settleAll, settleAll, h.move_waived fun a ha => hr a (List.mem_append_left _ ha)]
    cases hmove : move l t with
    | error f => rfl
    | ok p =>
      refine ih (h.settled hmove) fun a ha => ?_
      rw [registered_settle]
      exact hr a (List.mem_append_right _ ha)

theorem Coherent.registered_of_settleAll (h : Coherent l) {seen : List Account} {ts : List Transfer}
    {l' : Table Bytes} (hok : settleAll l ts = .ok l') :
    ∀ a ∈ Transfer.rechecked seen ts, registered l a.address := by
  induction ts generalizing l seen with
  | nil => intro a ha; cases ha
  | cons t ts ih =>
    obtain ⟨p, hmove, hrest⟩ := Query.bind_eq_ok.mp hok
    intro a ha
    rcases List.mem_append.mp ha with ha | ha
    · obtain ⟨u, sent, received, -, hs, hr, -⟩ := h.move_eq_ok hmove
      have hasked := (List.mem_filter.mp ha).1
      rcases List.mem_append.mp hasked with hasked | hasked
      · split at hasked
        · cases hasked
        · rename_i hany
          rw [List.mem_singleton.mp hasked]
          exact hs (Bool.eq_false_iff.mpr hany)
      · split at hasked
        · cases hasked
        · rename_i hany
          rw [List.mem_singleton.mp hasked]
          exact hr (Bool.eq_false_iff.mpr hany)
    · rw [← registered_settle p]
      exact ih (h.settled hmove) hrest a ha

end Waived

section Batch

variable {l : Table Bytes}

theorem waive_eq_waived {m : Touched} {seen : List Account} (hm : ∀ a, (m[a]?).isSome = decide (a ∈ seen))
    (t : Transfer) : waive m t = t.waived seen := by
  rw [waive, hm, hm, Transfer.waived]

theorem Coherent.foldlM_transfer (h : Coherent l) {m : Touched} (hm : Fits m) {seen : List Account}
    (hseen : ∀ a, (m[a]?).isSome = decide (a ∈ seen)) (ts : List Transfer) :
    ((ts.foldlM Touched.transfer m).eval l).map (overlay l) =
      settleAll (overlay l m) (Transfer.waivedAll seen ts) := by
  induction ts generalizing m seen with
  | nil => rfl
  | cons t ts ih =>
    rw [List.foldlM_cons, Query.eval_bind, h.eval_touched_transfer hm, Transfer.waivedAll, settleAll,
      waive_eq_waived hseen]
    cases hmove : move (overlay l m) (t.waived seen) with
    | error f => rfl
    | ok p =>
      obtain ⟨s, r⟩ := p
      obtain ⟨hs, has, hr, har⟩ := (hm.coherent_overlay h).move_plain hmove
      have hnext : ∀ a, (((m.put s).put r)[a]?).isSome = decide (a ∈ t.accounts ++ seen) := by
        intro a
        change _ = decide (a ∈ (⟨t.sender, t.token⟩ : Account) :: ⟨t.receiver, t.token⟩ :: seen)
        rw [getElem?_put, getElem?_put, has, har]
        by_cases hreceiver : (⟨t.receiver, t.token⟩ : Account) = a
        · simp [Transfer.waived, hreceiver]
        · by_cases hsender : (⟨t.sender, t.token⟩ : Account) = a
          · simp [Transfer.waived, hreceiver, hsender]
          · simp [Transfer.waived, hreceiver, hsender, Ne.symm hreceiver, Ne.symm hsender, hseen]
      have hover : overlay l ((m.put s).put r) = settle (overlay l m) (s, r) := by
        rw [(hm.put hs).overlay_put hr, hm.overlay_put hs]
        rfl
      simp only [Except.map, Except.bind]
      rw [← hover]
      exact ih ((hm.put hs).put hr) hnext

theorem Coherent.eval_transfer_effective (h : Coherent l) {t : Transfer} (ht : t.isEffective) :
    (transfer t).plan.eval l = (move l t).map fun p =>
      ⟨{ Envelope.empty.withTransfer { t with kind := Transfer.recordedKind } with
          balances := some (((∅ : Touched).put p.1).put p.2) }, (((∅ : Touched).put p.1).put p.2).changes⟩ := by
  simp only [Transfer.isEffective, Bool.and_eq_true, bne_iff_ne, Bool.not_eq_true'] at ht
  rw [eval_transfer, if_neg ht.1, if_neg (by simp [ht.2]), h.eval_touched_transfer fits_empty, overlay_empty,
    waive_empty]
  cases move l t <;> rfl

theorem Coherent.transferEach_leaves {s : Store} {t : Transaction} (h : Coherent (t.view s)) {ts : List Transfer}
    (hts : ∀ r ∈ ts, r.isEffective) : Leaves s (transferEach s t ts) (settleAll (t.view s) ts) := by
  induction ts generalizing t with
  | nil => exact ⟨⟨(), rfl⟩, rfl⟩
  | cons r ts ih =>
    have heval := h.eval_transfer_effective (hts r (by simp))
    have hview := Query.view_perform (transfer r).plan s t s
    rw [Query.perform_eq, heval] at hview
    rw [settleAll, transferEach, (writesLast_transfer r).perform_eq, Query.perform_eq, heval]
    cases hmove : move (t.view s) r with
    | error f => rfl
    | ok p =>
      simp only [hmove, Except.map] at hview ⊢
      change _ = overlay (t.view s) _ at hview
      rw [h.overlay_pair hmove] at hview
      have hrest := ih (t := _) (hview ▸ h.settled hmove) fun q hq => hts q (by simp [hq])
      rw [hview] at hrest
      exact hrest

theorem Coherent.multitransfer_leaves {s : Store} {t : Transaction} (h : Coherent (t.view s)) (ts : List Transfer) :
    Leaves s ((multitransfer ts).perform s t)
      (settleAll (t.view s) (Transfer.waivedAll [] (ts.filter (·.isEffective)))) := by
  have hnone : ∀ a : Account, ((∅ : Touched)[a]?).isSome = decide (a ∈ []) := by simp
  have hfold := h.foldlM_transfer fits_empty hnone (ts.filter (·.isEffective))
  have hview := Query.view_perform (multitransfer ts).plan s t s
  rw [(writesLast_multitransfer ts).perform_eq]
  rw [Query.perform_eq] at hview ⊢
  rw [overlay_empty] at hfold
  rw [plan_multitransfer, Query.eval_bind, Touched.transferAll] at hview ⊢
  rw [← hfold]
  cases hm : ((ts.filter (·.isEffective)).foldlM Touched.transfer ∅).eval (t.view s) with
  | error f => rfl
  | ok m =>
    rw [hm] at hview
    exact ⟨⟨_, rfl⟩, hview⟩

theorem isEffective_waivedAll {seen : List Account} {ts : List Transfer} (hts : ∀ t ∈ ts, t.isEffective) :
    ∀ t ∈ Transfer.waivedAll seen ts, t.isEffective := by
  induction ts generalizing seen with
  | nil => intro t ht; cases ht
  | cons u ts ih =>
    intro t ht
    rcases List.mem_cons.mp ht with rfl | ht
    · exact hts u (by simp)
    · exact ih (fun r hr => hts r (by simp [hr])) t ht

end Batch

end Live

/-- A batch has the outcome of its transfers that have an effect, one after the other, each of which asks
for a wallet only where none before it has touched the account. This is the outcome of the transfers as
they are, where all wallets that they ask for again are there; and only then do these all succeed. -/
theorem multitransfer_outcome {c : Contract} {x : Session} (h : c.Reaches x) (tx : String) (ts : List Transfer) :
    let t := x.transaction tx
    let entries := ts.filter (·.isEffective)
    let batch := (multitransfer ts).perform x.store t
    let each := transferEach x.store t entries
    SameOutcome x.store batch (transferEach x.store t (Transfer.waivedAll [] entries)) ∧
      ((∀ a ∈ Transfer.rechecked [] entries, registered (t.view x.store) a.address) →
        SameOutcome x.store batch each) ∧
      (each.1 = .ok () ↔ (∃ e, batch.1 = .ok e) ∧
        ∀ a ∈ Transfer.rechecked [] entries, registered (t.view x.store) a.address) := by
  intro t entries batch each
  have hview := h.coherent.view tx
  have heff : ∀ r ∈ entries, r.isEffective := fun r hr => (List.mem_filter.mp hr).2
  have hbatch : Leaves x.store batch (settleAll (t.view x.store) (Transfer.waivedAll [] entries)) :=
    hview.multitransfer_leaves ts
  have heach : Leaves x.store each (settleAll (t.view x.store) entries) := hview.transferEach_leaves heff
  have hsame (hr : ∀ a ∈ Transfer.rechecked [] entries, registered (t.view x.store) a.address) :
      Leaves x.store batch (settleAll (t.view x.store) entries) := by
    rw [← hview.settleAll_waived hr]
    exact hbatch
  refine ⟨?_, fun hr => (hsame hr).sameOutcome heach, fun hok => ?_, fun ⟨⟨e, he⟩, hr⟩ => ?_⟩
  · exact hbatch.sameOutcome (hview.transferEach_leaves (isEffective_waivedAll heff))
  · cases hs : settleAll (t.view x.store) entries with
    | error f =>
      rw [hs] at heach
      cases hok.symm.trans heach
    | ok l =>
      have hr : ∀ a ∈ Transfer.rechecked [] entries, registered (t.view x.store) a.address :=
        hview.registered_of_settleAll hs
      have hleft := hsame hr
      rw [hs] at hleft
      exact ⟨hleft.1, hr⟩
  · have hleft := hsame hr
    cases hs : settleAll (t.view x.store) entries with
    | error f =>
      rw [hs] at hleft
      cases he.symm.trans hleft
    | ok l =>
      rw [hs] at heach
      exact heach.1.choose_spec

def thereAndBack : List Transfer :=
  [⟨"", "GLD", "alice", "bob", true, false, ⟨500000000, by decide⟩, "1", 0⟩,
   ⟨"", "GLD", "bob", "alice", false, false, ⟨500000000, by decide⟩, "2", 0⟩]

/-- Bob has no wallet, for which the second transfer asks unless it is in a batch with the first. -/
theorem multitransfer_outcome_thereAndBack :
    ((multitransfer thereAndBack).perform listed.store (listed.transaction "t")).1.isOk ∧
      (transferEach listed.store (listed.transaction "t") thereAndBack).1 ≠ .ok () := by
  have hall : thereAndBack.filter (·.isEffective) = thereAndBack := by decide
  have hbob : ¬ ∀ a ∈ Transfer.rechecked [] thereAndBack,
      registered ((listed.transaction "t").view listed.store) a.address := by
    decide +kernel
  obtain ⟨-, -, hiff⟩ := multitransfer_outcome reaches_listed "t" thereAndBack
  rw [hall] at hiff
  exact ⟨by decide +kernel, fun hok => hbob (hiff.mp hok).2⟩

end TokenLedger
