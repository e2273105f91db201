import TokenLedger.Proofs.Batch
import TokenLedger.Proofs.Integrality

/-! What a batch comes to. However often an account pays and is paid in it, in the end its amount has changed by the
difference; no other record is written, and the order of the transfers leaves no trace. -/

namespace TokenLedger

namespace Transfer

/-- What transfers of some sort move in all. -/
def volume (p : Transfer → Prop) [DecidablePred p] (ts : List Transfer) : Nat :=
  (ts.map fun t => if p t then t.amount.units else 0).sum

section Volume

variable (p : Transfer → Prop) [DecidablePred p]

theorem volume_cons (t : Transfer) (ts : List Transfer) :
    volume p (t :: ts) = (if p t then t.amount.units else 0) + volume p ts := by
  simp [volume]

theorem volume_concat (ts : List Transfer) (t : Transfer) :
    volume p (ts ++ [t]) = volume p ts + if p t then t.amount.units else 0 := by
  simp [volume]

theorem volume_perm {ts us : List Transfer} (h : ts.Perm us) : volume p ts = volume p us :=
  (h.map _).sum_eq

theorem volume_le {ts us : List Transfer} (h : ts.Subperm us) : volume p ts ≤ volume p us := by
  obtain ⟨vs, hperm, hsub⟩ := h
  rw [← volume_perm p hperm]
  exact (hsub.map _).sum_le_sum fun _ _ => Nat.zero_le _

end Volume

def paidTo (a : Account) (ts : List Transfer) : Nat := volume (fun t => (⟨t.receiver, t.token⟩ : Account) = a) ts

def paidFrom (a : Account) (ts : List Transfer) : Nat := volume (fun t => (⟨t.sender, t.token⟩ : Account) = a) ts

/-- The listed token admits the date and the amount. -/
def Admitted (l : Table Bytes) (t : Transfer) : Prop :=
  ∃ v, Live.token? l t.token = some v ∧ v.lockUpDate ≤ t.date ∧ (v.type = .nftPod → Amount.scale ∣ t.amount.units)

end Transfer

open Transfer

namespace Live

structure Settled (l : Table Bytes) (ts : List Transfer) (m : Touched) : Prop where
  fits : Fits m
  touched : ∀ a : Account, a ∈ m ↔ a ∈ ts.flatMap Transfer.accounts
  amount : ∀ a, ∃ x : Amount, balance (overlay l m) a = { balance l a with amount := x } ∧
    x.units + paidFrom a ts = held l a + paidTo a ts
  admitted : ∀ t ∈ ts, t.Admitted l

section Settled

variable {l : Table Bytes} {ts : List Transfer} {m : Touched}

theorem settled_empty : Settled l [] ∅ where
  fits := fits_empty
  touched := by simp
  amount a := ⟨(balance l a).amount, by rw [overlay_empty], rfl⟩
  admitted := by simp

theorem Settled.transfer (h : Coherent l) (hm : Settled l ts m) {t : Transfer} (ht : t.isEffective) {m' : Touched}
    (he : (m.transfer t).eval l = .ok m') : Settled l (ts ++ [t]) m' := by
  obtain ⟨s, r, hmove, hm', hfits, hover⟩ := h.touched_transfer_eq_ok hm.fits he
  have hcoherent := hm.fits.coherent_overlay h
  refine ⟨hfits, fun a => ?_, fun a => ?_, ?_⟩
  · obtain ⟨-, has, -, har⟩ := hcoherent.move_plain hmove
    have hparties : a ∈ t.accounts ↔ a = ⟨t.sender, t.token⟩ ∨ a = ⟨t.receiver, t.token⟩ := by
      simp [Transfer.accounts]
    have hlast : a ∈ (ts ++ [t]).flatMap Transfer.accounts ↔ a ∈ ts.flatMap Transfer.accounts ∨ a ∈ t.accounts := by
      simp
    rw [hm', mem_put, mem_put, hm.touched, hlast, hparties, has, har]
    change (⟨t.receiver, t.token⟩ : Account) = a ∨ (⟨t.sender, t.token⟩ : Account) = a ∨ _ ↔ _
    tauto
  · obtain ⟨x, hx, hunits⟩ := hm.amount a
    obtain ⟨y, hy, hmoved⟩ := hcoherent.amount_settle hmove (sender_ne_receiver ht) a
    change y.units + (if (⟨t.sender, t.token⟩ : Account) = a then t.amount.units else 0) =
      (balance (overlay l m) a).amount.units +
        if (⟨t.receiver, t.token⟩ : Account) = a then t.amount.units else 0 at hmoved
    have hbefore : (balance (overlay l m) a).amount = x := by rw [hx]
    rw [hbefore] at hmoved
    refine ⟨y, by rw [hover, hy, hx], ?_⟩
    rw [paidFrom, paidTo, volume_concat, volume_concat, ← paidFrom, ← paidTo]
    omega
  · intro u hu
    rcases List.mem_append.mp hu with hu | hu
    · exact hm.admitted u hu
    · rw [List.mem_singleton.mp hu]
      obtain ⟨v, hv, hdate, hamount⟩ := hcoherent.move_admitted hmove
      rw [hm.fits.token?_overlay] at hv
      exact ⟨v, hv, Int64.not_lt.mp hdate, TokenType.admits_iff_nftPod.mp hamount⟩

theorem Settled.transferAll (h : Coherent l) {us : List Transfer}
    (he : (Touched.transferAll ∅ us).eval l = .ok m) : Settled l (us.filter (·.isEffective)) m := by
  refine Query.foldlM_induction (Settled l) settled_empty ?_ he
  intro ts t n n' ht hn hn'
  exact hn.transfer h (List.mem_filter.mp ht).2 hn'

theorem Settled.getElem?_of_mem (hm : Settled l ts m) {a : Account} (ha : a ∈ m) :
    m[a]? = some (balance (overlay l m) a) := by
  obtain ⟨b, hb⟩ := Option.isSome_iff_exists.mp (Std.ExtTreeMap.mem_iff_isSome_getElem?.mp ha)
  rw [hm.fits.balance_overlay, hb, Option.getD_some]

theorem Settled.eq_of_perm (hm : Settled l ts m) {us : List Transfer} {n : Touched} (hn : Settled l us n)
    (hp : us.Perm ts) : n = m := by
  refine Std.ExtTreeMap.ext_getElem? fun a => ?_
  have htouched : a ∈ n ↔ a ∈ m := by
    rw [hm.touched, hn.touched]
    exact (hp.flatMap_right _).mem_iff
  by_cases ha : a ∈ m
  · obtain ⟨x, hx, hxunits⟩ := hm.amount a
    obtain ⟨y, hy, hyunits⟩ := hn.amount a
    have hfrom : paidFrom a us = paidFrom a ts := volume_perm _ hp
    have hto : paidTo a us = paidTo a ts := volume_perm _ hp
    rw [hfrom, hto] at hyunits
    have hxy : y = x := Amount.ext (by omega)
    rw [hm.getElem?_of_mem ha, hn.getElem?_of_mem (htouched.mpr ha), hx, hy, hxy]
  · have hna : a ∉ n := fun hmem => ha (htouched.mp hmem)
    rw [Std.ExtTreeMap.getElem?_eq_none ha, Std.ExtTreeMap.getElem?_eq_none hna]

theorem Settled.getElem?_writes (hm : Settled l ts m) {s : Store} {t u : Transaction} (hl : t.view s = l)
    (hu : u.writes = (t.applyAll m.changes).writes) :
    (∀ a ∈ ts.flatMap Transfer.accounts,
        u.writes[a.key.encode]? = some (some (Balance.codec.write (balance (overlay l m) a)))) ∧
      ∀ k : String, (∀ a ∈ ts.flatMap Transfer.accounts, a.key.encode ≠ k) → u.writes[k]? = t.writes[k]? := by
  constructor
  · intro a ha
    have hb := hm.getElem?_of_mem ((hm.touched a).mpr ha)
    have haccount := (hm.fits a _ hb).1
    have hchange : Change.balance (balance (overlay l m) a) ∈ m.changes :=
      hm.fits.mem_changes.mpr ⟨balance (overlay l m) a, by rw [haccount, hb], rfl⟩
    have hpending : a.key.encode ∈ u.writes := by
      rw [hu, Transaction.mem_writes_applyAll]
      exact .inr ⟨_, hchange, by rw [Change.key, haccount]⟩
    have hview : (u.view s)[a.key.encode]? = some (Balance.codec.write (balance (overlay l m) a)) := by
      rw [Transaction.view_congr hu, view_applyAll, hl]
      change (overlay l m)[a.key.encode]? = _
      rw [hm.fits.getElem?_overlay, hb]
    obtain ⟨w, hw⟩ := Option.isSome_iff_exists.mp (Std.ExtTreeMap.mem_iff_isSome_getElem?.mp hpending)
    rw [Transaction.getElem?_view_of_some hw] at hview
    rw [hw, hview]
  · intro k hk
    rw [hu]
    refine Transaction.getElem?_writes_applyAll fun ch hch => ?_
    obtain ⟨b, hb, rfl⟩ := hm.fits.mem_changes.mp hch
    exact hk _ ((hm.touched _).mp (Std.ExtTreeMap.mem_iff_isSome_getElem?.mpr (by rw [hb]; rfl)))

end Settled

theorem Coherent.multitransfer_settled {s : Store} {t : Transaction} (h : Coherent (t.view s)) {ts : List Transfer}
    {e : Envelope} {u : Transaction} (hok : (multitransfer ts).perform s t = (.ok e, u)) :
    ∃ m, Settled (t.view s) (ts.filter (·.isEffective)) m ∧ u.writes = (t.applyAll m.changes).writes ∧
      u.view s = overlay (t.view s) m := by
  rw [(writesLast_multitransfer ts).perform_eq] at hok
  obtain ⟨e', he, -, hwrites, hview⟩ := Query.perform_eq_ok hok
  obtain ⟨m, hm, hchanges⟩ := multitransfer_eq_ok he
  rw [hchanges] at hwrites hview
  exact ⟨m, Settled.transferAll h hm, hwrites, hview⟩

end Live

open Live

/-- Whatever transaction a batch succeeds in, each account has its amount changed by what the transfers that have an
effect pay to it and from it, and all of these are admitted by their tokens. The records of these accounts are written
and no other ones, and the same transfers leave the same documents in every order in which they succeed. -/
theorem multitransfer_net {c : Contract} {x : Session} (h : c.Reaches x) (tx : String) {ts : List Transfer}
    {e : Envelope} {u : Transaction} (hok : (multitransfer ts).perform x.store (x.transaction tx) = (.ok e, u)) :
    let before := (x.transaction tx).view x.store
    let after := u.view x.store
    let entries := ts.filter (·.isEffective)
    (∀ a, ∃ y : Amount, balance after a = { balance before a with amount := y } ∧
        y.units + paidFrom a entries = held before a + paidTo a entries) ∧
      (∀ t ∈ entries, t.Admitted before) ∧
      (∀ a ∈ entries.flatMap Transfer.accounts,
        u.writes[a.key.encode]? = some (some (Balance.codec.write (balance after a)))) ∧
      (∀ k : String, (∀ a ∈ entries.flatMap Transfer.accounts, a.key.encode ≠ k) →
        u.writes[k]? = (x.transaction tx).writes[k]?) ∧
      ∀ (us : List Transfer) (e' : Envelope) (u' : Transaction), us.Perm ts →
        (multitransfer us).perform x.store (x.transaction tx) = (.ok e', u') → u'.writes = u.writes := by
  intro before after entries
  have hcoherent : Coherent before := h.coherent.view tx
  obtain ⟨m, hm, hwrites, hview⟩ := hcoherent.multitransfer_settled hok
  obtain ⟨hwritten, hother⟩ := hm.getElem?_writes rfl hwrites
  have hafter : after = overlay before m := hview
  rw [hafter]
  refine ⟨hm.amount, hm.admitted, hwritten, hother, fun us e' u' hp hok' => ?_⟩
  obtain ⟨n, hn, hwrites', -⟩ := hcoherent.multitransfer_settled hok'
  rw [hwrites', hwrites, hm.eq_of_perm hn (hp.filter _)]

def passingOn : List Transfer :=
  [⟨"", "GLD", "alice", "bob", true, false, .whole 3, "1", 0⟩,
   ⟨"", "GLD", "bob", "carol", true, false, .whole 2, "2", 0⟩,
   ⟨"", "GLD", "alice", "bob", true, false, .whole 1, "3", 0⟩]

/-- If she pays the second time first, and he pays carol last, then the same is written. -/
theorem multitransfer_net_passingOn :
    ∃ e u e' u', (multitransfer passingOn).perform listed.store (listed.transaction "t") = (.ok e, u) ∧
      (multitransfer (passingOn.rotateRight 1)).perform listed.store (listed.transaction "t") = (.ok e', u') ∧
      held (u.view listed.store) ⟨"bob", "GLD"⟩ = 200000000 ∧ u'.writes = u.writes := by
  obtain ⟨e, hu⟩ := eq_ok_of_isOk (p := (multitransfer passingOn).perform listed.store (listed.transaction "t"))
    (by decide +kernel)
  obtain ⟨e', hu'⟩ := eq_ok_of_isOk
    (p := (multitransfer (passingOn.rotateRight 1)).perform listed.store (listed.transaction "t")) (by decide +kernel)
  obtain ⟨hamount, -, -, -, hperm⟩ := multitransfer_net reaches_listed "t" hu
  obtain ⟨y, hy, hunits⟩ := hamount ⟨"bob", "GLD"⟩
  have hnothing : held ((listed.transaction "t").view listed.store) ⟨"bob", "GLD"⟩ = 0 := by decide +kernel
  have hfrom : paidFrom ⟨"bob", "GLD"⟩ (passingOn.filter (·.isEffective)) = 200000000 := by decide
  have hto : paidTo ⟨"bob", "GLD"⟩ (passingOn.filter (·.isEffective)) = 400000000 := by decide
  rw [hnothing, hfrom, hto] at hunits
  refine ⟨e, _, e', _, hu, hu', ?_, hperm _ e' _ (by decide) hu'⟩
  rw [held, hy]
  change y.units = _
  omega

end TokenLedger
