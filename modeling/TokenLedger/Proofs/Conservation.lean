import TokenLedger.Proofs.Operation

/-! What circulates of a listed token is its supply. Every operation keeps it so, and none changes what
circulates of a token without writing the token itself. -/

namespace TokenLedger

namespace Live

def Conserved (l : Table Bytes) : Prop :=
  ∀ symbol t, token? l symbol = some t → total l symbol = t.supply.units

theorem conserved_empty : Conserved ∅ := by
  intro symbol t ht
  simp [token?] at ht

section Carried

variable {c : Contract} {l : Table Bytes} {op : Operation} {args : List String} {cs : List Change}
  {symbol : String}

/-- Operations write balances without a credit and a lock-up date. -/
theorem Carried.plain (h : Coherent l) (hc : Carried c l op args cs) : ∀ ch ∈ cs, ch.Plain := by
  have hb (a : Account) (x : Amount) : Balance.Plain { balance l a with amount := x } :=
    (h.balance_plain a).1.with_amount x
  cases hc with
  | nothing => simp
  | register => simp [Change.Plain, (Balance.plain_zero _).with_amount]
  | remove => simp [Change.Plain]
  | update => simp [Change.Plain]
  | wallet => simp [Change.Plain]
  | initialise address symbol => simp [Change.Plain, (h.balance_plain ⟨address, symbol⟩).1]
  | transfer _ _ _ moved =>
    obtain ⟨hs, -, hr, -⟩ := h.move_plain moved
    exact ((fits_empty.put hs).put hr).plain_changes
  | multitransfer _ moved =>
    exact (h.transferAll_fits fits_empty moved).plain_changes
  | mint => simp [Change.Plain, hb]
  | burn => simp [Change.Plain, hb]
  | firstScores => simp [Change.Plain]
  | newScores => simp [Change.Plain]

theorem total_apply_same (l : Table Bytes) {b : Balance} (hb : b.Plain)
    (hu : b.amount.units = held l b.account) (symbol : String) :
    total (apply l (.balance b)) symbol = total l symbol := by
  have ht := total_apply_balance l hb symbol
  rw [hu] at ht
  omega

theorem sender_ne_receiver {t : Transfer} (h : t.isEffective) : t.sender ≠ t.receiver := (isEffective_iff.mp h).1

theorem Carried.total_overlay (h : Coherent l) {m : Touched} {ts : List Transfer}
    (hm : (Touched.transferAll ∅ ts).eval l = .ok m) (symbol : String) :
    total (overlay l m) symbol = total l symbol := by
  refine (h.transferAll_induction (P := fun n => total n symbol = total l symbol) ?_ fits_empty ?_ hm).2
  · intro m t s r _ heff hfits hmove hP
    have hne : (waive m t).sender ≠ (waive m t).receiver := sender_ne_receiver heff
    rw [(hfits.coherent_overlay h).total_settle hmove hne, hP]
  · rw [overlay_empty]

theorem total_apply_of_token_ne (l : Table Bytes) {b : Balance} (hb : b.Plain) {symbol : String}
    (hs : b.token ≠ symbol) : total (apply l (.balance b)) symbol = total l symbol := by
  have ht := total_apply_balance l hb symbol
  rw [if_neg hs, if_neg hs] at ht
  exact ht

theorem Carried.total_pair (h : Coherent l) {t : Transfer} (heff : t.isEffective) {s r : Balance}
    (hmove : move l t = .ok (s, r)) (symbol : String) :
    total (overlay l (((∅ : Touched).put s).put r)) symbol = total l symbol := by
  rw [h.overlay_pair hmove]
  exact h.total_settle hmove (sender_ne_receiver heff) symbol

theorem Carried.steady (h : Coherent l) (hc : Carried c l op args cs)
    (hk : ∀ ch ∈ cs, ch.key ≠ .token symbol) : total (applyAll l cs) symbol = total l symbol := by
  have hne {u : Token} (hu : Change.token u ∈ cs) : u.symbol ≠ symbol := fun he => hk _ hu (he ▸ rfl)
  have hsupply {a : Account} {t : Token} {x y : Amount} (ht : token? l a.token = some t)
      (hu : t.symbol ≠ symbol) : total (applyAll l [.balance { balance l a with amount := x },
        .token { t with supply := y }]) symbol = total l symbol := by
    obtain ⟨hp, ha⟩ := h.balance_plain a
    have htoken : (balance l a).token ≠ symbol := by
      rw [show (balance l a).token = a.token from congrArg Account.token ha, ← h.token?_symbol ht]
      exact hu
    rw [applyAll_cons, applyAll_cons, applyAll_nil, total_apply_token,
      total_apply_of_token_ne l (hp.with_amount x) htoken]
  cases hc with
  | nothing => rfl
  | @register text holder t read unlisted unheld =>
    have hs : t.symbol ≠ symbol := hne (by simp)
    have hp := (Balance.plain_zero ⟨holder, t.symbol⟩).with_amount t.supply
    rw [applyAll_cons, applyAll_cons, applyAll_nil, total_apply_of_token_ne _ hp hs,
      total_apply_token]
  | remove => exact total_apply_unlist l _ symbol
  | update => exact total_apply_token l _ symbol
  | wallet => exact total_apply_wallet l _ symbol
  | initialise address token =>
    obtain ⟨hp, ha⟩ := h.balance_plain ⟨address, token⟩
    exact total_apply_same l hp (by rw [ha, held]) symbol
  | transfer _ _ effective moved => exact Carried.total_pair h effective moved symbol
  | multitransfer _ moved => exact Carried.total_overlay h moved symbol
  | @mint _ r t x y _ listed =>
    exact hsupply (a := ⟨r.receiver, r.token⟩) listed (hne (u := { t with supply := y }) (by simp))
  | @burn _ r t x y _ listed =>
    exact hsupply (a := ⟨r.sender, r.token⟩) listed (hne (u := { t with supply := y }) (by simp))
  | firstScores => exact total_apply_scores l _ _ symbol
  | newScores => exact total_apply_scores l _ _ symbol

theorem token?_applyAll (hk : ∀ ch ∈ cs, ch.key ≠ .token symbol) :
    token? (applyAll l cs) symbol = token? l symbol := by
  rw [token?, token?, getElem?_applyAll_of_forall fun ch hch he => hk ch hch (Key.encode_injective he)]

theorem token?_apply_balance (b : Balance) (symbol : String) :
    token? (apply l (.balance b)) symbol = token? l symbol :=
  token?_apply_of_ne l (.balance b) (by simp [Change.key, Account.key, Key.token])

/-- A symbol of which nobody holds anything is listed with its whole supply at one address. -/
theorem Conserved.register (h : Coherent l) (hl : Conserved l) (t : Token) (holder : String)
    (h0 : ∀ a : Account, a.token = t.symbol → held l a = 0) :
    Conserved (applyAll l [.token t, .balance { Balance.zero ⟨holder, t.symbol⟩ with amount := t.supply }]) := by
  intro symbol u hu
  have hp := (Balance.plain_zero ⟨holder, t.symbol⟩).with_amount t.supply
  have ht := total_apply_balance (apply l (.token t)) hp symbol
  have hheld : held (apply l (.token t)) ⟨holder, t.symbol⟩ = 0 := by
    rw [held, balance, balance?_apply_of_ne l _ (by simp [Change.key, Account.key, Key.token])]
    exact h0 ⟨holder, t.symbol⟩ rfl
  rw [applyAll_cons, applyAll_cons, applyAll_nil, token?_apply_balance, token?_apply_token] at hu
  rw [total_apply_token] at ht
  change _ + (if t.symbol = symbol then held (apply l (.token t)) ⟨holder, t.symbol⟩ else 0)
    = _ + (if t.symbol = symbol then t.supply.units else 0) at ht
  rw [applyAll_cons, applyAll_cons, applyAll_nil]
  by_cases hs : t.symbol = symbol
  · rw [if_pos hs] at hu ht
    rw [if_pos hs, hheld, h.total_eq_zero (hs ▸ h0), Nat.zero_add, Nat.add_zero] at ht
    cases hu
    exact ht
  · rw [if_neg hs] at hu ht
    rw [if_neg hs] at ht
    rw [← hl symbol u hu]
    exact ht

theorem Conserved.supply (h : Coherent l) (hl : Conserved l) {t : Token} {b : Balance} (hb : b.Plain)
    (hlisted : token? l b.token = some t) {y : Amount}
    (hy : b.amount.units + t.supply.units = held l b.account + y.units) :
    Conserved (applyAll l [.balance b, .token { t with supply := y }]) := by
  intro symbol u hu
  have hsymbol := h.token?_symbol hlisted
  have ht := total_apply_balance l hb symbol
  rw [applyAll_cons, applyAll_cons, applyAll_nil, token?_apply_token, token?_apply_balance] at hu
  change (if t.symbol = symbol then _ else _) = _ at hu
  rw [applyAll_cons, applyAll_cons, applyAll_nil, total_apply_token]
  rw [hsymbol] at hu
  by_cases hs : b.token = symbol
  · rw [if_pos hs] at hu ht
    rw [if_pos hs, hl symbol t (hs ▸ hlisted)] at ht
    cases hu
    change _ = y.units
    omega
  · rw [if_neg hs] at hu ht
    rw [if_neg hs] at ht
    rw [← hl symbol u hu]
    exact ht

/-- A token is taken from the list or described anew with the same supply. -/
theorem Conserved.unlist (hl : Conserved l) (s : String) : Conserved (apply l (.unlist s)) := by
  intro symbol u hu
  rw [token?_apply_unlist] at hu
  split_ifs at hu with hs
  rw [total_apply_unlist, hl symbol u hu]

theorem Conserved.describe (hl : Conserved l) {t current : Token} (ht : token? l t.symbol = some current)
    (hs : t.supply = current.supply) : Conserved (apply l (.token t)) := by
  intro symbol u hu
  rw [token?_apply_token] at hu
  rw [total_apply_token]
  split_ifs at hu with he
  · cases hu
    rw [← he, hl _ current ht, hs]
  · exact hl symbol u hu

theorem Conserved.settle (h : Coherent l) (hl : Conserved l) {t : Transfer} (hne : t.sender ≠ t.receiver)
    {s r : Balance} (hmove : move l t = .ok (s, r)) : Conserved (Live.settle l (s, r)) := by
  intro symbol u hu
  rw [Live.settle, token?_apply_balance, token?_apply_balance] at hu
  rw [h.total_settle hmove hne, hl symbol u hu]

theorem Carried.conserved (h : Coherent l) (hl : Conserved l) (hc : Carried c l op args cs) :
    Conserved (applyAll l cs) := by
  have hother (hk : ∀ ch ∈ cs, ∀ symbol, ch.key ≠ .token symbol) : Conserved (applyAll l cs) := by
    intro symbol u hu
    rw [token?_applyAll fun ch hch => hk ch hch symbol] at hu
    rw [hc.steady h fun ch hch => hk ch hch symbol, hl symbol u hu]
  have hmoved {m : Touched} (hm : Fits m) (ht : ∀ symbol, total (overlay l m) symbol = total l symbol) :
      Conserved (overlay l m) := by
    intro symbol u hu
    rw [hm.token?_overlay] at hu
    rw [ht, hl symbol u hu]
  cases hc with
  | nothing => exact hl
  | @register text holder t read unlisted unheld => exact hl.register h t holder unheld
  | remove => exact hl.unlist _
  | update read listed => exact hl.describe listed rfl
  | wallet => exact hother (by simp [Change.key, Key.wallet, Key.token])
  | initialise => exact hother (by simp [Change.key, Account.key, Key.token])
  | transfer _ _ effective moved =>
    obtain ⟨hs, -, hr, -⟩ := h.move_plain moved
    exact hmoved ((fits_empty.put hs).put hr) (Carried.total_pair h effective moved)
  | multitransfer _ moved =>
    exact hmoved (h.transferAll_fits fits_empty moved) (Carried.total_overlay h moved)
  | @mint _ r t x y _ listed added issued =>
    obtain ⟨hp, ha⟩ := h.balance_plain ⟨r.receiver, r.token⟩
    have htoken : (balance l ⟨r.receiver, r.token⟩).token = r.token := congrArg Account.token ha
    refine hl.supply h (hp.with_amount x) (by rw [← htoken] at listed; exact listed) ?_
    change x.units + _ = held l (balance l ⟨r.receiver, r.token⟩).account + _
    rw [ha]
    omega
  | @burn _ r t x y _ listed taken destroyed =>
    obtain ⟨hp, ha⟩ := h.balance_plain ⟨r.sender, r.token⟩
    have htoken : (balance l ⟨r.sender, r.token⟩).token = r.token := congrArg Account.token ha
    refine hl.supply h (hp.with_amount x) (by rw [← htoken] at listed; exact listed) ?_
    change x.units + _ = held l (balance l ⟨r.sender, r.token⟩).account + _
    rw [ha]
    omega
  | firstScores => exact hother (by simp [Change.key, Key.scores, Key.token])
  | newScores => exact hother (by simp [Change.key, Key.scores, Key.token])

end Carried

end Live
end TokenLedger
