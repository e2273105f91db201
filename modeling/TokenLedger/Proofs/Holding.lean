import TokenLedger.Proofs.Live
import TokenLedger.Proofs.Writing

/-! Who holds a token. The ledger asks this by going through all balances; what it does with the answer
depends only on the balances that are not zero. -/

namespace TokenLedger

namespace Query

variable {α β : Type}

theorem eval_mapM {f : α → Query β} {g : α → β} {as : List α} {l : Table Bytes}
    (h : ∀ a ∈ as, (f a).eval l = .ok (g a)) : (as.mapM f).eval l = .ok (as.map g) := by
  induction as with
  | nil => rfl
  | cons a as ih =>
    have ih := ih fun b hb => h b (by simp [hb])
    rw [List.mapM_cons, eval_bind, h a (by simp), Except.bind, eval_bind, ih]
    rfl

end Query

namespace Live

/-- The beginning of the texts of the keys of all balances. -/
def balancesPrefix : String := Key.scanPrefix ⟨.balances, []⟩

theorem prefix_key (a : Account) : balancesPrefix.toList.isPrefixOf a.key.encode.toList = true :=
  (Key.isPrefixOf_namespace .balances a.key).mpr ⟨rfl, List.cons_ne_nil _ _⟩

section Holders

variable {l : Table Bytes}

theorem Coherent.under_cases (h : Coherent l) {k : String} {b : Bytes}
    (hb : (Store.under balancesPrefix l)[k]? = some b) :
    ∃ r : Balance, r.Plain ∧ k = r.account.key.encode ∧ b = Balance.codec.write r := by
  rw [Store.getElem?_under] at hb
  split at hb
  · rename_i hp
    obtain ⟨c, -, rfl, -⟩ := h k b hb
    have hns := ((Key.isPrefixOf_namespace .balances c.key).mp hp).1
    obtain ⟨r, hr, hk, hd⟩ := h.balances_cases hns hb
    exact ⟨r, hr, by rw [hk], hd⟩
  · cases hb

/-- What stands under a key of the balances is what its own account holds. -/
theorem Coherent.recorded (h : Coherent l) {k : String} {document : Bytes}
    (hk : balancesPrefix.toList.isPrefixOf k.toList) (hd : l[k]? = some document) :
    ∃ r, Balance.codec.decode document = .ok r ∧ k = r.account.key.encode ∧ balance l r.account = r := by
  obtain ⟨r, hr, rfl, rfl⟩ := h.under_cases (by rw [Store.getElem?_under, if_pos hk, hd])
  refine ⟨r, Balance.decode_write hr, rfl, ?_⟩
  rw [balance, balance?, hd]
  simp [Balance.decode_write hr, Except.toOption]

theorem Coherent.exists_hits (h : Coherent l) : ∃ rs : List Balance, (∀ r ∈ rs, r.Plain) ∧
    (Store.under balancesPrefix l).toList =
      rs.map fun r => (r.account.key.encode, Balance.codec.write r) := by
  have hp : ∀ p ∈ (Store.under balancesPrefix l).toList,
      ∃ r : Balance, r.Plain ∧ p = (r.account.key.encode, Balance.codec.write r) := by
    intro p hp
    obtain ⟨r, hr, hk, hd⟩ := h.under_cases (Std.ExtTreeMap.mem_toList_iff_getElem?_eq_some.mp hp)
    exact ⟨r, hr, Prod.ext hk hd⟩
  generalize (Store.under balancesPrefix l).toList = ps at hp
  induction ps with
  | nil => exact ⟨[], by simp, rfl⟩
  | cons p ps ih =>
    obtain ⟨r, hr, rfl⟩ := hp p (by simp)
    obtain ⟨rs, hrs, rfl⟩ := ih fun q hq => hp q (by simp [hq])
    refine ⟨r :: rs, ?_, rfl⟩
    intro q hq
    rcases List.mem_cons.mp hq with rfl | hq
    · exact hr
    · exact hrs q hq

def nonzero (l : Table Bytes) (symbol : String) : Table Balance :=
  (Store.under balancesPrefix l).filterMap fun _ b =>
    (Balance.codec.decode b).toOption.filter fun r => r.token == symbol && !r.amount.isZero

def nonzeroList (l : Table Bytes) (symbol : String) : List Balance := (nonzero l symbol).toList.map Prod.snd

theorem filter_document {r : Balance} (hr : r.Plain) (p : Balance → Bool) :
    (Balance.codec.decode (Balance.codec.write r)).toOption.filter p = if p r then some r else none := by
  rw [Balance.decode_write hr]
  rfl

/-- The balances with a property, as they are found under their keys. -/
def found (l : Table Bytes) (p : Balance → Bool) : Table Balance :=
  (Store.under balancesPrefix l).filterMap fun _ b => (Balance.codec.decode b).toOption.filter p

def foundList (l : Table Bytes) (p : Balance → Bool) : List Balance := (found l p).toList.map Prod.snd

theorem nonzero_eq_found (l : Table Bytes) (symbol : String) :
    nonzero l symbol = found l fun r => r.token == symbol && !r.amount.isZero := rfl

theorem filter_foundList (l : Table Bytes) (p q : Balance → Bool) :
    (foundList l p).filter q = foundList l fun r => p r && q r := by
  rw [foundList, foundList, found, found, Std.ExtTreeMap.toList_filterMap, Std.ExtTreeMap.toList_filterMap,
    List.map_filterMap, List.map_filterMap, List.filter_filterMap]
  refine List.filterMap_congr fun hit _ => ?_
  cases hd : (Balance.codec.decode hit.2).toOption with
  | none => rfl
  | some r => cases hp : p r <;> cases hq : q r <;> simp [hp, hq, Option.filter]

theorem nonzeroList_eq (l : Table Bytes) (symbol : String) :
    nonzeroList l symbol = (foundList l (·.token == symbol)).filter (!·.amount.isZero) := by
  rw [filter_foundList, foundList, ← nonzero_eq_found, nonzeroList]

theorem Coherent.eval_balancesOfToken (h : Coherent l) (symbol : String) :
    (Query.balancesOfToken symbol).eval l = .ok (foundList l (·.token == symbol)) := by
  obtain ⟨rs, hrs, hhits⟩ := h.exists_hits
  have hscan : (Query.scan .balances []).eval l =
      .ok (rs.map fun r => (r.account.key, Balance.codec.write r)) := by
    rw [Query.scan, Query.eval]
    change (List.mapM _ (Store.under balancesPrefix l).toList : Query _).eval l = _
    rw [hhits, Query.eval_mapM (g := fun p => ((Key.decode p.1).toOption.getD ⟨.balances, []⟩, p.2))]
    · simp [Except.toOption]
    · intro p hp
      obtain ⟨r, -, rfl⟩ := List.mem_map.mp hp
      simp [Except.toOption]
  have hselect : (Query.select (.text .balances "Token" symbol)).eval l =
      .ok ((rs.filter (·.token == symbol)).map fun r => (r.account.key, Balance.codec.write r)) := by
    rw [Query.select, Query.eval_bind]
    change ((Query.scan .balances []).eval l).bind _ = _
    rw [hscan, Except.bind, Query.eval_pure, List.filter_map]
    congr 2
    refine List.filter_congr fun r hr => ?_
    exact Balance.accepts_token (hrs r hr) .balances symbol
  have hfound : foundList l (·.token == symbol) = rs.filter (·.token == symbol) := by
    rw [foundList, found, Std.ExtTreeMap.toList_filterMap, hhits, List.map_filterMap, List.filterMap_map,
      ← List.filterMap_eq_filter]
    refine List.filterMap_congr fun r hr => ?_
    rw [Function.comp_apply, filter_document (hrs r hr), Option.guard]
    cases r.token == symbol <;> rfl
  rw [hfound, Query.balancesOfToken, Query.eval_bind, hselect, Except.bind, Query.records,
    Query.eval_mapM (g := fun p => (Balance.codec.decode p.2).toOption.getD (.zero ⟨"", ""⟩))]
  · rw [List.map_map]
    congr 1
    refine (List.map_congr_left fun r hr => ?_).trans (List.map_id _)
    have hp := hrs r (List.mem_filter.mp hr).1
    simp [Balance.decode_write hp, Except.toOption]
  · intro p hp
    obtain ⟨r, hr, rfl⟩ := List.mem_map.mp hp
    have hp := hrs r (List.mem_filter.mp hr).1
    simp [Query.decoded, Balance.decode_write hp, Except.toOption]

theorem getElem?_found (l : Table Bytes) (p : Balance → Bool) (a : Account) :
    (found l p)[a.key.encode]? = (balance? l a).filter p := by
  rw [found, Std.ExtTreeMap.getElem?_filterMap', Store.getElem?_under, if_pos (prefix_key a), balance?]
  cases l[a.key.encode]? <;> rfl

/-- Nothing else is found, so the same is found if it is the same of each account. -/
theorem found_congr {m : Table Bytes} (h : Coherent l) (hm : Coherent m) {p : Balance → Bool}
    (hp : ∀ a : Account, (balance? m a).filter p = (balance? l a).filter p) : found m p = found l p := by
  refine Std.ExtTreeMap.ext_getElem? fun k => ?_
  by_cases hk : ∃ a : Account, k = a.key.encode
  · obtain ⟨a, rfl⟩ := hk
    rw [getElem?_found, getElem?_found, hp]
  · have hnone {n : Table Bytes} (hn : Coherent n) : (found n p)[k]? = none := by
      rw [found, Std.ExtTreeMap.getElem?_filterMap']
      cases hb : (Store.under balancesPrefix n)[k]? with
      | none => rfl
      | some b =>
        obtain ⟨r, -, hkey, -⟩ := hn.under_cases hb
        exact absurd ⟨r.account, hkey⟩ hk
    rw [hnone h, hnone hm]

theorem Coherent.getElem?_nonzero (h : Coherent l) (symbol : String) (a : Account) :
    (nonzero l symbol)[a.key.encode]? =
      if a.token = symbol ∧ held l a ≠ 0 then balance? l a else none := by
  rw [nonzero_eq_found, getElem?_found, held, balance]
  cases hr : balance? l a with
  | none => simp
  | some r =>
    obtain ⟨-, rfl⟩ := h.balance?_plain hr
    exact if_congr (by simp [Balance.account, Amount.isZero]) rfl rfl

/-- The balances that are not zero are the same if each account either has the same record or holds
nothing. -/
theorem nonzero_congr {m : Table Bytes} (h : Coherent l) (hm : Coherent m) {symbol : String}
    (hs : ∀ a : Account, a.token = symbol →
      m[a.key.encode]? = l[a.key.encode]? ∨ (held l a = 0 ∧ held m a = 0)) :
    nonzero m symbol = nonzero l symbol := by
  rw [nonzero_eq_found, nonzero_eq_found]
  refine found_congr h hm fun a => ?_
  rw [← getElem?_found, ← nonzero_eq_found, hm.getElem?_nonzero, ← getElem?_found, ← nonzero_eq_found,
    h.getElem?_nonzero]
  by_cases ha : a.token = symbol
  · rcases hs a ha with he | ⟨hl, hm⟩
    · rw [held_congr he, balance?, balance?, he]
    · rw [if_neg (by simp [hm]), if_neg (by simp [hl])]
  · rw [if_neg fun h => ha h.1, if_neg fun h => ha h.1]

theorem Coherent.mem_nonzeroList (h : Coherent l) {a : Account} (ha : held l a ≠ 0) :
    balance l a ∈ nonzeroList l a.token := by
  have hg := h.getElem?_nonzero a.token a
  rw [if_pos ⟨rfl, ha⟩] at hg
  have hr : balance? l a = some (balance l a) := by
    cases hr : balance? l a with
    | some r => rw [balance, hr, Option.getD_some]
    | none => simp [held, balance, hr, Balance.zero, Amount.zero] at ha
  rw [hr] at hg
  exact List.mem_map.mpr ⟨_, Std.ExtTreeMap.mem_toList_iff_getElem?_eq_some.mpr hg, rfl⟩

theorem Coherent.held_of_nonzero_nil (h : Coherent l) {a : Account}
    (hn : nonzeroList l a.token = []) : held l a = 0 := by
  by_contra hne
  have hm := h.mem_nonzeroList hne
  rw [hn] at hm
  cases hm

end Holders

theorem Coherent.eval_registerToken {l : Table Bytes} (h : Coherent l) (t : Token) (holder : String) :
    (registerToken t holder).plan.eval l =
      if (token? l t.symbol).isSome then .error (.tokenListed t.symbol)
      else if nonzeroList l t.symbol ≠ [] then
        .error (.tokenHeld t.symbol (nonzeroList l t.symbol).length)
      else t.requireIntegralSupply.map fun _ =>
        ⟨(Envelope.empty.withToken t).withBalance { Balance.zero ⟨holder, t.symbol⟩ with amount := t.supply },
          [.token t, .balance { Balance.zero ⟨holder, t.symbol⟩ with amount := t.supply }]⟩ := by
  rw [plan_registerToken, Query.eval_bind, h.eval_token?, Except.bind]
  cases token? l t.symbol with
  | some u => rfl
  | none =>
    simp only [Option.isSome_none, Bool.false_eq_true, if_false]
    rw [Query.eval_bind, h.eval_balancesOfToken, Except.bind, ← nonzeroList_eq]
    cases hl : nonzeroList l t.symbol with
    | nil => cases t.requireIntegralSupply <;> simp [Except.map]
    | cons r rs => rfl

def fractional? (bs : List Balance) : Option Balance := bs.find? fun b => !b.amount.isIntegral

theorem fractional?_filter (bs : List Balance) :
    fractional? (bs.filter (!·.amount.isZero)) = fractional? bs := by
  rw [fractional?, fractional?, List.find?_filter]
  congr 1
  funext b
  cases hz : b.amount.isZero with
  | false => simp
  | true =>
    have h0 : b.amount.units = 0 := by simpa [Amount.isZero] using hz
    simp [Amount.isIntegral, h0]

theorem Coherent.isIntegral_of_fractional? {l : Table Bytes} (h : Coherent l) {a : Account}
    (hn : fractional? (nonzeroList l a.token) = none) : (balance l a).amount.isIntegral := by
  by_cases ha : held l a = 0
  · have h0 : (balance l a).amount.units = 0 := ha
    simp [Amount.isIntegral, h0]
  · simpa using List.find?_eq_none.mp hn _ (h.mem_nonzeroList ha)

theorem Coherent.eval_requireIntegralHoldings {l : Table Bytes} (h : Coherent l) (t : Token) :
    (Query.requireIntegralHoldings t).eval l = match fractional? (nonzeroList l t.symbol) with
      | some b => .error (.fractionalHolding b.address b.amount t.symbol t.type)
      | none => .ok () := by
  rw [Query.requireIntegralHoldings, Query.eval_bind, h.eval_balancesOfToken, Except.bind, nonzeroList_eq,
    fractional?_filter, bind_pure_unit]
  induction foundList l (·.token == t.symbol) with
  | nil => rfl
  | cons b bs ih =>
    rw [List.forIn_cons, Query.eval_bind, fractional?, List.find?_cons]
    cases b.amount.isIntegral with
    | true => exact ih
    | false => rfl

theorem Coherent.eval_updateToken {l : Table Bytes} (h : Coherent l) (t : Token) :
    (updateToken t).plan.eval l =
      match token? l t.symbol with
      | none => .error (.tokenUnknown t.symbol)
      | some current =>
        { t with supply := current.supply }.requireIntegralSupply.bind fun _ =>
          match if t.type.isIntegral && !current.type.isIntegral then
              fractional? (nonzeroList l t.symbol) else none with
          | some b => .error (.fractionalHolding b.address b.amount t.symbol t.type)
          | none => .ok ⟨Envelope.empty.withToken { t with supply := current.supply },
              [.token { t with supply := current.supply }]⟩ := by
  rw [plan_updateToken, Query.eval_bind, h.eval_token]
  cases token? l t.symbol with
  | none => rfl
  | some current =>
    simp only [Except.bind, Query.eval_bind, Query.eval_liftM]
    cases { t with supply := current.supply : Token }.requireIntegralSupply with
    | error f => rfl
    | ok u =>
      cases hc : t.type.isIntegral && !current.type.isIntegral with
      | false => simp
      | true =>
        simp only [if_true, Query.eval_bind, h.eval_requireIntegralHoldings]
        cases fractional? (nonzeroList l t.symbol) <;> rfl

end Live
end TokenLedger
