import TokenLedger.Proofs.Live

/-! What circulates of a token: the units in all of its balance records. A change of one balance changes
the total by the difference of its units, and no other change changes it. -/

namespace TokenLedger

namespace Table

variable {α : Type} (f : String → α → Nat)

def weight (t : Table α) : Nat := (t.toList.map fun (k, v) => f k v).sum

def share (t : Table α) (k : String) : Nat := (t[k]?).elim 0 (f k)

def support (t : Table α) : Finset String := (t.toList.map Prod.fst).toFinset

theorem mem_support {t : Table α} {k : String} : k ∈ support t ↔ t[k]?.isSome := by
  rw [support, List.mem_toFinset]
  constructor
  · intro h
    obtain ⟨⟨j, v⟩, hp, rfl⟩ := List.mem_map.mp h
    rw [Std.ExtTreeMap.mem_toList_iff_getElem?_eq_some.mp hp]
    rfl
  · intro h
    obtain ⟨v, hv⟩ := Option.isSome_iff_exists.mp h
    exact List.mem_map.mpr ⟨(k, v), Std.ExtTreeMap.mem_toList_iff_getElem?_eq_some.mpr hv, rfl⟩

theorem share_of_notMem {t : Table α} {k : String} (h : k ∉ support t) : share f t k = 0 := by
  have hn : t[k]? = none := by simpa [mem_support] using h
  rw [share, hn]
  rfl

/-- The sum runs over the keys, and keys without an entry add nothing. -/
theorem weight_eq_sum {t : Table α} {s : Finset String} (h : support t ⊆ s) :
    weight f t = ∑ k ∈ s, share f t k := by
  have hn : (t.toList.map Prod.fst).Nodup := by
    rw [Std.ExtTreeMap.map_fst_toList_eq_keys]
    exact Std.ExtTreeMap.nodup_keys
  have hl : (t.toList.map fun (k, v) => f k v) = (t.toList.map Prod.fst).map (share f t) := by
    rw [List.map_map]
    refine List.map_congr_left fun p hp => ?_
    obtain ⟨k, v⟩ := p
    rw [Function.comp_apply, share, Std.ExtTreeMap.mem_toList_iff_getElem?_eq_some.mp hp]
    rfl
  rw [weight, hl, ← List.sum_toFinset _ hn]
  exact Finset.sum_subset h fun k _ hk => share_of_notMem f hk

theorem weight_update {t u : Table α} {k : String} (h : ∀ j, j ≠ k → u[j]? = t[j]?) :
    weight f u + share f t k = weight f t + share f u k := by
  let s := insert k (support t ∪ support u)
  have ht : support t ⊆ s := fun j hj => by simp [s, hj]
  have hu : support u ⊆ s := fun j hj => by simp [s, hj]
  have hk : k ∈ s := by simp [s]
  have hrest : ∑ j ∈ s.erase k, share f u j = ∑ j ∈ s.erase k, share f t j := by
    refine Finset.sum_congr rfl fun j hj => ?_
    rw [share, share, h j (Finset.ne_of_mem_erase hj)]
  rw [weight_eq_sum f ht, weight_eq_sum f hu, ← Finset.add_sum_erase s _ hk,
    ← Finset.add_sum_erase s (share f t) hk, hrest]
  omega

/-- If no key adds less and the sum is the same, every key adds the same. -/
theorem share_eq_of_weight_eq {t u : Table α} (hle : ∀ k, share f t k ≤ share f u k)
    (h : weight f t = weight f u) (k : String) : share f t k = share f u k := by
  let s := insert k (support t ∪ support u)
  have ht : support t ⊆ s := fun j hj => by simp [s, hj]
  have hu : support u ⊆ s := fun j hj => by simp [s, hj]
  rw [weight_eq_sum f ht, weight_eq_sum f hu] at h
  exact (Finset.sum_eq_sum_iff_of_le fun j _ => hle j).mp h k (by simp [s])

theorem share_le_weight (t : Table α) (k : String) : share f t k ≤ weight f t := by
  by_cases hk : k ∈ support t
  · rw [weight_eq_sum f (Finset.Subset.refl _)]
    exact Finset.single_le_sum (f := share f t) (fun _ _ => Nat.zero_le _) hk
  · rw [share_of_notMem f hk]
    exact Nat.zero_le _

theorem share_add_share_le_weight (t : Table α) {j k : String} (h : j ≠ k) :
    share f t j + share f t k ≤ weight f t := by
  let s := insert j (insert k (support t))
  have ht : support t ⊆ s := fun i hi => by simp [s, hi]
  have hpair : {j, k} ⊆ s := by simp [s, Finset.insert_subset_iff]
  calc share f t j + share f t k = ∑ i ∈ {j, k}, share f t i := (Finset.sum_pair h).symm
    _ ≤ ∑ i ∈ s, share f t i := Finset.sum_le_sum_of_subset hpair
    _ = weight f t := (weight_eq_sum f ht).symm

end Table

namespace Live

open Table

/-- The account whose balance has a key with this text. -/
def account? (k : String) : Option Account :=
  match Key.decode k with
  | .ok key => Account.ofKey? key
  | .error _ => none

@[simp] theorem account?_key (a : Account) : account? a.key.encode = some a := by
  simp [account?]

def isOf (symbol k : String) : Bool := (account? k).any (·.token == symbol)

/-- The sum of the amounts in all balance records of a token; none if one of them is broken. -/
def circulation? (l : Table Bytes) (symbol : String) : Option Nat :=
  ((l.toList.filter fun p => isOf symbol p.1).mapM fun p => (Balance.codec.decode p.2).toOption).map
    fun bs => (bs.map fun r => r.amount.units).sum

/-- The units that a value under a key adds to what circulates of a token. -/
def unitsOf (symbol k : String) (b : Bytes) : Nat :=
  if isOf symbol k then
    ((Balance.codec.decode b).toOption).elim 0 (·.amount.units)
  else 0

def total (l : Table Bytes) (symbol : String) : Nat := weight (unitsOf symbol) l

theorem share_key (l : Table Bytes) (symbol : String) (a : Account) :
    share (unitsOf symbol) l a.key.encode = if a.token = symbol then held l a else 0 := by
  have hu (b : Bytes) : unitsOf symbol a.key.encode b =
      if a.token = symbol then ((Balance.codec.decode b).toOption).elim 0 (·.amount.units) else 0 := by
    simp [unitsOf, isOf]
  rw [share, held, balance, balance?]
  cases l[a.key.encode]? with
  | none =>
    split
    · rfl
    · rfl
  | some b =>
    rw [Option.elim_some, hu]
    split
    · cases hd : (Balance.codec.decode b).toOption <;> simp [hd, Balance.zero, Amount.zero]
    · rfl

theorem share_of_none {l : Table Bytes} {symbol k : String} (h : account? k = none) :
    share (unitsOf symbol) l k = 0 := by
  rw [share]
  cases l[k]? with
  | none => rfl
  | some b =>
    rw [Option.elim_some, unitsOf, isOf, h]
    rfl

/-- A text that an account is read from is the text of its key. -/
theorem encode_of_account? {k : String} {a : Account} (h : account? k = some a) {l : Table Bytes}
    (hl : Coherent l) (hk : l[k]?.isSome) : k = a.key.encode := by
  obtain ⟨b, hb⟩ := Option.isSome_iff_exists.mp hk
  obtain ⟨c, -, rfl, -⟩ := hl k b hb
  rw [account?, Key.decode_encode] at h
  have hc : c.key = a.key := by
    cases c with
    | balance r =>
      have hr : some r.account = some a := h
      rw [← Option.some.inj hr]
      rfl
    | wallet a => cases h
    | token t => cases h
    | unlist s => cases h
    | scores x s => cases h
  rw [hc]

theorem sum_mapM {ps : List (String × Bytes)} {symbol : String}
    (h : ∀ p ∈ ps, isOf symbol p.1 → ∃ r, Balance.codec.decode p.2 = .ok r) :
    (((ps.filter fun p => isOf symbol p.1).mapM fun p =>
      (Balance.codec.decode p.2).toOption).map fun bs => (bs.map fun r => r.amount.units).sum)
      = some ((ps.map fun p => unitsOf symbol p.1 p.2).sum) := by
  induction ps with
  | nil => rfl
  | cons p ps ih =>
    have ih := ih fun q hq => h q (by simp [hq])
    rw [List.map_cons, List.sum_cons, unitsOf]
    by_cases hk : isOf symbol p.1
    · obtain ⟨r, hr⟩ := h p (by simp) hk
      obtain ⟨bs, hbs, hsum⟩ := Option.map_eq_some_iff.mp ih
      have ho : (Balance.codec.decode p.2).toOption = some r := by rw [hr]; rfl
      rw [List.filter_cons, if_pos hk, List.mapM_cons, if_pos hk, ho, hbs]
      simp [hsum]
    · rw [List.filter_cons, if_neg hk, if_neg hk, ih, Nat.zero_add]

theorem Coherent.circulation?_eq {l : Table Bytes} (h : Coherent l) (symbol : String) :
    circulation? l symbol = some (total l symbol) := by
  have hs : ∀ p ∈ l.toList, isOf symbol p.1 →
      ∃ r, Balance.codec.decode p.2 = .ok r := by
    intro p hp hk
    have hb : l[p.1]? = some p.2 := Std.ExtTreeMap.mem_toList_iff_getElem?_eq_some.mp hp
    obtain ⟨a, ha⟩ : ∃ a, account? p.1 = some a := by
      cases ha : account? p.1 with
      | none => simp [isOf, ha] at hk
      | some a => exact ⟨a, rfl⟩
    rw [encode_of_account? ha h (by simp [hb])] at hb
    obtain ⟨r, hr, -, hd⟩ := h.balance_cases hb
    exact ⟨r, by rw [hd, Balance.decode_write hr]⟩
  exact sum_mapM hs

theorem total_apply_balance (l : Table Bytes) {b : Balance} (hb : b.Plain) (symbol : String) :
    total (apply l (.balance b)) symbol + (if b.token = symbol then held l b.account else 0) =
      total l symbol + if b.token = symbol then b.amount.units else 0 := by
  have hu := weight_update (unitsOf symbol) (t := l) (u := apply l (.balance b)) (k := b.account.key.encode)
    fun j hj => by
      rw [getElem?_apply, if_neg]
      exact fun he => hj he.symm
  rw [share_key, share_key] at hu
  have hheld : held (apply l (.balance b)) b.account = b.amount.units := by
    rw [held, balance_apply_balance l hb, if_pos rfl]
  rw [hheld] at hu
  exact hu

theorem total_apply_other (l : Table Bytes) {c : Change} (hc : ∀ b, c ≠ .balance b) (symbol : String) :
    total (apply l c) symbol = total l symbol := by
  have hu := weight_update (unitsOf symbol) (t := l) (u := apply l c) (k := c.key.encode)
    fun j hj => by
      rw [getElem?_apply, if_neg]
      exact fun he => hj he.symm
  have hn : account? c.key.encode = none := by
    rw [account?, Key.decode_encode]
    cases c with
    | balance b => exact absurd rfl (hc b)
    | wallet a => rfl
    | token t => rfl
    | unlist s => rfl
    | scores a s => rfl
  rw [share_of_none hn, share_of_none hn] at hu
  exact hu

@[simp] theorem total_apply_token (l : Table Bytes) (t : Token) (symbol : String) :
    total (apply l (.token t)) symbol = total l symbol :=
  total_apply_other l (fun _ h => by cases h) symbol

@[simp] theorem total_apply_unlist (l : Table Bytes) (s symbol : String) :
    total (apply l (.unlist s)) symbol = total l symbol :=
  total_apply_other l (fun _ h => by cases h) symbol

@[simp] theorem total_apply_wallet (l : Table Bytes) (address symbol : String) :
    total (apply l (.wallet address)) symbol = total l symbol :=
  total_apply_other l (fun _ h => by cases h) symbol

@[simp] theorem total_apply_scores (l : Table Bytes) (actor : String) (s : Scores) (symbol : String) :
    total (apply l (.scores actor s)) symbol = total l symbol :=
  total_apply_other l (fun _ h => by cases h) symbol

theorem Coherent.share_cases {l : Table Bytes} (h : Coherent l) (symbol k : String) :
    share (unitsOf symbol) l k = 0 ∨ ∃ a : Account, k = a.key.encode := by
  cases hk : l[k]? with
  | none =>
    left
    rw [share, hk]
    rfl
  | some b =>
    cases ha : account? k with
    | none => exact .inl (share_of_none ha)
    | some a => exact .inr ⟨a, encode_of_account? ha h (by simp [hk])⟩

theorem Coherent.total_eq_zero {l : Table Bytes} (h : Coherent l) {symbol : String}
    (h0 : ∀ a : Account, a.token = symbol → held l a = 0) : total l symbol = 0 := by
  rw [total, weight_eq_sum _ (Finset.Subset.refl _)]
  refine Finset.sum_eq_zero fun k _ => ?_
  rcases h.share_cases symbol k with hk | ⟨a, rfl⟩
  · exact hk
  · rw [share_key]
    split
    · rename_i ha
      exact h0 a ha
    · rfl

/-- If some accounts hold what they held and the others held nothing, then with the same total the others
hold nothing. -/
theorem Coherent.held_eq_zero_of_total_eq {l m : Table Bytes} (h : Coherent l) {symbol : String} {p : Account → Prop}
    (hin : ∀ a : Account, a.token = symbol → p a → held m a = held l a)
    (hout : ∀ a : Account, a.token = symbol → ¬ p a → held l a = 0)
    (ht : total m symbol = total l symbol) {a : Account} (ha : a.token = symbol) (hp : ¬ p a) :
    held m a = 0 := by
  have hle : ∀ k, share (unitsOf symbol) l k ≤ share (unitsOf symbol) m k := by
    intro k
    rcases h.share_cases symbol k with hk | ⟨b, rfl⟩
    · omega
    · rw [share_key, share_key]
      by_cases hb : b.token = symbol
      · rw [if_pos hb, if_pos hb]
        by_cases hpb : p b
        · exact (hin b hb hpb).ge
        · rw [hout b hb hpb]
          exact Nat.zero_le _
      · rw [if_neg hb, if_neg hb]
  have he := share_eq_of_weight_eq (unitsOf symbol) hle ht.symm a.key.encode
  rw [share_key, share_key, if_pos ha, if_pos ha, hout a ha hp] at he
  exact he.symm

theorem held_le_total (l : Table Bytes) (a : Account) : held l a ≤ total l a.token := by
  have h := share_le_weight (unitsOf a.token) l a.key.encode
  rw [share_key, if_pos rfl] at h
  exact h

theorem held_add_held_le_total (l : Table Bytes) {a b : Account} (hne : a ≠ b) (htoken : b.token = a.token) :
    held l a + held l b ≤ total l a.token := by
  have hkeys : a.key.encode ≠ b.key.encode := fun he => hne (Account.key_injective (Key.encode_injective he))
  have h := share_add_share_le_weight (unitsOf a.token) l hkeys
  rwa [share_key, share_key, if_pos rfl, if_pos htoken] at h

end Live
end TokenLedger
