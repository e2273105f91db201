import TokenLedger.Proofs.Rounding

/-! Reading decimals up to one. The significand and the power of ten are rounded before the one is divided by the
other, so the quotient can miss the nearest value; it is never above one, and it is the nearest value where both can
be told exactly. -/

namespace TokenLedger.Binary64

theorem Rounds.eq_natCast {n : ℕ} {x : Binary64} (h : Rounds n x) (hn : n < 2 ^ 53) : x.magnitude = n := by
  obtain ⟨m, e, hx, hnear, hscale⟩ := h
  have he : e ≤ 0 := by
    rcases hscale.low with rfl | hlow
    · decide
    · have hn' : (n : ℚ) < 2 ^ 53 := by exact_mod_cast hn
      have hlt : (2 : ℚ) ^ e < 2 ^ (1 : ℤ) := by
        rw [zpow_one]
        linarith
      have := (zpow_lt_zpow_iff_right₀ one_lt_two).mp hlt
      omega
  obtain ⟨k, hk⟩ := Int.eq_ofNat_of_zero_le (Int.neg_nonneg.mpr he)
  have hdiv : (n : ℚ) / 2 ^ e = (n * 2 ^ k : ℕ) := by
    have hexp : e = -(k : ℤ) := by omega
    rw [hexp, zpow_neg, zpow_natCast]
    push_cast
    rw [div_inv_eq_mul]
  have hself : Nearest (n / 2 ^ e) (n * 2 ^ k) := by
    rw [hdiv, Nearest, sub_self, abs_zero]
    exact .inl (by norm_num)
  rw [hx, hnear.unique hself, ← hdiv]
  field_simp

theorem ofNat?_spec {n : ℕ} (hn : n < 2 ^ 64) : ∃ x, ofNat? n = some x ∧ x.negative = false ∧ Rounds n x := by
  have hlt : (n : ℚ) / (1 : ℕ) < 2 ^ 1023 := by
    have hn' : (n : ℚ) < 2 ^ 64 := by exact_mod_cast hn
    rw [Nat.cast_one, div_one]
    exact hn'.trans_le (pow_le_pow_right₀ one_le_two (by omega))
  obtain ⟨x, hx⟩ := round_total false one_ne_zero hlt
  obtain ⟨hs, hr⟩ := round_spec one_ne_zero hx
  rw [Nat.cast_one, div_one] at hr
  exact ⟨x, hx, hs, hr⟩

theorem isSome_pow10? : ∀ k < 309, (pow10? k).isSome := by
  decide +kernel

theorem pow10?_spec {k : ℕ} (hk : k < 309) : ∃ x, pow10? k = some x ∧ x.negative = false ∧ Rounds ((10 : ℚ) ^ k) x := by
  obtain ⟨x, hx⟩ := Option.isSome_iff_exists.mp (isSome_pow10? k hk)
  obtain ⟨hs, hr⟩ := round_spec one_ne_zero hx
  rw [Nat.cast_one, div_one, Nat.pow_eq, Nat.cast_pow, Nat.cast_ofNat] at hr
  exact ⟨x, hx, hs, hr⟩

theorem exists_pow10 : ∀ k < 23, ∃ x : Binary64, x.magnitude = (10 : ℚ) ^ k := by
  have hdecide : ∀ k < 23, (pow10? k).any fun x => x.num == Nat.pow 10 k * x.den := by decide +kernel
  intro k hk
  obtain ⟨x, -, hx⟩ := Option.any_eq_true _ _ |>.mp (hdecide k hk)
  rw [beq_iff_eq, Nat.pow_eq] at hx
  refine ⟨x, ?_⟩
  rw [magnitude_eq_div, hx, Nat.cast_mul, mul_div_cancel_right₀ _ x.den_pos.ne', Nat.cast_pow, Nat.cast_ofNat]

theorem num_div_den (x y : Binary64) :
    ((x.num * y.den : ℕ) : ℚ) / (x.den * y.num : ℕ) = x.magnitude / y.magnitude := by
  rw [magnitude_eq_div, magnitude_eq_div, Nat.cast_mul, Nat.cast_mul, div_div_div_eq]

theorem num_ne_zero {y : Binary64} (hy : y.magnitude ≠ 0) : y.num ≠ 0 := by
  intro h
  rw [magnitude_eq_div, h, Nat.cast_zero, zero_div] at hy
  exact hy rfl

theorem div?_spec {x y z : Binary64} (hy : y.magnitude ≠ 0) (h : x.div? y = some z) :
    z.negative = (x.negative != y.negative) ∧ Rounds (x.magnitude / y.magnitude) z := by
  rw [← num_div_den]
  exact round_spec (Nat.mul_ne_zero x.den_ne_zero (num_ne_zero hy)) h

theorem div?_total {x y : Binary64} (hy : y.magnitude ≠ 0) (h : x.magnitude ≤ y.magnitude) :
    ∃ z, x.div? y = some z := by
  refine round_total _ (Nat.mul_ne_zero x.den_ne_zero (num_ne_zero hy)) ?_
  have hpos : 0 < y.magnitude := lt_of_le_of_ne y.magnitude_nonneg hy.symm
  rw [num_div_den]
  exact ((div_le_one hpos).mpr h).trans_lt (one_lt_pow₀ one_lt_two (by omega))

theorem div?_unit {x y : Binary64} (hx : x.negative = false) (hy : y.negative = false) (hy0 : y.magnitude ≠ 0)
    (h : x.magnitude ≤ y.magnitude) : ∃ z, x.div? y = some z ∧ z.negative = false ∧ z.magnitude ≤ 1 ∧
      Rounds (x.magnitude / y.magnitude) z := by
  obtain ⟨z, hz⟩ := div?_total hy0 h
  obtain ⟨hs, hr⟩ := div?_spec hy0 hz
  obtain ⟨one, hone⟩ := exists_pow10 0 (by omega)
  have hpos : 0 < y.magnitude := lt_of_le_of_ne y.magnitude_nonneg hy0.symm
  have hle := hr.le (f := one) (by rw [hone, pow_zero]; exact (div_le_one hpos).mpr h)
  rw [hone, pow_zero] at hle
  exact ⟨z, hz, by rw [hs, hx, hy]; rfl, hle, hr⟩

/-- A whole number of 64 bits that is not above a power of ten is not above it after both are rounded. -/
theorem magnitude_le_pow10 {n k : ℕ} {x y : Binary64} (hn : n < 2 ^ 64) (hle : k < 23 → n ≤ 10 ^ k)
    (hx : Rounds n x)
    (hy : Rounds ((10 : ℚ) ^ k) y) : x.magnitude ≤ y.magnitude := by
  -- the powers up to the 22nd are values, and all others are above 64 bits
  rcases Nat.lt_or_ge k 23 with hk | hk
  · obtain ⟨f, hf⟩ := exists_pow10 k hk
    have hxf : x.magnitude ≤ f.magnitude := hx.le (by rw [hf]; exact_mod_cast hle hk)
    exact hxf.trans (hy.ge hf.le)
  · obtain ⟨f, hf⟩ := exists_pow10 22 (by omega)
    have hn' : n ≤ 10 ^ 22 := by omega
    have hxf : x.magnitude ≤ f.magnitude := hx.le (by rw [hf]; exact_mod_cast hn')
    exact hxf.trans (hy.ge (hf.trans_le (pow_le_pow_right₀ (by norm_num) (by omega))))

theorem one_le_pow10 {k : ℕ} {x : Binary64} (h : Rounds ((10 : ℚ) ^ k) x) : 1 ≤ x.magnitude := by
  obtain ⟨one, hone⟩ := exists_pow10 0 (by omega)
  rw [pow_zero] at hone
  rw [← hone]
  exact h.ge (hone.trans_le (one_le_pow₀ (by norm_num)))

theorem ofDecimal?_neg {n k : ℕ} (hk : 0 < k) {a b x : Binary64} (ha : ofNat? n = some a)
    (hx : lower (k / 308) a = some x) (hb : pow10? (k % 308) = some b) : ofDecimal? false n (-k) = x.div? b := by
  have hk0 : k ≠ 0 := by omega
  simp [ofDecimal?, ha, hk0, hx, hb]

/-- A decimal up to one is read as a value up to one. If its digits fit in 53 bits and not too many of them are behind
the point, it is the value that the decimal is rounded to. -/
theorem ofDecimal?_unit {n k : ℕ} (hn : n < 2 ^ 64) (hk : 0 < k) (hk' : k < 616) (hle : n ≤ 10 ^ k) :
    ∃ x, ofDecimal? false n (-k) = some x ∧ x.negative = false ∧ x.magnitude ≤ 1 ∧
      (n < 2 ^ 53 → k < 23 → Rounds (n / 10 ^ k) x) := by
  obtain ⟨a, ha, has, har⟩ := ofNat?_spec hn
  rcases Nat.lt_or_ge k 308 with hlt | hge
  · have hdiv : k / 308 = 0 := Nat.div_eq_of_lt hlt
    have hmod : k % 308 = k := Nat.mod_eq_of_lt hlt
    obtain ⟨b, hb, hbs, hbr⟩ := pow10?_spec (k := k) (by omega)
    have hb0 : b.magnitude ≠ 0 := by linarith [one_le_pow10 hbr]
    obtain ⟨x, hx, hxs, hx1, hxr⟩ := div?_unit has hbs hb0 (magnitude_le_pow10 hn (fun _ => hle) har hbr)
    refine ⟨x, ?_, hxs, hx1, fun hsmall hfew => ?_⟩
    · rw [ofDecimal?_neg hk ha (x := a) (by rw [hdiv, lower]) (by rw [hmod, hb]), hx]
    · obtain ⟨f, hf⟩ := exists_pow10 k hfew
      rw [har.eq_natCast hsmall, hbr.exact hf.symm] at hxr
      exact hxr
  · -- the number is divided by `10 ^ 308` first, and by what is left of the power then
    have hdiv : k / 308 = 1 := by omega
    have hmod : k % 308 = k - 308 := by omega
    obtain ⟨p, hp, hps, hpr⟩ := pow10?_spec (k := 308) (by omega)
    obtain ⟨b, hb, hbs, hbr⟩ := pow10?_spec (k := k - 308) (by omega)
    have hp0 : p.magnitude ≠ 0 := by linarith [one_le_pow10 hpr]
    have hb1 := one_le_pow10 hbr
    obtain ⟨y, hy, hys, hy1, -⟩ := div?_unit has hps hp0 (magnitude_le_pow10 hn (by omega) har hpr)
    obtain ⟨z, hz, hzs, hz1⟩ : ∃ z, lower 1 a = some z ∧ z.negative = false ∧ z.magnitude ≤ 1 := by
      rw [lower]
      split
      · rename_i hzero
        refine ⟨a, rfl, has, ?_⟩
        rw [magnitude_eq_zero.mpr (beq_iff_eq.mp hzero)]
        exact zero_le_one
      · exact ⟨y, by simp [hp, hy, lower], hys, hy1⟩
    obtain ⟨x, hx, hxs, hx1, -⟩ := div?_unit hzs hbs (by linarith) (hz1.trans hb1)
    refine ⟨x, ?_, hxs, hx1, fun _ hfew => by omega⟩
    rw [ofDecimal?_neg hk ha (by rw [hdiv, hz]) (by rw [hmod, hb]), hx]

def Short (x : Binary64) : Prop := ∃ n k : ℕ, n < 10 ^ 15 ∧ k < 23 ∧ round false n (10 ^ k) = some x

end TokenLedger.Binary64
