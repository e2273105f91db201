import TokenLedger.Decimal.Shortest
import TokenLedger.Proofs.Binary64

/-! Rounding to the nearest value. A number between two values is rounded to a number between them, and the
numbers that round to a value are an interval around it. -/

namespace TokenLedger

namespace Binary64

def magnitude (x : Binary64) : ℚ := x.mantissa * 2 ^ x.exponent

theorem zpow_eq_div {a : ℚ} (ha : a ≠ 0) (e : ℤ) : a ^ e = a ^ e.toNat / a ^ (-e).toNat := by
  rw [div_eq_mul_inv, ← zpow_natCast, ← zpow_natCast, ← zpow_neg, ← zpow_add₀ ha]
  congr 1
  omega

theorem magnitude_eq_div (x : Binary64) : x.magnitude = x.num / x.den := by
  rw [magnitude, num, den, Nat.shiftLeft_eq, Nat.shiftLeft_eq, zpow_eq_div two_ne_zero]
  push_cast
  ring

theorem den_pos (x : Binary64) : (0 : ℚ) < x.den := by
  exact_mod_cast Nat.pos_of_ne_zero x.den_ne_zero

theorem magnitude_nonneg (x : Binary64) : 0 ≤ x.magnitude := by
  rw [magnitude]
  positivity

theorem magnitude_eq_zero {x : Binary64} : x.magnitude = 0 ↔ x.mantissa = 0 := by
  have h : (2 : ℚ) ^ x.exponent ≠ 0 := by positivity
  simp [magnitude, h]

theorem inUnit_iff {x : Binary64} : x.inUnit ↔ x.mantissa = 0 ∨ x.negative = false ∧ x.magnitude ≤ 1 := by
  have hle : x.num ≤ x.den ↔ x.magnitude ≤ 1 := by
    rw [magnitude_eq_div, div_le_one x.den_pos, Nat.cast_le]
  simp [inUnit, isZero, hle]

theorem top_div_bottom (n : Nat) {d : Nat} (hd : d ≠ 0) (e : ℤ) : (top n e : ℚ) / bottom d e = n / d / 2 ^ e := by
  rw [top, bottom, Nat.shiftLeft_eq, Nat.shiftLeft_eq, zpow_eq_div two_ne_zero]
  push_cast
  field_simp

/-- A whole number is nearest to a number, and even if another one is as near. -/
def Nearest (q : ℚ) (m : ℕ) : Prop := |q - m| < 1 / 2 ∨ |q - m| = 1 / 2 ∧ m % 2 = 0

theorem Nearest.le {q : ℚ} {m : ℕ} (h : Nearest q m) : |q - m| ≤ 1 / 2 := h.elim le_of_lt fun h => h.1.le

theorem Nearest.ge {q : ℚ} {m n : ℕ} (h : Nearest q m) (hn : n ≤ q) : n ≤ m := by
  have hlt : (n : ℚ) < m + 1 := by linarith [(abs_le.mp h.le).2]
  have hlt' : n < m + 1 := by exact_mod_cast hlt
  omega

theorem Nearest.le_of_le {q : ℚ} {m n : ℕ} (h : Nearest q m) (hn : q ≤ n) : m ≤ n := by
  have hlt : (m : ℚ) < n + 1 := by linarith [(abs_le.mp h.le).1]
  have hlt' : m < n + 1 := by exact_mod_cast hlt
  omega

theorem Nearest.not_lt {q : ℚ} {m n : ℕ} (hm : Nearest q m) (hn : Nearest q n) : ¬ m < n := by
  intro hlt
  have hstep : (m : ℚ) + 1 ≤ n := by exact_mod_cast hlt
  have h₁ := abs_le.mp hm.le
  have h₂ := abs_le.mp hn.le
  -- both are at the distance of a half, so they are neighbours and cannot both be even
  have hnext : (n : ℚ) = m + 1 := by linarith
  have hhalf : q - m = 1 / 2 := by linarith
  have hhalf' : q - n = -(1 / 2) := by linarith
  have hnext : n = m + 1 := by exact_mod_cast hnext
  rcases hm with hm | ⟨-, hm⟩
  · rw [hhalf] at hm
    norm_num at hm
  · rcases hn with hn | ⟨-, hn⟩
    · rw [hhalf'] at hn
      norm_num at hn
    · omega

theorem Nearest.unique {q : ℚ} {m n : ℕ} (hm : Nearest q m) (hn : Nearest q n) : m = n :=
  Nat.le_antisymm (Nat.not_lt.mp (hn.not_lt hm)) (Nat.not_lt.mp (hm.not_lt hn))

theorem nearest_roundDiv (n : ℕ) {d : ℕ} (hd : d ≠ 0) : Nearest ((n : ℚ) / d) (roundDiv n d) := by
  have hpos : (0 : ℚ) < d := by exact_mod_cast Nat.pos_of_ne_zero hd
  have hdiv : (n : ℚ) / d = (n / d : ℕ) + (n % d : ℕ) / d := by
    have h : (n : ℚ) = d * (n / d : ℕ) + (n % d : ℕ) := by exact_mod_cast (Nat.div_add_mod n d).symm
    rw [div_eq_iff hpos.ne', add_mul, div_mul_cancel₀ _ hpos.ne']
    linarith
  have hlow : (0 : ℚ) ≤ (n % d : ℕ) / d := by positivity
  have hhigh : ((n % d : ℕ) : ℚ) / d < 1 := by
    rw [div_lt_one hpos]
    exact_mod_cast Nat.mod_lt n (Nat.pos_of_ne_zero hd)
  have hlt : ((n % d : ℕ) : ℚ) / d < 1 / 2 ↔ 2 * (n % d) < d := by
    rw [div_lt_div_iff₀ hpos two_pos, ← @Nat.cast_lt ℚ]
    push_cast
    constructor <;> intro h <;> linarith
  have heq : ((n % d : ℕ) : ℚ) / d = 1 / 2 ↔ 2 * (n % d) = d := by
    rw [div_eq_div_iff hpos.ne' two_ne_zero, ← @Nat.cast_inj ℚ]
    push_cast
    constructor <;> intro h <;> linarith
  rw [roundDiv, hdiv]
  generalize ((n % d : ℕ) : ℚ) / d = r at *
  split
  · rename_i h
    rw [Nearest, Nat.cast_add, Nat.cast_one, add_sub_add_left_eq_sub, abs_of_neg (by linarith)]
    rcases h with h | ⟨h, hodd⟩
    · have hne : r ≠ 1 / 2 := fun h' => absurd (heq.mp h') (by omega)
      have hnlt : ¬ r < 1 / 2 := fun h' => absurd (hlt.mp h') (by omega)
      exact .inl (by linarith [lt_of_le_of_ne (not_lt.mp hnlt) hne.symm])
    · exact .inr ⟨by rw [heq.mpr h]; norm_num, by omega⟩
  · rename_i h
    rw [Nearest, add_sub_cancel_left, abs_of_nonneg hlow]
    by_cases hhalf : 2 * (n % d) = d
    · exact .inr ⟨heq.mpr hhalf, by omega⟩
    · exact .inl (hlt.mpr (by omega))

structure Scale (q : ℚ) (e : ℤ) : Prop where
  least : -1074 ≤ e
  high : q < 2 ^ 53 * 2 ^ e
  low : e = -1074 ∨ 2 ^ 52 * 2 ^ e ≤ q

theorem Scale.le {q : ℚ} {e f : ℤ} (he : Scale q e) (hf : Scale q f) : e ≤ f := by
  by_contra hlt
  have hlow := he.low.resolve_left (by have := hf.least; omega)
  have hpow : (2 : ℚ) ^ (f + 1) ≤ 2 ^ e := zpow_le_zpow_right₀ one_le_two (by omega)
  rw [zpow_add_one₀ two_ne_zero] at hpow
  have hhigh := hf.high
  linarith

theorem Scale.unique {q : ℚ} {e f : ℤ} (he : Scale q e) (hf : Scale q f) : e = f := le_antisymm (he.le hf) (hf.le he)

theorem scale_exponentFor {n d : ℕ} (hn : n ≠ 0) (hd : d ≠ 0) : Scale ((n : ℚ) / d) (exponentFor n d) := by
  obtain ⟨e, he, hlow, hhigh, -⟩ := exponentFor_eq hn hd
  have hpos := bottom_pos hd e
  have hpos' : (0 : ℚ) < bottom d e := by exact_mod_cast hpos
  have htwo : (0 : ℚ) < 2 ^ e := by positivity
  rw [Nat.le_div_iff_mul_le hpos, ← @Nat.cast_le ℚ, Nat.cast_mul, ← le_div_iff₀ hpos', top_div_bottom n hd,
    le_div_iff₀ htwo] at hlow
  rw [Nat.div_lt_iff_lt_mul hpos, ← @Nat.cast_lt ℚ, Nat.cast_mul, ← div_lt_iff₀ hpos', top_div_bottom n hd,
    div_lt_iff₀ htwo] at hhigh
  rw [hidden_eq] at hlow hhigh
  push_cast at hlow hhigh
  have hmono : (2 : ℚ) ^ e ≤ 2 ^ exponentFor n d := zpow_le_zpow_right₀ one_le_two (he ▸ le_max_left _ _)
  refine ⟨he ▸ le_max_right _ _, by linarith, ?_⟩
  rcases le_total e (-1074) with h | h
  · exact .inl (by rw [he, max_eq_right h])
  · right
    rw [he, max_eq_left h]
    exact hlow

def Rounds (q : ℚ) (x : Binary64) : Prop :=
  ∃ (m : ℕ) (e : ℤ), x.magnitude = m * 2 ^ e ∧ Nearest (q / 2 ^ e) m ∧ Scale q e

theorem rounds_zero (negative : Bool) : Rounds 0 (zero negative) :=
  ⟨0, -1074, by simp [magnitude, zero], by simp [Nearest], le_refl _, by positivity, .inl rfl⟩

theorem round_spec {negative : Bool} {n d : ℕ} (hd : d ≠ 0) {x : Binary64} (h : round negative n d = some x) :
    x.negative = negative ∧ Rounds ((n : ℚ) / d) x := by
  by_cases hn : n = 0
  · rw [round, if_pos hn] at h
    cases h
    subst hn
    simpa using ⟨rfl, rounds_zero negative⟩
  · rw [round, if_neg hn] at h
    dsimp only at h
    have hnear : Nearest ((n : ℚ) / d / 2 ^ exponentFor n d) (scaled n d (exponentFor n d)) := by
      rw [← top_div_bottom n hd]
      exact nearest_roundDiv _ (bottom_pos hd _).ne'
    have hscale := scale_exponentFor hn hd
    generalize exponentFor n d = e at *
    generalize scaled n d e = m at *
    rw [ofParts?, ofParts?] at h
    split at h
    · split_ifs at h with hm
      cases h
      refine ⟨rfl, m, e, ?_, hnear, hscale⟩
      rename_i hfull
      rw [magnitude, hfull, zpow_add_one₀ two_ne_zero]
      push_cast
      ring
    · split_ifs at h with hm
      cases h
      exact ⟨rfl, m, e, rfl, hnear, hscale⟩

theorem round_total (negative : Bool) {n d : ℕ} (hd : d ≠ 0) (h : (n : ℚ) / d < 2 ^ 1023) :
    ∃ x, round negative n d = some x := by
  by_cases hn : n = 0
  · exact ⟨_, by rw [round, if_pos hn]⟩
  · have hnear : Nearest ((n : ℚ) / d / 2 ^ exponentFor n d) (scaled n d (exponentFor n d)) := by
      rw [← top_div_bottom n hd]
      exact nearest_roundDiv _ (bottom_pos hd _).ne'
    have hscale := scale_exponentFor hn hd
    rw [round, if_neg hn]
    dsimp only
    generalize exponentFor n d = e at *
    generalize scaled n d e = m at *
    obtain ⟨hleast, hhigh, hlow⟩ := hscale
    have hpos : (0 : ℚ) < 2 ^ e := by positivity
    have hq : (n : ℚ) / d / 2 ^ e < 2 ^ 53 := (div_lt_iff₀ hpos).mpr hhigh
    have he : e ≤ 970 := by
      rcases hlow with rfl | hlow
      · decide
      · have hlt : (2 : ℚ) ^ (52 + e) < 2 ^ (1023 : ℤ) := by
          rw [zpow_add₀ two_ne_zero]
          exact_mod_cast lt_of_le_of_lt hlow h
        have := (zpow_lt_zpow_iff_right₀ one_lt_two).mp hlt
        omega
    have hm : m ≤ 2 ^ 53 := hnear.le_of_le (by exact_mod_cast hq.le)
    have hm' : e = -1074 ∨ 2 ^ 52 ≤ m :=
      hlow.imp_right fun hlow => hnear.ge (by exact_mod_cast (le_div_iff₀ hpos).mpr hlow)
    have hh := hidden_eq
    split
    · have hfits : Fits hidden (e + 1) := ⟨by omega, by omega, by omega, .inl (le_refl _)⟩
      exact ⟨_, dif_pos hfits⟩
    · have hfits : Fits m e := ⟨by omega, by omega, by omega, by omega⟩
      exact ⟨_, dif_pos hfits⟩

/-- A value is a whole number of units that are not larger than its own one. -/
theorem exists_units (f : Binary64) {e : ℤ} (he : e ≤ f.exponent) : ∃ n : ℕ, f.magnitude = n * 2 ^ e := by
  refine ⟨f.mantissa * 2 ^ (f.exponent - e).toNat, ?_⟩
  obtain ⟨k, hk⟩ := Int.eq_ofNat_of_zero_le (sub_nonneg.mpr he)
  have hexp : f.exponent = k + e := by omega
  rw [magnitude, hk, hexp, zpow_add₀ two_ne_zero]
  push_cast
  simp [mul_assoc]

theorem magnitude_lt (f : Binary64) : f.magnitude < 2 ^ 53 * 2 ^ f.exponent := by
  have hm : f.mantissa < 2 ^ 53 := f.fits.1
  rw [magnitude]
  gcongr
  exact_mod_cast hm

theorem scale_magnitude (f : Binary64) : Scale f.magnitude f.exponent := by
  obtain ⟨-, hleast, -, hlow⟩ := f.fits
  refine ⟨hleast, f.magnitude_lt, hlow.symm.imp_right fun hm => ?_⟩
  rw [magnitude]
  gcongr
  exact_mod_cast hm

section Rounds

variable {q : ℚ} {x f : Binary64} (h : Rounds q x)

include h

/-- A number that is not above a value is rounded to a number that is not above it. -/
theorem Rounds.le (hf : q ≤ f.magnitude) : x.magnitude ≤ f.magnitude := by
  obtain ⟨m, e, hx, hnear, hscale⟩ := h
  have hpos : (0 : ℚ) < 2 ^ e := by positivity
  rw [hx]
  by_contra hlt
  rw [not_le] at hlt
  rcases le_or_gt e f.exponent with he | he
  · obtain ⟨n, hn⟩ := f.exists_units he
    rw [hn] at hf hlt
    have hmn : n < m := by exact_mod_cast lt_of_mul_lt_mul_right hlt hpos.le
    exact absurd (hnear.le_of_le ((div_le_iff₀ hpos).mpr hf)) (by omega)
  · have hlow := hscale.low.resolve_left (by have := f.fits.2.1; omega)
    have hpow : (2 : ℚ) ^ (f.exponent + 1) ≤ 2 ^ e := zpow_le_zpow_right₀ one_le_two (by omega)
    rw [zpow_add_one₀ two_ne_zero] at hpow
    linarith [f.magnitude_lt]

theorem Rounds.ge (hf : f.magnitude ≤ q) : f.magnitude ≤ x.magnitude := by
  obtain ⟨m, e, hx, hnear, hscale⟩ := h
  have hpos : (0 : ℚ) < 2 ^ e := by positivity
  rw [hx]
  by_contra hlt
  rw [not_le] at hlt
  rcases le_or_gt e f.exponent with he | he
  · obtain ⟨n, hn⟩ := f.exists_units he
    rw [hn] at hf hlt
    have hmn : m < n := by exact_mod_cast lt_of_mul_lt_mul_right hlt hpos.le
    exact absurd (hnear.ge ((le_div_iff₀ hpos).mpr hf)) (by omega)
  · have hlow := hscale.low.resolve_left (by have := f.fits.2.1; omega)
    have hpow : (2 : ℚ) ^ (f.exponent + 1) ≤ 2 ^ e := zpow_le_zpow_right₀ one_le_two (by omega)
    rw [zpow_add_one₀ two_ne_zero] at hpow
    have hm : 2 ^ 52 ≤ m := hnear.ge (by exact_mod_cast (le_div_iff₀ hpos).mpr hlow)
    have hm' : (2 : ℚ) ^ 52 * 2 ^ e ≤ m * 2 ^ e := by
      gcongr
      exact_mod_cast hm
    linarith [f.magnitude_lt]

/-- A number that is the magnitude of a value is rounded to it. -/
theorem Rounds.exact (hf : q = f.magnitude) : x.magnitude = q :=
  le_antisymm (hf ▸ h.le hf.le) (hf ▸ h.ge hf.ge)

end Rounds

theorem eq_of_magnitude {x y : Binary64} (hs : x.negative = y.negative) (h : x.magnitude = y.magnitude) : x = y := by
  have he : x.exponent = y.exponent := x.scale_magnitude.unique (h ▸ y.scale_magnitude)
  have hm : x.mantissa = y.mantissa := by
    rw [magnitude, magnitude, he] at h
    exact_mod_cast mul_right_cancel₀ (zpow_ne_zero _ two_ne_zero) h
  cases x
  cases y
  cases hs
  cases he
  cases hm
  rfl

end Binary64

def Decimal.Interval.Has (i : Interval) (q : ℚ) : Prop :=
  if i.closed then i.low * 2 ^ i.exponent ≤ q ∧ q ≤ i.high * 2 ^ i.exponent
  else i.low * 2 ^ i.exponent < q ∧ q < i.high * 2 ^ i.exponent

namespace Binary64

/-- How far the interval of a value reaches below it, in its own units. -/
def reach (x : Binary64) : ℚ := if x.mantissa = hidden ∧ x.exponent ≠ -1074 then 1 / 4 else 1 / 2

theorem reach_le (x : Binary64) : x.reach ≤ 1 / 2 := by
  rw [reach]
  split <;> norm_num

theorem has_of {x : Binary64} (hx : x.mantissa ≠ 0) {q : ℚ} : (Decimal.Interval.of x).Has q ↔
    if x.mantissa % 2 = 0 then x.mantissa - x.reach ≤ q / 2 ^ x.exponent ∧ q / 2 ^ x.exponent ≤ x.mantissa + 1 / 2
    else x.mantissa - x.reach < q / 2 ^ x.exponent ∧ q / 2 ^ x.exponent < x.mantissa + 1 / 2 := by
  have hpos : (0 : ℚ) < 2 ^ x.exponent := by positivity
  have hquarter : (2 : ℚ) ^ (x.exponent - 2) = 2 ^ x.exponent / 4 := by
    rw [zpow_sub₀ two_ne_zero]
    norm_num
  have hlow : ((Decimal.Interval.of x).low : ℚ) = 4 * (x.mantissa - x.reach) := by
    simp only [Decimal.Interval.of, reach]
    split
    · rw [Nat.cast_sub (by omega)]
      push_cast
      ring
    · rw [Nat.cast_sub (by omega)]
      push_cast
      ring
  have hhigh : ((Decimal.Interval.of x).high : ℚ) = 4 * (x.mantissa + 1 / 2) := by
    simp only [Decimal.Interval.of]
    push_cast
    ring
  have hexp : (Decimal.Interval.of x).exponent = x.exponent - 2 := rfl
  have hclosed : (Decimal.Interval.of x).closed = true ↔ x.mantissa % 2 = 0 := beq_iff_eq
  simp only [Decimal.Interval.Has, hclosed, hlow, hhigh, hexp, hquarter, le_div_iff₀ hpos, div_le_iff₀ hpos,
    lt_div_iff₀ hpos, div_lt_iff₀ hpos]
  have hscale (a : ℚ) : 4 * a * (2 ^ x.exponent / 4) = a * 2 ^ x.exponent := by ring
  simp only [hscale]

section Has

variable {q : ℚ} {x y : Binary64} (hx : x.mantissa ≠ 0)

include hx

theorem bounds_of_has (h : (Decimal.Interval.of x).Has q) :
    x.mantissa - x.reach ≤ q / 2 ^ x.exponent ∧ q / 2 ^ x.exponent ≤ x.mantissa + 1 / 2 := by
  rw [has_of hx] at h
  split at h
  · exact h
  · exact ⟨h.1.le, h.2.le⟩

theorem nearest_of_has (h : (Decimal.Interval.of x).Has q) : Nearest (q / 2 ^ x.exponent) x.mantissa := by
  have hreach := x.reach_le
  rw [has_of hx] at h
  split at h
  · rename_i heven
    rcases lt_or_eq_of_le (abs_le.mpr ⟨by linarith [h.1], by linarith [h.2]⟩ :
      |q / 2 ^ x.exponent - x.mantissa| ≤ 1 / 2) with hlt | heq
    · exact .inl hlt
    · exact .inr ⟨heq, heven⟩
  · exact .inl (abs_lt.mpr ⟨by linarith [h.1], by linarith [h.2]⟩)

/-- Below the least mantissa the units are half as large, and the value is the greatest one in them. -/
theorem scale_of_has (h : (Decimal.Interval.of x).Has q) (hexp : x.exponent ≠ -1074) (hq : q < 2 ^ 52 * 2 ^ x.exponent) :
    x.mantissa = 2 ^ 52 ∧ Scale q (x.exponent - 1) ∧ Nearest (q / 2 ^ (x.exponent - 1)) (2 ^ 53) := by
  obtain ⟨hlow, -⟩ := bounds_of_has hx h
  have hpos : (0 : ℚ) < 2 ^ x.exponent := by positivity
  have hunit : (2 : ℚ) ^ (x.exponent - 1) = 2 ^ x.exponent / 2 := by
    rw [zpow_sub₀ two_ne_zero]
    norm_num
  have hq' : q / 2 ^ x.exponent < 2 ^ 52 := (div_lt_iff₀ hpos).mpr hq
  have hleast : x.mantissa = 2 ^ 52 := by
    have h₁ : (x.mantissa : ℚ) < 2 ^ 52 + 1 := by linarith [x.reach_le]
    have h₂ : x.mantissa < 2 ^ 52 + 1 := by exact_mod_cast h₁
    have h₃ : 2 ^ 52 ≤ x.mantissa := x.fits.2.2.2.resolve_right hexp
    omega
  have hreach : x.reach = 1 / 4 := if_pos ⟨hleast, hexp⟩
  rw [hreach, hleast] at hlow
  push_cast at hlow
  refine ⟨hleast, ⟨by have := x.fits.2.1; omega, ?_, .inr ?_⟩, ?_⟩
  · rw [hunit]
    linarith
  · have h₁ := (le_div_iff₀ hpos).mp hlow
    rw [hunit]
    linarith
  · have hdouble : q / 2 ^ (x.exponent - 1) = 2 * (q / 2 ^ x.exponent) := by
      rw [hunit]
      field_simp
    have habs : |q / 2 ^ (x.exponent - 1) - (2 ^ 53 : ℕ)| ≤ 1 / 2 := by
      push_cast
      rw [hdouble, abs_le]
      constructor <;> linarith
    exact (lt_or_eq_of_le habs).imp_right fun heq => ⟨heq, by norm_num⟩

theorem Rounds.of_has (hy : Rounds q y) (h : (Decimal.Interval.of x).Has q) : y.magnitude = x.magnitude := by
  obtain ⟨m, e, hm, hnear, hscale⟩ := hy
  obtain ⟨-, hhigh⟩ := bounds_of_has hx h
  have hpos : (0 : ℚ) < 2 ^ x.exponent := by positivity
  have hlt : (x.mantissa : ℚ) + 1 ≤ 2 ^ 53 := by exact_mod_cast x.fits.1
  by_cases hnormal : x.exponent = -1074 ∨ 2 ^ 52 * 2 ^ x.exponent ≤ q
  · have hscale' : Scale q x.exponent := ⟨x.fits.2.1, (div_lt_iff₀ hpos).mp (by linarith), hnormal⟩
    obtain rfl := hscale.unique hscale'
    rw [hm, hnear.unique (nearest_of_has hx h), magnitude]
  · obtain ⟨hexp, hq⟩ := not_or.mp hnormal
    obtain ⟨hleast, hscale', hnear'⟩ := scale_of_has hx h hexp (not_le.mp hq)
    obtain rfl := hscale.unique hscale'
    rw [hm, hnear.unique hnear', magnitude, hleast, zpow_sub₀ two_ne_zero]
    push_cast
    ring

/-- What is nearest to the mantissa at the exponent of a value is in its interval. -/
theorem has_of_nearest (hnear : Nearest (q / 2 ^ x.exponent) x.mantissa) (hscale : Scale q x.exponent) :
    (Decimal.Interval.of x).Has q := by
  have hpos : (0 : ℚ) < 2 ^ x.exponent := by positivity
  have hlow : x.mantissa - x.reach ≤ q / 2 ^ x.exponent := by
    rw [reach]
    split
    · rename_i hleast
      have hnormal := (le_div_iff₀ hpos).mpr (hscale.low.resolve_left hleast.2)
      rw [hleast.1, hidden_eq]
      push_cast
      linarith
    · linarith [(abs_le.mp hnear.le).1]
  rw [has_of hx]
  split
  · exact ⟨hlow, by linarith [(abs_le.mp hnear.le).2]⟩
  · rename_i hodd
    have hstrict := abs_lt.mp (hnear.resolve_right fun h => hodd h.2)
    have hreach : x.reach = 1 / 2 := if_neg fun h => hodd (by rw [h.1]; rfl)
    rw [hreach]
    constructor <;> linarith

/-- What is rounded up to a power of two, which has the next exponent, is in its interval. -/
theorem has_of_full {e : ℤ} (hm : x.magnitude = 2 ^ 53 * 2 ^ e) (hnear : Nearest (q / 2 ^ e) (2 ^ 53))
    (hscale : Scale q e) : (Decimal.Interval.of x).Has q := by
  have hpos : (0 : ℚ) < 2 ^ e := by positivity
  have hhigh : q / 2 ^ e < 2 ^ 53 := (div_lt_iff₀ hpos).mpr hscale.high
  have hnext : (2 : ℚ) ^ (e + 1) = 2 ^ e * 2 := zpow_add_one₀ two_ne_zero e
  have hscale' : Scale x.magnitude (e + 1) := by
    refine ⟨by have := hscale.least; omega, ?_, .inr ?_⟩ <;> rw [hm, hnext] <;> linarith
  have hexp := x.scale_magnitude.unique hscale'
  have hmantissa : x.mantissa = 2 ^ 52 := by
    have h₁ : (x.mantissa : ℚ) * 2 ^ (e + 1) = 2 ^ 52 * 2 ^ (e + 1) := by
      rw [← hexp]
      change x.magnitude = _
      rw [hm, hexp, hnext]
      ring
    exact_mod_cast mul_right_cancel₀ (zpow_ne_zero _ two_ne_zero) h₁
  have hreach : x.reach = 1 / 4 := if_pos ⟨hmantissa, by have := hscale.least; omega⟩
  have hhalf : q / 2 ^ (e + 1) = q / 2 ^ e / 2 := by rw [hnext, div_mul_eq_div_div]
  have hlow := (abs_le.mp hnear.le).1
  push_cast at hlow
  rw [has_of hx, hmantissa, hreach, hexp, hhalf, if_pos (by norm_num)]
  push_cast
  constructor <;> linarith

theorem Rounds.has (h : Rounds q x) : (Decimal.Interval.of x).Has q := by
  obtain ⟨m, e, hm, hnear, hscale⟩ := h
  have hpos : (0 : ℚ) < 2 ^ e := by positivity
  have hhigh : q / 2 ^ e < 2 ^ 53 := (div_lt_iff₀ hpos).mpr hscale.high
  have hm53 : m ≤ 2 ^ 53 := hnear.le_of_le (by exact_mod_cast hhigh.le)
  rcases Nat.lt_or_eq_of_le hm53 with hlt | rfl
  · have hscale' : Scale x.magnitude e := by
      refine ⟨hscale.least, ?_, hscale.low.imp_right fun hlow => ?_⟩
      · rw [hm]
        gcongr
        exact_mod_cast hlt
      · have hm52 : 2 ^ 52 ≤ m := hnear.ge (by exact_mod_cast (le_div_iff₀ hpos).mpr hlow)
        rw [hm]
        gcongr
        exact_mod_cast hm52
    obtain rfl := x.scale_magnitude.unique hscale'
    have hmantissa : x.mantissa = m := by
      rw [magnitude] at hm
      exact_mod_cast mul_right_cancel₀ hpos.ne' hm
    exact has_of_nearest hx (hmantissa ▸ hnear) hscale
  · push_cast at hm
    exact has_of_full hx hm hnear hscale

end Has

end Binary64
end TokenLedger
