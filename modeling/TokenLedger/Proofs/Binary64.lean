import TokenLedger.Decimal.Binary64
import Mathlib.Tactic

/-! Rounding gives a value where the number is neither too large nor too small: the exponent that is
chosen leaves 53 bits for the mantissa. So decimals with few digits have a value. -/

namespace TokenLedger.Binary64

theorem hidden_eq : hidden = 2 ^ 52 := rfl

/-- The numerator and the denominator of `n / (d * 2 ^ e)`. -/
def top (n : Nat) (e : Int) : Nat := n <<< (-e).toNat
def bottom (d : Nat) (e : Int) : Nat := d <<< e.toNat

theorem bottom_pos {d : Nat} (hd : d ≠ 0) (e : Int) : 0 < bottom d e := by
  rw [bottom, Nat.shiftLeft_eq]
  positivity

theorem double_exponent (n d : Nat) (e : Int) :
    top n (e - 1) * bottom d e = 2 * (top n e * bottom d (e - 1)) := by
  simp only [top, bottom, Nat.shiftLeft_eq]
  by_cases h : 1 ≤ e
  · have h₁ : (-(e - 1)).toNat = 0 := by omega
    have h₂ : (-e).toNat = 0 := by omega
    have h₃ : e.toNat = (e - 1).toNat + 1 := by omega
    rw [h₁, h₂, h₃, pow_succ]
    ring
  · have h₁ : (-(e - 1)).toNat = (-e).toNat + 1 := by omega
    have h₂ : (e - 1).toNat = 0 := by omega
    have h₃ : e.toNat = 0 := by omega
    rw [h₁, h₂, h₃, pow_succ]
    ring

theorem quotient_bounds {n d : Nat} (hn : n ≠ 0) (hd : d ≠ 0) :
    2 ^ 51 * bottom d (Nat.log2 n - Nat.log2 d - 52) ≤ top n (Nat.log2 n - Nat.log2 d - 52) ∧
      top n (Nat.log2 n - Nat.log2 d - 52) < 2 ^ 53 * bottom d (Nat.log2 n - Nat.log2 d - 52) := by
  have hn₁ := Nat.log2_self_le hn
  have hn₂ := Nat.lt_log2_self (n := n)
  have hd₁ := Nat.log2_self_le hd
  have hd₂ := Nat.lt_log2_self (n := d)
  generalize Nat.log2 n = a at *
  generalize Nat.log2 d = b at *
  simp only [top, bottom, Nat.shiftLeft_eq]
  generalize hu : (-((a : Int) - b - 52)).toNat = u
  generalize hv : ((a : Int) - b - 52).toNat = v
  have huv : a + u = b + 52 + v := by omega
  have hle : 2 ^ 51 * (2 ^ (b + 1) * 2 ^ v) = 2 ^ a * 2 ^ u := by
    rw [← pow_add, ← pow_add, ← pow_add]
    congr 1
    omega
  have hge : 2 ^ (a + 1) * 2 ^ u = 2 ^ 53 * (2 ^ b * 2 ^ v) := by
    rw [← pow_add, ← pow_add, ← pow_add]
    congr 1
    omega
  constructor
  · calc 2 ^ 51 * (d * 2 ^ v) ≤ 2 ^ 51 * (2 ^ (b + 1) * 2 ^ v) := by gcongr
      _ = 2 ^ a * 2 ^ u := hle
      _ ≤ n * 2 ^ u := by gcongr
  · calc n * 2 ^ u < 2 ^ (a + 1) * 2 ^ u := by gcongr
      _ = 2 ^ 53 * (2 ^ b * 2 ^ v) := hge
      _ ≤ 2 ^ 53 * (d * 2 ^ v) := by gcongr

/-- The exponent is chosen so that the quotient has 53 bits, unless this would be below the least one. -/
theorem exponentFor_eq {n d : Nat} (hn : n ≠ 0) (hd : d ≠ 0) : ∃ e, exponentFor n d = max e (-1074) ∧
    hidden ≤ top n e / bottom d e ∧ top n e / bottom d e < 2 * hidden ∧
    (Nat.log2 n : Int) - Nat.log2 d - 53 ≤ e ∧ e ≤ Nat.log2 n - Nat.log2 d - 52 := by
  obtain ⟨hlow, hhigh⟩ := quotient_bounds hn hd
  generalize he : (Nat.log2 n : Int) - Nat.log2 d - 52 = e at *
  have hpos := bottom_pos hd e
  have hpos' := bottom_pos hd (e - 1)
  by_cases hlt : top n e / bottom d e < hidden
  · have hchosen : exponentFor n d = max (e - 1) (-1074) := by
      have hlt' : (n <<< (-e).toNat) / (d <<< e.toNat) < hidden := hlt
      simp only [exponentFor, he, if_pos hlt']
    have hdouble := double_exponent n d e
    rw [Nat.div_lt_iff_lt_mul hpos, hidden_eq] at hlt
    refine ⟨e - 1, hchosen, ?_, ?_, by omega, by omega⟩
    · rw [Nat.le_div_iff_mul_le hpos', hidden_eq]
      refine Nat.le_of_mul_le_mul_right (c := bottom d e) ?_ hpos
      rw [hdouble]
      calc 2 ^ 52 * bottom d (e - 1) * bottom d e
          = 2 * (2 ^ 51 * bottom d e * bottom d (e - 1)) := by ring
        _ ≤ 2 * (top n e * bottom d (e - 1)) := by gcongr
    · rw [Nat.div_lt_iff_lt_mul hpos', hidden_eq]
      refine Nat.lt_of_mul_lt_mul_right (a := bottom d e) ?_
      rw [hdouble]
      calc 2 * (top n e * bottom d (e - 1)) < 2 * (2 ^ 52 * bottom d e * bottom d (e - 1)) := by gcongr
        _ = 2 * 2 ^ 52 * bottom d (e - 1) * bottom d e := by ring
  · have hchosen : exponentFor n d = max e (-1074) := by
      have hlt' : ¬ (n <<< (-e).toNat) / (d <<< e.toNat) < hidden := hlt
      simp only [exponentFor, he, if_neg hlt']
    refine ⟨e, hchosen, by omega, ?_, by omega, by omega⟩
    rw [Nat.div_lt_iff_lt_mul hpos, hidden_eq]
    exact hhigh

theorem exponentFor_bounds {n d : Nat} (hn : n ≠ 0) (hd : d ≠ 0)
    (h : (Nat.log2 d : Int) ≤ Nat.log2 n + 1021) :
    hidden ≤ top n (exponentFor n d) / bottom d (exponentFor n d) ∧
      top n (exponentFor n d) / bottom d (exponentFor n d) < 2 * hidden ∧
      (Nat.log2 n : Int) - Nat.log2 d - 53 ≤ exponentFor n d ∧
      exponentFor n d ≤ Nat.log2 n - Nat.log2 d - 52 := by
  obtain ⟨e, he, h₁, h₂, h₃, h₄⟩ := exponentFor_eq hn hd
  rw [he, max_eq_left (by omega)]
  exact ⟨h₁, h₂, h₃, h₄⟩

theorem roundDiv_bounds (n d : Nat) : n / d ≤ roundDiv n d ∧ roundDiv n d ≤ n / d + 1 := by
  unfold roundDiv
  dsimp only
  split <;> omega

/-- A quotient that is neither too large nor too small has a value, and its binary exponent is close to
the difference of the numbers of bits. -/
theorem round_eq_some (negative : Bool) {n d : Nat} (hn : n ≠ 0) (hd : d ≠ 0)
    (hlow : (Nat.log2 d : Int) ≤ Nat.log2 n + 1021) (hhigh : (Nat.log2 n : Int) ≤ Nat.log2 d + 1000) :
    ∃ x, round negative n d = some x ∧ (Nat.log2 n : Int) - Nat.log2 d - 53 ≤ x.exponent ∧
      x.exponent ≤ Nat.log2 n - Nat.log2 d - 51 := by
  obtain ⟨h₁, h₂, h₃, h₄⟩ := exponentFor_bounds hn hd hlow
  obtain ⟨h₅, h₆⟩ := roundDiv_bounds (top n (exponentFor n d)) (bottom d (exponentFor n d))
  have hm : scaled n d (exponentFor n d)
      = roundDiv (top n (exponentFor n d)) (bottom d (exponentFor n d)) := rfl
  have hh : 0 < hidden := by decide
  simp only [round, if_neg hn, hm]
  generalize roundDiv (top n (exponentFor n d)) (bottom d (exponentFor n d)) = m at *
  by_cases hfull : m = 2 * hidden
  · have hf : Fits hidden (exponentFor n d + 1) := ⟨by omega, by omega, by omega, .inl (le_refl _)⟩
    exact ⟨⟨negative, hidden, _, hf⟩, by simp [hfull, ofParts?, hf], by dsimp only; omega, by dsimp only; omega⟩
  · have hf : Fits m (exponentFor n d) := ⟨by omega, by omega, by omega, .inl (by omega)⟩
    exact ⟨⟨negative, m, _, hf⟩, by simp [hfull, ofParts?, hf], by dsimp only; omega, by dsimp only; omega⟩

theorem round_eq_some_of_lt (negative : Bool) {n d : Nat} (hn : n ≠ 0) (hd : d ≠ 0) (hn' : n < 2 ^ 200)
    (hd' : d < 2 ^ 200) : ∃ x, round negative n d = some x := by
  have h₁ := (Nat.log2_lt hn).mpr hn'
  have h₂ := (Nat.log2_lt hd).mpr hd'
  obtain ⟨x, hx, -⟩ := round_eq_some negative hn hd (by omega) (by omega)
  exact ⟨x, hx⟩

theorem den_ne_zero (x : Binary64) : x.den ≠ 0 := by
  rw [den, Nat.shiftLeft_eq]
  positivity

theorem ofNat?_eq_some {n : Nat} (hn : n ≠ 0) (hlt : n < 2 ^ 64) :
    ∃ x, ofNat? n = some x ∧ x.num ≠ 0 ∧ x.num < 2 ^ 66 ∧ x.den < 2 ^ 54 := by
  have hlog := (Nat.log2_lt hn).mpr hlt
  have h₁ : Nat.log2 1 = 0 := by decide
  obtain ⟨x, hx, hlow, hhigh⟩ := round_eq_some false hn Nat.one_ne_zero (by omega) (by omega)
  rw [h₁] at hlow hhigh
  obtain ⟨hm, -, -, hne⟩ := x.fits
  have hpos : x.mantissa ≠ 0 := by
    have hh : 0 < hidden := by decide
    omega
  refine ⟨x, hx, ?_, ?_, ?_⟩
  · rw [num, Nat.shiftLeft_eq]
    positivity
  · rw [num, Nat.shiftLeft_eq]
    calc x.mantissa * 2 ^ x.exponent.toNat < 2 ^ 53 * 2 ^ x.exponent.toNat := by
          gcongr
          exact hm
      _ ≤ 2 ^ 53 * 2 ^ 13 := by
          gcongr
          · omega
          · omega
      _ = 2 ^ 66 := by norm_num
  · rw [den, Nat.shiftLeft_eq, one_mul]
    exact Nat.pow_lt_pow_right (by omega) (by omega)

theorem ofDecimal?_eq_some {n k : Nat} (hn : n < 2 ^ 64) (h0 : 0 < k) (hk : k ≤ 18) :
    ∃ x, ofDecimal? false n (-(k : Int)) = some x := by
  have hten : Nat.pow 10 k ≠ 0 := (Nat.pow_pos (by omega)).ne'
  have hten' : Nat.pow 10 k < 2 ^ 64 :=
    Nat.lt_of_le_of_lt (Nat.pow_le_pow_right (by omega) hk) (by norm_num)
  obtain ⟨y, hy, hy₁, hy₂, hy₃⟩ := ofNat?_eq_some hten hten'
  have hp : pow10? k = some y := hy
  obtain ⟨x, hx, hx₁, hx₂⟩ : ∃ x, ofNat? n = some x ∧ (x.num = 0 ∨ x.num ≠ 0) ∧
      (x.num ≠ 0 → x.num < 2 ^ 66 ∧ x.den < 2 ^ 54) := by
    by_cases h : n = 0
    · exact ⟨zero false, by rw [ofNat?, round, if_pos h], .inl (by decide), fun h => absurd (by decide) h⟩
    · obtain ⟨x, hx, h₁, h₂, h₃⟩ := ofNat?_eq_some h hn
      exact ⟨x, hx, .inr h₁, fun _ => ⟨h₂, h₃⟩⟩
  have hdiv : ∃ z, x.div? y = some z := by
    rcases hx₁ with h0 | h0
    · exact ⟨_, by rw [div?, h0, Nat.zero_mul, round, if_pos rfl]⟩
    · obtain ⟨h₁, h₂⟩ := hx₂ h0
      refine round_eq_some_of_lt _ (Nat.mul_ne_zero h0 y.den_ne_zero) (Nat.mul_ne_zero x.den_ne_zero hy₁)
        ?_ ?_
      · calc x.num * y.den < 2 ^ 66 * 2 ^ 54 := by gcongr
          _ ≤ 2 ^ 200 := by norm_num
      · calc x.den * y.num < 2 ^ 54 * 2 ^ 66 := by gcongr
          _ ≤ 2 ^ 200 := by norm_num
  obtain ⟨z, hz⟩ := hdiv
  refine ⟨z, ?_⟩
  have hk₁ : k / 308 = 0 := by omega
  have hk₂ : k % 308 = k := by omega
  have hneg : ¬ k = 0 := by omega
  simp [ofDecimal?, hx, hneg, hk₁, hk₂, lower, hp, hz]

end TokenLedger.Binary64
