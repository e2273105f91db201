import TokenLedger.Proofs.Amount
import TokenLedger.Proofs.Rounding

/-! The shortest digits of a value. They spell a number that is rounded to the value, there are few of them, and
none of a number that is given by few digits is lost. -/

namespace TokenLedger.Decimal

open Binary64

namespace Interval

variable {i : Interval} {k : ℤ} {n : ℕ}

theorem step_pos (i : Interval) (k : ℤ) : (0 : ℚ) < i.step k := by
  rw [step, Nat.shiftLeft_eq, Nat.pow_eq]
  positivity

theorem unit_pos (i : Interval) (k : ℤ) : (0 : ℚ) < i.unit k := by
  rw [unit, Nat.shiftLeft_eq, Nat.pow_eq]
  positivity

theorem step_mul (i : Interval) (k : ℤ) : (i.step k : ℚ) * 2 ^ i.exponent = 10 ^ k * i.unit k := by
  rw [step, unit, Nat.shiftLeft_eq, Nat.shiftLeft_eq, Nat.pow_eq, Nat.pow_eq, zpow_eq_div two_ne_zero, zpow_eq_div (a := 10) (by norm_num)]
  push_cast
  field_simp

/-- Products of steps and of units are compared as the numbers that they stand for. -/
theorem mul_unit_le {a : ℕ} : a * i.unit k ≤ n * i.step k ↔ (a : ℚ) * 2 ^ i.exponent ≤ n * 10 ^ k := by
  have htwo : (0 : ℚ) < 2 ^ i.exponent := by positivity
  rw [← @Nat.cast_le ℚ, Nat.cast_mul, Nat.cast_mul, ← mul_le_mul_iff_of_pos_right htwo, mul_assoc (n : ℚ), step_mul,
    ← mul_assoc, mul_right_comm (a : ℚ), mul_le_mul_iff_of_pos_right (i.unit_pos k)]

theorem mul_step_le {a : ℕ} : n * i.step k ≤ a * i.unit k ↔ (n : ℚ) * 10 ^ k ≤ a * 2 ^ i.exponent := by
  have htwo : (0 : ℚ) < 2 ^ i.exponent := by positivity
  rw [← @Nat.cast_le ℚ, Nat.cast_mul, Nat.cast_mul, ← mul_le_mul_iff_of_pos_right htwo, mul_assoc (n : ℚ), step_mul,
    ← mul_assoc, mul_right_comm (a : ℚ), mul_le_mul_iff_of_pos_right (i.unit_pos k)]

theorem contains_iff : i.contains k n ↔ i.Has (n * 10 ^ k) := by
  have hlow := mul_unit_le (i := i) (k := k) (n := n) (a := i.low)
  have hhigh := mul_step_le (i := i) (k := k) (n := n) (a := i.high)
  have hlow' := mul_step_le (i := i) (k := k) (n := n) (a := i.low)
  have hhigh' := mul_unit_le (i := i) (k := k) (n := n) (a := i.high)
  rw [← not_iff_not, not_le, not_le] at hlow' hhigh'
  rw [contains, Has]
  split <;> simp [*]

def base (i : Interval) (k : ℤ) : ℕ := i.mid * i.unit k / i.step k

theorem base_le (i : Interval) (k : ℤ) : (i.base k : ℚ) * 10 ^ k ≤ i.mid * 2 ^ i.exponent :=
  mul_step_le.mp (Nat.div_mul_le_self _ _)

theorem lt_base_succ (i : Interval) (k : ℤ) : (i.mid : ℚ) * 2 ^ i.exponent < (i.base k + 1 : ℕ) * 10 ^ k := by
  have hpos : 0 < i.step k := by exact_mod_cast i.step_pos k
  have h := Nat.lt_div_mul_add (a := i.mid * i.unit k) hpos
  rw [← not_le, ← mul_step_le, not_le, add_mul, one_mul]
  exact h

theorem contains_of_point? {tie : Tie} (h : i.point? tie k = some n) : i.contains k n := by
  unfold point? at h
  grind

theorem isSome_point? {tie : Tie} : (i.point? tie k).isSome ↔ i.contains k (i.base k) ∨ i.contains k (i.base k + 1) := by
  unfold point? base
  grind

structure Proper (i : Interval) : Prop where
  low : i.low < i.mid
  high : i.mid < i.high

section Proper

variable {tie : Tie} (h : i.Proper)

include h

theorem Proper.mid_lt : (i.low : ℚ) * 2 ^ i.exponent < i.mid * 2 ^ i.exponent ∧
    (i.mid : ℚ) * 2 ^ i.exponent < i.high * 2 ^ i.exponent := by
  have hlow : (i.low : ℚ) < i.mid := by exact_mod_cast h.low
  have hhigh : (i.mid : ℚ) < i.high := by exact_mod_cast h.high
  constructor <;> gcongr

theorem Proper.has_of_mid_le {q : ℚ} (hmid : i.mid * 2 ^ i.exponent ≤ q) (hq : q < i.high * 2 ^ i.exponent) :
    i.Has q := by
  have hlow := h.mid_lt.1
  rw [Has]
  split
  · exact ⟨by linarith, hq.le⟩
  · exact ⟨by linarith, hq⟩

theorem Proper.has_between {q r : ℚ} (hq : i.Has q)
    (hr : q ≤ r ∧ r ≤ i.mid * 2 ^ i.exponent ∨ i.mid * 2 ^ i.exponent ≤ r ∧ r ≤ q) : i.Has r := by
  obtain ⟨hlow, hhigh⟩ := h.mid_lt
  by_cases hc : i.closed
  · simp only [Has, hc, if_true] at hq ⊢
    rcases hr with hr | hr <;> constructor <;> linarith [hq.1, hq.2, hr.1, hr.2]
  · simp only [Has, hc, Bool.false_eq_true, if_false] at hq ⊢
    rcases hr with hr | hr <;> constructor <;> linarith [hq.1, hq.2, hr.1, hr.2]

/-- A point of the grid that lies in the interval is found, or one that is nearer to the middle. -/
theorem Proper.isSome_of_has (hn : i.Has (n * 10 ^ k)) : (i.point? tie k).isSome := by
  have hten : (0 : ℚ) < 10 ^ k := by positivity
  rw [isSome_point?, contains_iff, contains_iff]
  rcases Nat.lt_or_ge (i.base k) n with hlt | hle
  · have hle : ((i.base k + 1 : ℕ) : ℚ) * 10 ^ k ≤ n * 10 ^ k := by
      gcongr
      exact hlt
    exact .inr (h.has_between hn (.inr ⟨(i.lt_base_succ k).le, hle⟩))
  · have hle : (n : ℚ) * 10 ^ k ≤ i.base k * 10 ^ k := by
      gcongr
    exact .inl (h.has_between hn (.inl ⟨hle, i.base_le k⟩))

theorem Proper.isSome_of_fine (hk : i.mid * 2 ^ i.exponent + 10 ^ k ≤ i.high * (2 : ℚ) ^ i.exponent) :
    (i.point? tie k).isSome := by
  have hbase := i.base_le k
  have hsucc := i.lt_base_succ k
  rcases eq_or_lt_of_le hbase with heq | hlt
  · refine h.isSome_of_has (n := i.base k) (h.has_of_mid_le heq.ge ?_)
    rw [heq]
    exact h.mid_lt.2
  · refine h.isSome_of_has (n := i.base k + 1) (h.has_of_mid_le hsucc.le ?_)
    push_cast at hsucc ⊢
    linarith

end Proper

theorem search_eq {tie : Tie} (i : Interval) {least : ℤ} (hleast : (i.point? tie least).isSome) {fuel : ℕ} {k : ℤ}
    (hk : least ≤ k) (hfuel : k < least + fuel) : ∃ n j, i.search tie fuel k = (n, j) ∧ i.point? tie j = some n ∧
      least ≤ j ∧ j ≤ k ∧ (j = k ∨ i.point? tie (j + 1) = none) := by
  induction fuel generalizing k with
  | zero => omega
  | succ fuel ih =>
    rw [search]
    cases hp : i.point? tie k with
    | some n => exact ⟨n, k, rfl, hp, hk, le_refl _, .inl rfl⟩
    | none =>
      have hne : least ≠ k := fun h => by simp [h, hp] at hleast
      obtain ⟨n, j, hs, hj, hle, hlt, hnext⟩ := ih (k := k - 1) (by omega) (by push_cast at hfuel; omega)
      refine ⟨n, j, hs, hj, hle, by omega, .inr ?_⟩
      rcases hnext with rfl | hnext
      · rw [sub_add_cancel]
        exact hp
      · exact hnext

theorem proper_of {x : Binary64} (hx : x.mantissa ≠ 0) : (of x).Proper := by
  constructor
  · simp only [of]
    split <;> omega
  · simp only [of]
    omega

end Interval

/-- An exponent of ten for a number of bits before the point. -/
def topFor (bits : ℤ) : ℤ := bits * 30103 / 100000 + 1

/-- It is hardly too large, and no smaller than the exponent of the leading digit but one. -/
theorem topFor_bounds : ∀ q : ℕ, q < 1076 → topFor (1 - q) ≤ 1 ∧ -324 ≤ topFor (1 - q) ∧
    Nat.pow 2 (q + 53) ≤ Nat.pow 10 (19 - topFor (1 - q)).toNat ∧
    Nat.pow 10 (1 - topFor (1 - q)).toNat ≤ 50 * Nat.pow 2 q := by
  decide +kernel

section Unit

variable {x : Binary64} (hx : x.mantissa ≠ 0)

theorem Interval.mid_of (x : Binary64) : ((Interval.of x).mid : ℚ) * 2 ^ (Interval.of x).exponent = x.magnitude := by
  have hquarter : (2 : ℚ) ^ (x.exponent - 2) = 2 ^ x.exponent / 4 := by
    rw [zpow_sub₀ two_ne_zero]
    norm_num
  simp only [Interval.of, hquarter, magnitude]
  push_cast
  ring

theorem Interval.high_of (x : Binary64) :
    ((Interval.of x).high : ℚ) * 2 ^ (Interval.of x).exponent = x.magnitude + 2 ^ (x.exponent - 1) := by
  have hquarter : (2 : ℚ) ^ (x.exponent - 2) = 2 ^ x.exponent / 4 := by
    rw [zpow_sub₀ two_ne_zero]
    norm_num
  have hhalf : (2 : ℚ) ^ (x.exponent - 1) = 2 ^ x.exponent / 2 := by
    rw [zpow_sub₀ two_ne_zero]
    norm_num
  simp only [Interval.of, hquarter, hhalf, magnitude]
  push_cast
  ring

theorem Interval.Has.le_high {i : Interval} {q : ℚ} (h : i.Has q) : q ≤ i.high * 2 ^ i.exponent := by
  rw [Has] at h
  split at h
  · exact h.2
  · exact h.2.le

theorem Interval.Has.low_le {i : Interval} {q : ℚ} (h : i.Has q) : i.low * 2 ^ i.exponent ≤ q := by
  rw [Has] at h
  split at h
  · exact h.1
  · exact h.1.le

def bits (x : Binary64) : ℤ := Nat.log2 x.mantissa + x.exponent + 1

theorem topExponent_eq (x : Binary64) : topExponent x = topFor (bits x) := rfl

include hx

theorem pow_bits_le : 2 ^ (bits x - 1) ≤ x.magnitude := by
  have h : (2 : ℚ) ^ Nat.log2 x.mantissa ≤ x.mantissa := by exact_mod_cast Nat.log2_self_le hx
  have hexp : bits x - 1 = (Nat.log2 x.mantissa : ℤ) + x.exponent := by
    rw [bits]
    omega
  rw [hexp, zpow_add₀ two_ne_zero, zpow_natCast, magnitude]
  gcongr

omit hx in
theorem high_lt_pow_bits : (Interval.of x).high * 2 ^ (Interval.of x).exponent < (2 : ℚ) ^ bits x := by
  have h : (x.mantissa : ℚ) + 1 ≤ 2 ^ (Nat.log2 x.mantissa + 1) := by exact_mod_cast Nat.lt_log2_self
  have hexp : bits x = ((Nat.log2 x.mantissa + 1 : ℕ) : ℤ) + x.exponent := by
    rw [bits]
    push_cast
    omega
  have hhalf : (2 : ℚ) ^ (x.exponent - 1) = 2 ^ x.exponent / 2 := by
    rw [zpow_sub₀ two_ne_zero]
    norm_num
  have hpos : (0 : ℚ) < 2 ^ x.exponent := by positivity
  rw [Interval.high_of, hexp, zpow_add₀ two_ne_zero, zpow_natCast, magnitude, hhalf]
  have hmul := mul_le_mul_of_nonneg_right h hpos.le
  linarith

theorem topExponent_bounds (hone : x.magnitude ≤ 1) : topExponent x ≤ 1 ∧ -324 ≤ topExponent x ∧
    (10 : ℚ) ^ (topExponent x - 19) ≤ 2 ^ (x.exponent - 1) ∧ (2 : ℚ) ^ bits x ≤ 10 ^ (topExponent x + 1) := by
  have hlow := pow_bits_le hx
  have hbits : bits x ≤ 1 := by
    have hle : (2 : ℚ) ^ (bits x - 1) ≤ 2 ^ (0 : ℤ) := by
      rw [zpow_zero]
      exact hlow.trans hone
    have := (zpow_le_zpow_iff_right₀ one_lt_two).mp hle
    omega
  have hlog : Nat.log2 x.mantissa < 53 := (Nat.log2_lt hx).mpr x.fits.1
  have hleast := x.fits.2.1
  obtain ⟨q, hq⟩ : ∃ q : ℕ, bits x = 1 - q := ⟨(1 - bits x).toNat, by omega⟩
  have hdef : bits x = Nat.log2 x.mantissa + x.exponent + 1 := rfl
  obtain ⟨h₁, h₂, h₃, h₄⟩ := topFor_bounds q (by omega)
  rw [topExponent_eq, hq]
  generalize topFor (1 - q) = k at *
  rw [Nat.pow_eq, Nat.pow_eq] at h₃ h₄
  refine ⟨h₁, h₂, ?_, ?_⟩
  · have hpow : (2 : ℚ) ^ (q + 53) ≤ 10 ^ (19 - k).toNat := by exact_mod_cast h₃
    have hten : (10 : ℚ) ^ (k - 19) = (10 ^ (19 - k).toNat)⁻¹ := by
      rw [← zpow_natCast, ← zpow_neg]
      congr 1
      omega
    calc (10 : ℚ) ^ (k - 19) = (10 ^ (19 - k).toNat)⁻¹ := hten
      _ ≤ (2 ^ (q + 53))⁻¹ := inv_anti₀ (by positivity) hpow
      _ = 2 ^ (-((q + 53 : ℕ) : ℤ)) := by rw [zpow_neg, zpow_natCast]
      _ ≤ 2 ^ (x.exponent - 1) := zpow_le_zpow_right₀ one_le_two (by omega)
  · have hpow : (10 : ℚ) ^ (1 - k).toNat ≤ 50 * 2 ^ q := by exact_mod_cast h₄
    have hten : (10 : ℚ) ^ (k + 1) = 100 / 10 ^ (1 - k).toNat := by
      rw [← zpow_natCast, eq_div_iff (by positivity), ← zpow_add₀ (by norm_num)]
      have hexp : k + 1 + ((1 - k).toNat : ℤ) = 2 := by omega
      rw [hexp]
      norm_num
    rw [hten, zpow_sub₀ two_ne_zero, zpow_one, zpow_natCast, div_le_div_iff₀ (by positivity) (by positivity)]
    linarith

theorem isSome_of_le {tie : Tie} {k : ℤ} (hk : (10 : ℚ) ^ k ≤ 2 ^ (x.exponent - 1)) :
    ((Interval.of x).point? tie k).isSome := by
  refine (Interval.proper_of hx).isSome_of_fine ?_
  rw [Interval.mid_of, Interval.high_of]
  linarith

theorem point_pos {n : ℕ} {k : ℤ} (h : (Interval.of x).Has (n * 10 ^ k)) : 0 < n := by
  have hlow : 0 < (Interval.of x).low := by
    simp only [Interval.of]
    split <;> omega
  refine Nat.pos_of_ne_zero fun hn => ?_
  have hle := h.low_le
  rw [hn, Nat.cast_zero, zero_mul] at hle
  have hpos : (0 : ℚ) < (Interval.of x).low * 2 ^ (Interval.of x).exponent := by positivity
  linarith

/-- A point has few digits on the first grid, and on one that comes after a grid without a point. -/
theorem point_lt (hone : x.magnitude ≤ 1) {tie : Tie} {n : ℕ} {k : ℤ} (h : (Interval.of x).Has (n * 10 ^ k))
    (hk : k = topExponent x ∨ (Interval.of x).point? tie (k + 1) = none) : n < 10 * 2 ^ 54 := by
  have hle := h.le_high
  have hpos : (0 : ℚ) < 10 ^ k := by positivity
  have hlt : (n : ℚ) < 10 * 2 ^ 54 := by
    refine lt_of_mul_lt_mul_right (a := (10 : ℚ) ^ k) ?_ hpos.le
    rcases hk with rfl | hnone
    · obtain ⟨-, -, -, hten⟩ := topExponent_bounds hx hone
      have hhigh := high_lt_pow_bits (x := x)
      rw [zpow_add_one₀ (by norm_num)] at hten
      linarith
    · -- the grid before had no point, so its steps were as wide as the interval
      have hcoarse : (2 : ℚ) ^ (x.exponent - 1) < 10 ^ (k + 1) := by
        refine not_le.mp fun h => ?_
        have hsome : ((Interval.of x).point? tie (k + 1)).isSome := isSome_of_le hx h
        rw [hnone] at hsome
        cases hsome
      have hm : (x.mantissa : ℚ) + 1 ≤ 2 ^ 53 := by exact_mod_cast x.fits.1
      have hhalf : (2 : ℚ) ^ x.exponent = 2 ^ (x.exponent - 1) * 2 := by
        rw [← zpow_add_one₀ two_ne_zero, sub_add_cancel]
      have hunit : (0 : ℚ) < 2 ^ (x.exponent - 1) := by positivity
      rw [Interval.high_of, magnitude, hhalf] at hle
      rw [zpow_add_one₀ (by norm_num)] at hcoarse
      have hmul := mul_le_mul_of_nonneg_right hm hunit.le
      linarith
  exact_mod_cast hlt

/-- The search comes to a point in the interval, on a grid that is no finer than any other one that has a point
there. -/
theorem exists_point (hone : x.magnitude ≤ 1) (tie : Tie) :
    ∃ (n : ℕ) (k : ℤ), (Interval.of x).search tie 20 (topExponent x) = (n, k) ∧ (Interval.of x).Has (n * 10 ^ k) ∧
      0 < n ∧ n < 2 ^ 64 ∧ -343 ≤ k ∧
      ∀ (a : ℕ) (j : ℤ), 0 < a → (Interval.of x).Has (a * 10 ^ j) → j ≤ k := by
  obtain ⟨htop, hleast, hfine, hten⟩ := topExponent_bounds hx hone
  have hproper := Interval.proper_of hx
  have hsearch {j : ℤ} (hj : ((Interval.of x).point? tie j).isSome) (h : j ≤ topExponent x)
      (h' : topExponent x < j + (20 : ℕ)) := Interval.search_eq (Interval.of x) hj h h'
  obtain ⟨n, k, hs, hp, hk, hktop, hnext⟩ := hsearch (isSome_of_le hx hfine) (by omega) (by omega)
  have hhas := Interval.contains_iff.mp (Interval.contains_of_point? hp)
  have hlt := point_lt hx hone hhas hnext
  refine ⟨n, k, hs, hhas, point_pos hx hhas, by omega, by omega, fun a j ha hj => ?_⟩
  by_contra hlt
  have hpos : (0 : ℚ) < 10 ^ j := by positivity
  have ha' : (1 : ℚ) ≤ a := by exact_mod_cast ha
  have hle : (10 : ℚ) ^ j ≤ a * 10 ^ j := by
    have := mul_le_mul_of_nonneg_right ha' hpos.le
    linarith
  have hhigh := high_lt_pow_bits (x := x)
  have hjtop : (10 : ℚ) ^ j < 10 ^ (topExponent x + 1) := by linarith [hj.le_high]
  have hjtop := (zpow_lt_zpow_iff_right₀ (by norm_num)).mp hjtop
  obtain ⟨n', k', hs', -, hk', -⟩ := hsearch (hproper.isSome_of_has hj) (by omega) (by omega)
  rw [hs] at hs'
  obtain ⟨-, rfl⟩ := Prod.mk.inj hs'
  omega

end Unit

def spelled (ds : List Char) (place : ℤ) : ℚ := natural ds * 10 ^ (place - ds.length)

/-- The digits of a value up to one: they spell a number in its interval, on a grid that is no finer than any
other one that has a point there. -/
structure Spells (x : Binary64) (ds : List Char) (place : ℤ) : Prop where
  digits : ∀ c ∈ ds, c.isDigit
  nonempty : ds ≠ []
  few : natural ds < 2 ^ 64
  least : -343 ≤ place - ds.length
  has : (Interval.of x).Has (spelled ds place)
  leading : 10 ^ (place - 1) ≤ spelled ds place
  coarse : ∀ (a : ℕ) (j : ℤ), 0 < a → (Interval.of x).Has (a * 10 ^ j) → j ≤ place - ds.length

theorem pow_length_le {n : ℕ} (hn : 0 < n) : 10 ^ ((Nat.toDigits 10 n).length - 1) ≤ n := by
  by_contra h
  rcases Nat.eq_zero_or_pos ((Nat.toDigits 10 n).length - 1) with h0 | h0
  · rw [h0] at h
    omega
  · have := (Nat.length_toDigits_le_iff (by omega) h0).mpr (not_le.mp h)
    omega

theorem spells_shortest {x : Binary64} (hx : x.mantissa ≠ 0) (hone : x.magnitude ≤ 1) (tie : Tie) :
    Spells x (shortest tie x).1 (shortest tie x).2 := by
  obtain ⟨n, k, hs, hhas, hpos, hlt, hleast, hcoarse⟩ := exists_point hx hone tie
  have hzeros := Text.dropRight_append_zeros (Nat.toDigits 10 n)
  have hmem (c : Char) (hc : c ∈ Text.dropRight (· == '0') (Nat.toDigits 10 n)) : c.isDigit :=
    Nat.isDigit_of_mem_toDigits (by omega) (by omega) (Text.mem_of_mem_dropRight hc)
  have hds : (shortest tie x).1 = Text.dropRight (· == '0') (Nat.toDigits 10 n) := by
    rw [shortest, hs]
    rfl
  have hplace : (shortest tie x).2 = (Nat.toDigits 10 n).length + k := by
    rw [shortest, hs]
  rw [hds, hplace]
  generalize Text.dropRight (· == '0') (Nat.toDigits 10 n) = ds at *
  generalize (Nat.toDigits 10 n).length - ds.length = z at hzeros
  have hlength : ds.length + z = (Nat.toDigits 10 n).length := by
    rw [← hzeros]
    simp
  have hn : natural ds * 10 ^ z = n := by
    rw [← natural_append_zeros, hzeros, natural_toDigits]
  have hexp : ((Nat.toDigits 10 n).length : ℤ) + k - ds.length = z + k := by omega
  have hspelled : spelled ds ((Nat.toDigits 10 n).length + k) = n * 10 ^ k := by
    rw [spelled, hexp, zpow_add₀ (by norm_num), zpow_natCast, ← hn]
    push_cast
    ring
  refine ⟨hmem, ?_, ?_, by omega, hspelled ▸ hhas, ?_, fun a j ha hj => ?_⟩
  · rintro rfl
    rw [natural_nil, Nat.zero_mul] at hn
    omega
  · exact lt_of_le_of_lt (Nat.le_mul_of_pos_right _ (Nat.pow_pos (by omega))) (hn ▸ hlt)
  · have hlen := pow_length_le hpos
    have hpos' : 0 < (Nat.toDigits 10 n).length := List.length_pos_iff.mpr Nat.toDigits_ne_nil
    have hexp' : ((Nat.toDigits 10 n).length : ℤ) + k - 1 = ((Nat.toDigits 10 n).length - 1 : ℕ) + k := by omega
    rw [hspelled, hexp', zpow_add₀ (by norm_num), zpow_natCast]
    gcongr
    exact_mod_cast hlen
  · have := hcoarse a j ha hj
    omega

end TokenLedger.Decimal
