import TokenLedger.Amount
import Mathlib.Data.List.TakeWhile
import Mathlib.Tactic

/-! Amounts are read back from the numerals that they are written as: the digits without the zeros at
their ends, and the place of the point, give the units again. -/

namespace TokenLedger

namespace Text

theorem mem_of_mem_dropRight {p : Char → Bool} {s : List Char} {c : Char} (h : c ∈ dropRight p s) :
    c ∈ s := by
  have h' := (List.dropWhile_sublist p).mem (List.mem_reverse.mp h)
  exact List.mem_reverse.mp h'

theorem dropRight_length_le (p : Char → Bool) (s : List Char) : (dropRight p s).length ≤ s.length := by
  simpa [dropRight] using (List.dropWhile_sublist p (l := s.reverse)).length_le

theorem dropRight_append (p : Char → Bool) (s : List Char) :
    dropRight p s ++ (s.reverse.takeWhile p).reverse = s := by
  rw [dropRight, ← List.reverse_append, List.takeWhile_append_dropWhile, List.reverse_reverse]

theorem length_takeWhile_add_dropWhile (p : Char → Bool) (s : List Char) :
    (s.takeWhile p).length + (s.dropWhile p).length = s.length := by
  rw [← List.length_append, List.takeWhile_append_dropWhile]

theorem dropRight_append_zeros (s : List Char) :
    dropRight (· == '0') s ++ List.replicate (s.length - (dropRight (· == '0') s).length) '0' = s := by
  have ht : s.reverse.takeWhile (· == '0') =
      List.replicate (s.reverse.takeWhile (· == '0')).length '0' := by
    refine List.eq_replicate_of_mem fun c hc => ?_
    simpa using List.mem_takeWhile_imp hc
  have hs := dropRight_append (· == '0') s
  have hl : s.length - (dropRight (· == '0') s).length = (s.reverse.takeWhile (· == '0')).length := by
    have h := congrArg List.length hs
    rw [List.length_append, List.length_reverse] at h
    omega
  rw [hl, ← List.reverse_replicate, ← ht]
  exact hs

/-- What has no member of `p` in it is what is left between members of `p`. -/
theorem strip_between {p : Char → Bool} {l s r : List Char} (hl : ∀ c ∈ l, p c = true) (hr : ∀ c ∈ r, p c = true)
    (hs : ∀ c ∈ s, p c = false) : strip p (l ++ s ++ r) = s := by
  cases s with
  | nil =>
    have hnil : (l ++ [] ++ r).dropWhile p = [] := by
      rw [List.dropWhile_eq_nil_iff]
      simpa [or_imp, forall_and] using ⟨hl, hr⟩
    rw [strip, hnil]
    rfl
  | cons c s =>
    have hlast : (c :: s).reverse.dropWhile p = (c :: s).reverse := by
      obtain ⟨d, t, ht⟩ := List.exists_cons_of_ne_nil (List.reverse_ne_nil_iff.mpr (List.cons_ne_nil c s))
      have hd : p d = false := hs d (List.mem_reverse.mp (by rw [ht]; exact List.mem_cons_self))
      rw [ht, List.dropWhile_cons_of_neg (by simp [hd])]
    rw [strip, List.append_assoc, List.dropWhile_append_of_pos hl, List.cons_append,
      List.dropWhile_cons_of_neg (by simp [hs c]), dropRight, ← List.cons_append, List.reverse_append,
      List.dropWhile_append_of_pos fun d hd => hr d (List.mem_reverse.mp hd), hlast, List.reverse_reverse]

theorem strip_eq_self {p : Char → Bool} {s : List Char} (h : ∀ c ∈ s, p c = false) : strip p s = s := by
  have hs := strip_between (p := p) (l := []) (r := []) (by simp) (by simp) h
  rwa [List.nil_append, List.append_nil] at hs

end Text

namespace Decimal

theorem natural_append_zeros (s : List Char) (n : Nat) :
    natural (s ++ List.replicate n '0') = natural s * 10 ^ n := by
  rw [natural, Nat.ofDigitChars_append, Nat.ofDigitChars_replicate_zero, Nat.mul_comm]
  rfl

theorem natural_append (s t : List Char) : natural (s ++ t) = natural s * 10 ^ t.length + natural t := by
  rw [natural, Nat.ofDigitChars_append, Nat.ofDigitChars_eq_ofDigitChars_zero, Nat.mul_comm]
  rfl

@[simp] theorem natural_nil : natural [] = 0 := rfl

theorem natural_zeros (n : Nat) : natural (List.replicate n '0') = 0 := by
  simpa using natural_append_zeros [] n

theorem natural_lt {cs : List Char} (h : ∀ c ∈ cs, c.isDigit) : natural cs < 10 ^ cs.length := by
  induction cs with
  | nil => simp
  | cons c cs ih =>
    have ih := ih fun d hd => h d (by simp [hd])
    have hc := h c (by simp)
    simp only [Char.isDigit, Bool.and_eq_true, decide_eq_true_eq] at hc
    have h9 : c.toNat ≤ 57 := hc.2
    have hn : natural [c] = c.toNat - 48 := by simp [natural, Nat.ofDigitChars_cons]
    have hm : natural [c] * 10 ^ cs.length ≤ 9 * 10 ^ cs.length := Nat.mul_le_mul_right _ (by omega)
    rw [show c :: cs = [c] ++ cs from rfl, natural_append, List.length_append, List.length_singleton,
      Nat.pow_add, Nat.pow_one]
    omega

theorem natural_fixedDigits (w n : Nat) : natural (fixedDigits w n) = n % 10 ^ w := by
  induction w generalizing n with
  | zero => simp [fixedDigits, Nat.mod_one]
  | succ w ih =>
    have hd : natural [(n % 10).digitChar] = n % 10 := by
      rw [natural, Nat.ofDigitChars_cons_digitChar_of_lt_ten (Nat.mod_lt _ (by omega)),
        Nat.ofDigitChars_nil]
      omega
    rw [fixedDigits, natural_append, ih, hd, List.length_singleton, pow_one, pow_succ', Nat.mod_mul]
    omega

theorem isDigit_of_mem_fixedDigits {w n : Nat} {c : Char} (h : c ∈ fixedDigits w n) : c.isDigit := by
  induction w generalizing n with
  | zero => simp [fixedDigits] at h
  | succ w ih =>
    rw [fixedDigits, List.mem_append, List.mem_singleton] at h
    rcases h with h | rfl
    · exact ih h
    · rw [Nat.isDigit_digitChar, decide_eq_true_eq]
      omega

theorem splitFirst_of_forall {p : Char → Bool} {s : List Char} (h : ∀ c ∈ s, p c = false) :
    splitFirst p s = (s, none) := by
  have hd : s.dropWhile (!p ·) = [] := by
    rw [List.dropWhile_eq_nil_iff]
    intro c hc
    simp [h c hc]
  rw [splitFirst, hd]

theorem splitFirst_append {p : Char → Bool} {s t : List Char} {c : Char} (h : ∀ c ∈ s, p c = false)
    (hc : p c = true) : splitFirst p (s ++ c :: t) = (s, some t) := by
  have hs : ∀ c ∈ s, (!p c) = true := fun c hm => by simp [h c hm]
  rw [splitFirst, List.dropWhile_append_of_pos hs, List.takeWhile_append_of_pos hs,
    List.dropWhile_cons_of_neg (by simp [hc]), List.takeWhile_cons_of_neg (by simp [hc])]
  simp

theorem ne_of_isDigit {c d : Char} (hc : c.isDigit) (hd : d.isDigit = false) : c ≠ d := by
  rintro rfl
  rw [hc] at hd
  cases hd

/-- Digits, perhaps with a point and further digits, spell the numeral with these digits. -/
theorem Numeral.ofChars?_digits {s t : List Char} (hs : ∀ c ∈ s, c.isDigit) (ht : ∀ c ∈ t, c.isDigit)
    (hne : s ≠ []) :
    Numeral.ofChars? s = some ⟨s, [], 0⟩ ∧ Numeral.ofChars? (s ++ '.' :: t) = some ⟨s, t, 0⟩ := by
  have hm {c : Char} (hc : c.isDigit ∨ c = '.') : (c == 'e' || c == 'E') = false := by
    rcases hc with hc | rfl
    · simp [ne_of_isDigit hc (d := 'e') rfl, ne_of_isDigit hc (d := 'E') rfl]
    · rfl
  have hp {c : Char} (hc : c.isDigit) : (c == '.') = false := by simp [ne_of_isDigit hc (d := '.') rfl]
  have he : s.isEmpty = false := by simpa using hne
  have hs' : allDigits s = true := by simpa [allDigits] using hs
  have ht' : allDigits t = true := by simpa [allDigits] using ht
  constructor
  · rw [Numeral.ofChars?, splitFirst_of_forall fun c hc => hm (.inl (hs c hc))]
    simp [mantissa?, splitFirst_of_forall fun c hc => hp (hs c hc), he, hs', show allDigits [] = true from rfl]
  · rw [Numeral.ofChars?, splitFirst_of_forall fun c hc => ?_]
    · simp [mantissa?, splitFirst_append (fun c hc => hp (hs c hc)) (c := '.') rfl, he, hs', ht']
    · simp only [List.mem_append, List.mem_cons] at hc
      rcases hc with hc | rfl | hc
      · exact hm (.inl (hs c hc))
      · rfl
      · exact hm (.inl (ht c hc))

theorem Numeral.length_significant_le (n : Numeral) :
    n.significant.length + (n.digits.takeWhile (· == '0')).length ≤ n.digits.length := by
  have h₁ := Text.dropRight_length_le (· == '0') (n.digits.dropWhile (· == '0'))
  have h₂ := Text.length_takeWhile_add_dropWhile (· == '0') n.digits
  have hs : n.significant = Text.dropRight (· == '0') (n.digits.dropWhile (· == '0')) := rfl
  rw [hs]
  omega

/-- Without the zeros at its ends the mantissa loses a power of ten and nothing else. -/
theorem Numeral.natural_digits (n : Numeral) :
    natural n.significant * 10 ^ (n.digits.length - (n.digits.takeWhile (· == '0')).length
      - n.significant.length) = natural n.digits := by
  have ht : n.digits.takeWhile (· == '0') =
      List.replicate (n.digits.takeWhile (· == '0')).length '0' := by
    refine List.eq_replicate_of_mem fun c hc => ?_
    simpa using List.mem_takeWhile_imp hc
  have hd := List.takeWhile_append_dropWhile (p := (· == '0')) (l := n.digits)
  have hr := Text.dropRight_append_zeros (n.digits.dropWhile (· == '0'))
  have hl := Text.length_takeWhile_add_dropWhile (· == '0') n.digits
  have hs : n.significant = Text.dropRight (· == '0') (n.digits.dropWhile (· == '0')) := rfl
  rw [← natural_append_zeros, hs]
  conv_rhs => rw [← hd, ht, natural_append, natural_zeros, Nat.zero_mul, Nat.zero_add, ← hr]
  congr 3
  omega

end Decimal

namespace Amount

open Decimal

/-- A numeral with at most twelve digits before the point and eight behind it is the amount of its
value. -/
theorem ofNumeral_eq_ok {n : Numeral} {a : Amount} (he : n.exponent = 0) (hw : n.whole.length ≤ 12)
    (hf : n.fraction.length ≤ 8) (hv : natural n.digits * 10 ^ (8 - n.fraction.length) = a.units) :
    ofNumeral n = .ok a := by
  have hd := n.natural_digits
  have hlen : n.digits.length = n.whole.length + n.fraction.length := by simp [Numeral.digits]
  have hz : (n.digits.takeWhile (· == '0')).length ≤ n.digits.length :=
    (List.takeWhile_sublist _).length_le
  have hsig := n.length_significant_le
  by_cases hs : n.significant = []
  · have h0 : a = zero := by
      apply Amount.ext
      rw [← hv, ← hd, hs]
      simp [zero]
    rw [ofNumeral, hs, h0]
    rfl
  have hp : padding n = ((8 - n.fraction.length) + (n.digits.length
      - (n.digits.takeWhile (· == '0')).length - n.significant.length) : Nat) := by
    simp only [padding, Numeral.place, he, places]
    omega
  have hpos : 0 < n.significant.length := List.length_pos_iff.mpr hs
  have hu : ofUnits? (natural (n.significant ++ List.replicate (padding n).toNat '0')) = some a := by
    rw [ofUnits?_eq_some, natural_append_zeros, hp, Int.toNat_natCast, Nat.pow_add, ← hv, ← hd]
    ring
  have hle : ¬ (20 : Int) < n.significant.length + padding n := by rw [hp]; omega
  have hge : ¬ padding n < 0 := by rw [hp]; omega
  simp only [ofNumeral, List.isEmpty_iff, hs, if_false, hge, hle, hu]

def fraction (a : Amount) : List Char :=
  if a.units % scale = 0 then [] else Text.dropRight (· == '0') (fixedDigits places (a.units % scale))

theorem isDigit_of_mem_fraction {a : Amount} {c : Char} (h : c ∈ a.fraction) : c.isDigit := by
  unfold fraction at h
  split at h
  · simp at h
  · exact isDigit_of_mem_fixedDigits (Text.mem_of_mem_dropRight h)

theorem isDigit_of_mem_whole {a : Amount} {c : Char} (h : c ∈ Nat.toDigits 10 (a.units / scale)) :
    c.isDigit :=
  Nat.isDigit_of_mem_toDigits (by omega) (by omega) h

theorem length_fraction_le (a : Amount) : a.fraction.length ≤ 8 := by
  unfold fraction
  split
  · simp
  · have h := Text.dropRight_length_le (· == '0') (fixedDigits places (a.units % scale))
    rwa [length_fixedDigits] at h

theorem length_whole_le (a : Amount) : (Nat.toDigits 10 (a.units / scale)).length ≤ 12 := by
  have h := a.units_lt
  rw [Nat.length_toDigits_le_iff (by omega) (by omega)]
  simp only [UInt64.size] at h
  simp only [scale]
  omega

theorem fraction_ne_nil {a : Amount} (h : a.units % scale ≠ 0) : a.fraction ≠ [] := by
  intro hn
  have hz := Text.dropRight_append_zeros (fixedDigits places (a.units % scale))
  rw [fraction, if_neg h] at hn
  rw [hn, List.nil_append] at hz
  have hv := natural_fixedDigits places (a.units % scale)
  rw [← hz, natural_zeros] at hv
  simp only [places, scale] at hv h
  omega

theorem chars_eq (a : Amount) : a.chars = Nat.toDigits 10 (a.units / scale) ++
    if a.units % scale = 0 then [] else '.' :: a.fraction := by
  unfold chars fraction
  split <;> simp_all

theorem natural_chars (a : Amount) : natural (Nat.toDigits 10 (a.units / scale) ++ a.fraction)
    * 10 ^ (8 - a.fraction.length) = a.units := by
  have hz : natural (a.fraction ++ List.replicate (8 - a.fraction.length) '0') = a.units % scale := by
    unfold fraction
    split
    · rename_i h
      rw [List.nil_append, natural_zeros, h]
    · have h := Text.dropRight_append_zeros (fixedDigits places (a.units % scale))
      rw [length_fixedDigits] at h
      rw [show (8 : Nat) = places from rfl, h, natural_fixedDigits]
      simp only [places, scale]
      omega
  have hl := length_fraction_le a
  rw [← natural_append_zeros, List.append_assoc, natural_append, natural_toDigits, hz,
    List.length_append, List.length_replicate, show a.fraction.length + (8 - a.fraction.length) = 8 by omega]
  simp only [scale]
  omega

theorem ofChars?_chars (a : Amount) :
    Numeral.ofChars? a.chars = some ⟨Nat.toDigits 10 (a.units / scale), a.fraction, 0⟩ := by
  have h := Numeral.ofChars?_digits (fun c => isDigit_of_mem_whole (a := a) (c := c))
    (fun c => isDigit_of_mem_fraction (a := a) (c := c)) Nat.toDigits_ne_nil
  rw [chars_eq]
  by_cases hz : a.units % scale = 0
  · rw [if_pos hz, List.append_nil, h.1, fraction, if_pos hz]
  · rw [if_neg hz, h.2]

theorem mem_chars {a : Amount} {c : Char} (h : c ∈ a.chars) : c.isDigit ∨ c = '.' := by
  rw [chars_eq, List.mem_append] at h
  rcases h with h | h
  · exact .inl (isDigit_of_mem_whole h)
  · split at h
    · simp at h
    · rcases List.mem_cons.mp h with rfl | h
      · exact .inr rfl
      · exact .inl (isDigit_of_mem_fraction h)

theorem isBlank_of_mem_chars {a : Amount} {c : Char} (h : c ∈ a.chars) : Text.isBlank c = false := by
  rcases mem_chars h with hc | rfl
  · simp only [Char.isDigit, Bool.and_eq_true, decide_eq_true_eq] at hc
    have h₁ : 48 ≤ c.toNat := hc.1
    have h₂ : c.toNat ≤ 57 := hc.2
    simp [Text.isBlank]
    omega
  · rfl

/-- What is written as an amount is read as this amount, also between white space. -/
theorem ofChars_between {l r : List Char} (hl : ∀ c ∈ l, Text.isBlank c = true) (hr : ∀ c ∈ r, Text.isBlank c = true)
    (a : Amount) : ofChars (l ++ a.chars ++ r) = .ok a := by
  have hm : a.chars.head? ≠ some '-' := by
    intro h
    rcases mem_chars (List.mem_of_mem_head? h) with h | h <;> simp at h
  have hn := ofNumeral_eq_ok (n := ⟨Nat.toDigits 10 (a.units / scale), a.fraction, 0⟩) (a := a) rfl
    (length_whole_le a) (length_fraction_le a) (natural_chars a)
  rw [ofChars, Text.trim, Text.strip_between hl hr fun c => isBlank_of_mem_chars, ofTrimmed, if_neg hm, ofChars?_chars]
  simp only [hn]
  rfl

@[simp] theorem ofChars_chars (a : Amount) : ofChars a.chars = .ok a := by
  simpa using ofChars_between (l := []) (r := []) (by simp) (by simp) a

end Amount
end TokenLedger
