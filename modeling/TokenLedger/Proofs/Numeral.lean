import TokenLedger.Proofs.Amount
import TokenLedger.Proofs.Rounding

/-! Numerals and their numbers. What a text denotes is said by its form alone, and it is the number of the numeral
that is read from the text. -/

namespace TokenLedger

theorem Text.dropWhile_eq_cons {p : Char → Bool} {s t : List Char} {c : Char} (h : s.dropWhile p = c :: t) :
    p c = false := by
  simpa [h] using List.head_dropWhile_not p (l := s) (by simp [h])

namespace Decimal

inductive IsInteger : List Char → ℤ → Prop where
  | unsigned {ds : List Char} (hne : ds ≠ []) (hd : ∀ c ∈ ds, c.isDigit) : IsInteger ds (natural ds)
  | plus {ds : List Char} (hne : ds ≠ []) (hd : ∀ c ∈ ds, c.isDigit) : IsInteger ('+' :: ds) (natural ds)
  | minus {ds : List Char} (hne : ds ≠ []) (hd : ∀ c ∈ ds, c.isDigit) : IsInteger ('-' :: ds) (-natural ds)

/-- Digits, at least one, with at most one point: the ones before the point, and the ones behind it. -/
inductive IsMantissa : List Char → List Char → List Char → Prop where
  | whole {w : List Char} (hne : w ≠ []) (hw : ∀ c ∈ w, c.isDigit) : IsMantissa w w []
  | point {w f : List Char} (hne : w ++ f ≠ []) (hw : ∀ c ∈ w, c.isDigit) (hf : ∀ c ∈ f, c.isDigit) :
      IsMantissa (w ++ '.' :: f) w f

def fixedPoint (w f : List Char) : ℚ := natural w + natural f / 10 ^ f.length

/-- A mantissa, perhaps with an exponent that fits in a signed 64-bit word, and its number. -/
inductive Denotes : List Char → ℚ → Prop where
  | fixed {m w f : List Char} (hm : IsMantissa m w f) : Denotes m (fixedPoint w f)
  | scaled {m w f e : List Char} {mark : Char} {n : ℤ} (hm : IsMantissa m w f) (hmark : mark = 'e' ∨ mark = 'E')
      (he : IsInteger e n) (hn : -2 ^ 63 ≤ n ∧ n < 2 ^ 63) : Denotes (m ++ mark :: e) (fixedPoint w f * 10 ^ n)

theorem fixedPoint_eq (w f : List Char) : fixedPoint w f = natural (w ++ f) / 10 ^ f.length := by
  rw [fixedPoint, natural_append]
  push_cast
  field_simp

theorem IsMantissa.digits {m w f : List Char} (h : IsMantissa m w f) : ∀ c ∈ w ++ f, c.isDigit := by
  cases h with
  | whole _ hw => simpa using hw
  | point _ hw hf => exact fun c hc => (List.mem_append.mp hc).elim (hw c) (hf c)

theorem IsMantissa.length_le {m w f : List Char} (h : IsMantissa m w f) : w.length + f.length ≤ m.length := by
  cases h with
  | whole => simp
  | point => simp

def isMark (c : Char) : Bool := c == 'e' || c == 'E'

theorem IsMantissa.isMark_eq_false {m w f : List Char} (h : IsMantissa m w f) : ∀ c ∈ m, isMark c = false := by
  have hd {c : Char} (hc : c.isDigit) : isMark c = false := by
    simp [isMark, ne_of_isDigit hc (d := 'e') rfl, ne_of_isDigit hc (d := 'E') rfl]
  intro c hc
  cases h with
  | whole _ hw => exact hd (hw c hc)
  | point _ hw hf =>
    simp only [List.mem_append, List.mem_cons] at hc
    rcases hc with hc | rfl | hc
    · exact hd (hw c hc)
    · rfl
    · exact hd (hf c hc)

theorem allDigits_iff {s : List Char} : allDigits s = true ↔ ∀ c ∈ s, c.isDigit := List.all_eq_true

section

variable {p : Char → Bool} {s l r : List Char}

theorem splitFirst_eq_none : splitFirst p s = (l, none) ↔ l = s ∧ ∀ c ∈ s, p c = false := by
  refine ⟨fun h => ?_, fun ⟨hl, hs⟩ => hl.symm ▸ splitFirst_of_forall hs⟩
  unfold splitFirst at h
  split at h
  · rename_i hd
    rw [List.dropWhile_eq_nil_iff] at hd
    simp only [Prod.mk.injEq, and_true] at h
    exact ⟨h.symm, fun c hc => by simpa using hd c hc⟩
  · simp at h

theorem splitFirst_eq_some :
    splitFirst p s = (l, some r) ↔ ∃ c, s = l ++ c :: r ∧ p c = true ∧ ∀ d ∈ l, p d = false := by
  refine ⟨fun h => ?_, fun ⟨c, hs, hc, hl⟩ => hs ▸ splitFirst_append hl hc⟩
  unfold splitFirst at h
  split at h
  · simp at h
  · rename_i c t hd
    simp only [Prod.mk.injEq, Option.some.injEq] at h
    obtain ⟨rfl, rfl⟩ := h
    refine ⟨c, ?_, ?_, fun d hd => ?_⟩
    · rw [← hd, List.takeWhile_append_dropWhile]
    · simpa using Text.dropWhile_eq_cons hd
    · simpa using List.mem_takeWhile_imp hd

end

theorem int64?_eq_some {s : List Char} {n : ℤ} :
    int64? s = some n ↔ IsInteger s n ∧ -2 ^ 63 ≤ n ∧ n < 2 ^ 63 := by
  have hrange (n : ℤ) : (Int64.minValue.toInt ≤ n ∧ n ≤ Int64.maxValue.toInt) ↔ -2 ^ 63 ≤ n ∧ n < 2 ^ 63 := by
    rw [show Int64.minValue.toInt = -2 ^ 63 by decide, show Int64.maxValue.toInt = 2 ^ 63 - 1 by decide]
    omega
  constructor
  · intro h
    unfold int64? at h
    split at h
    rename_i negative ds hs
    split at h
    · cases h
    · rename_i hds
      simp only [Bool.or_eq_true, List.isEmpty_iff, Bool.not_eq_true', not_or, Bool.not_eq_false, allDigits_iff] at hds
      simp only [Option.ite_none_right_eq_some, Option.some.injEq] at h
      obtain ⟨hn, rfl⟩ := h
      refine ⟨?_, (hrange _).mp hn⟩
      split at hs <;> cases hs
      · exact .minus hds.1 hds.2
      · exact .plus hds.1 hds.2
      · exact .unsigned hds.1 hds.2
  · rintro ⟨h, hn⟩
    have hbody {ds : List Char} (hne : ds ≠ []) (hd : ∀ c ∈ ds, c.isDigit) :
        (ds.isEmpty || !allDigits ds) = false := by
      simpa [allDigits_iff] using ⟨hne, hd⟩
    rw [← hrange] at hn
    unfold int64?
    cases h with
    | plus hne hd => simp [hbody hne hd, hn]
    | minus hne hd => simp only [hbody hne hd, Bool.false_eq_true, if_false, if_true, hn, and_self]
    | unsigned hne hd =>
      split
      rename_i hs
      split at hs
      · simpa using hd '-'
      · simpa using hd '+'
      · cases hs
        simp [hbody hne hd, hn]

theorem mantissa?_eq_some {m w f : List Char} : mantissa? m = some (w, f) ↔ IsMantissa m w f := by
  constructor
  · intro h
    unfold mantissa? at h
    split at h
    rename_i l r hs
    simp only [Option.ite_none_left_eq_some, Option.some.injEq, Prod.mk.injEq, Bool.or_eq_true, Bool.and_eq_true,
      List.isEmpty_iff, Bool.not_eq_true', not_or, not_and, Bool.not_eq_false, allDigits_iff] at h
    obtain ⟨⟨⟨hne, hw⟩, hf⟩, rfl, rfl⟩ := h
    cases r with
    | none =>
      obtain ⟨rfl, -⟩ := splitFirst_eq_none.mp hs
      exact .whole (fun hl => hne hl rfl) hw
    | some r =>
      obtain ⟨c, rfl, hc, -⟩ := splitFirst_eq_some.mp hs
      obtain rfl : c = '.' := by simpa using hc
      exact .point (by simpa using hne) hw hf
  · intro h
    have hpoint {ds : List Char} (hd : ∀ c ∈ ds, c.isDigit) : ∀ c ∈ ds, (c == '.') = false := fun c hc => by
      simp [ne_of_isDigit (hd c hc) (d := '.') rfl]
    cases h with
    | whole hne hw =>
      rw [mantissa?, splitFirst_of_forall (hpoint hw)]
      simpa [allDigits] using ⟨hne, hw⟩
    | point hne hw hf =>
      rw [mantissa?, splitFirst_append (hpoint hw) rfl]
      simpa [allDigits_iff] using ⟨⟨by simpa using hne, hw⟩, hf⟩

def Numeral.value (n : Numeral) : ℚ := fixedPoint n.whole n.fraction * 10 ^ n.exponent

theorem Numeral.ofChars?_of_none {t m : List Char} (h : splitFirst isMark t = (m, none)) :
    ofChars? t = (mantissa? m).map fun x => ⟨x.1, x.2, 0⟩ := by
  rw [ofChars?, show (fun c => c == 'e' || c == 'E') = isMark from rfl, h]
  cases hm : mantissa? m <;> simp [hm]

theorem Numeral.ofChars?_of_some {t m e : List Char} (h : splitFirst isMark t = (m, some e)) :
    ofChars? t = (int64? e).bind fun k => (mantissa? m).map fun x => ⟨x.1, x.2, k⟩ := by
  rw [ofChars?, show (fun c => c == 'e' || c == 'E') = isMark from rfl, h]
  cases he : int64? e <;> cases hm : mantissa? m <;> simp [he, hm]

/-- A text is read as a numeral if it is a mantissa with an exponent or without one. -/
theorem Numeral.ofChars?_eq_some {t : List Char} {n : Numeral} : ofChars? t = some n ↔
    (IsMantissa t n.whole n.fraction ∧ n.exponent = 0) ∨
      ∃ m mark e, t = m ++ mark :: e ∧ isMark mark = true ∧ IsMantissa m n.whole n.fraction ∧
        IsInteger e n.exponent ∧ -2 ^ 63 ≤ n.exponent ∧ n.exponent < 2 ^ 63 := by
  have hread (m : List Char) (k : ℤ) : ((mantissa? m).map fun x => (⟨x.1, x.2, k⟩ : Numeral)) = some n ↔
      IsMantissa m n.whole n.fraction ∧ n.exponent = k := by
    rw [← mantissa?_eq_some, Option.map_eq_some_iff]
    constructor
    · rintro ⟨x, hx, rfl⟩
      exact ⟨hx, rfl⟩
    · rintro ⟨hm, rfl⟩
      exact ⟨_, hm, rfl⟩
  rcases hs : splitFirst isMark t with ⟨m, _ | e⟩
  · obtain ⟨rfl, ht⟩ := splitFirst_eq_none.mp hs
    rw [Numeral.ofChars?_of_none hs, hread]
    refine ⟨.inl, ?_⟩
    rintro (h | ⟨l, mark, e, rfl, hmark, -⟩)
    · exact h
    · rw [ht mark (by simp)] at hmark
      cases hmark
  · obtain ⟨mark, rfl, hmark, hm⟩ := splitFirst_eq_some.mp hs
    rw [Numeral.ofChars?_of_some hs, Option.bind_eq_some_iff]
    constructor
    · rintro ⟨k, he, hn⟩
      obtain ⟨h, hk⟩ := (hread m k).mp hn
      exact .inr ⟨m, mark, e, rfl, hmark, h, int64?_eq_some.mp (hk ▸ he)⟩
    · rintro (⟨h, -⟩ | ⟨l, c, d, heq, hc, h, hd⟩)
      · rw [h.isMark_eq_false mark (by simp)] at hmark
        cases hmark
      · rw [heq, splitFirst_append h.isMark_eq_false hc] at hs
        cases hs
        exact ⟨_, int64?_eq_some.mpr hd, (hread _ _).mpr ⟨h, rfl⟩⟩

theorem Numeral.isMantissa_of_ofChars? {t : List Char} {n : Numeral} (h : ofChars? t = some n) :
    ∃ m, m.length ≤ t.length ∧ IsMantissa m n.whole n.fraction := by
  rcases ofChars?_eq_some.mp h with ⟨hm, -⟩ | ⟨m, mark, e, rfl, -, hm, -⟩
  · exact ⟨t, le_rfl, hm⟩
  · exact ⟨m, by simp, hm⟩

theorem Numeral.isDigit_of_ofChars? {t : List Char} {n : Numeral} (h : ofChars? t = some n) :
    ∀ c ∈ n.digits, c.isDigit := by
  obtain ⟨m, -, hm⟩ := isMantissa_of_ofChars? h
  exact hm.digits

theorem isMark_iff {c : Char} : isMark c = true ↔ c = 'e' ∨ c = 'E' := by simp [isMark]

/-- A text denotes the number of the numeral that is read from it. -/
theorem denotes_iff {t : List Char} {v : ℚ} : Denotes t v ↔ ∃ n, Numeral.ofChars? t = some n ∧ n.value = v := by
  constructor
  · intro h
    cases h with
    | fixed hm => exact ⟨⟨_, _, 0⟩, Numeral.ofChars?_eq_some.mpr (.inl ⟨hm, rfl⟩), by simp [Numeral.value]⟩
    | scaled hm hmark he hn =>
      exact ⟨⟨_, _, _⟩, Numeral.ofChars?_eq_some.mpr (.inr ⟨_, _, _, rfl, isMark_iff.mpr hmark, hm, he, hn⟩), rfl⟩
  · rintro ⟨⟨w, f, k⟩, hn, rfl⟩
    rcases Numeral.ofChars?_eq_some.mp hn with ⟨hm, rfl⟩ | ⟨m, mark, e, rfl, hmark, hm, he, hk⟩
    · simpa [Numeral.value] using Denotes.fixed hm
    · exact .scaled hm (isMark_iff.mp hmark) he hk

theorem Denotes.unique {t : List Char} {v w : ℚ} (hv : Denotes t v) (hw : Denotes t w) : v = w := by
  obtain ⟨m, hm, rfl⟩ := denotes_iff.mp hv
  obtain ⟨n, hn, rfl⟩ := denotes_iff.mp hw
  rw [Option.some.inj (hm.symm.trans hn)]

end Decimal
end TokenLedger
