import TokenLedger.Proofs.Numeral
import TokenLedger.Proofs.Shortest

/-! Amounts are read exactly: a text is an amount if and only if the number that it denotes is a whole number of
units in range. -/

namespace TokenLedger

namespace Text

theorem dropRight_eq_concat {p : Char → Bool} {s t : List Char} {c : Char} (h : dropRight p s = t ++ [c]) :
    p c = false := by
  have hd : s.reverse.dropWhile p = c :: t.reverse := by
    rw [← List.reverse_inj, List.reverse_cons, List.reverse_reverse]
    exact h
  exact dropWhile_eq_cons hd

/-- The first text without the members of `p` at its ends is the second one. -/
structure Strips (p : Char → Bool) (s t : List Char) : Prop where
  ends : ∃ l r, s = l ++ t ++ r ∧ ∀ c ∈ l ++ r, p c = true
  head : ∀ c ∈ t.head?, p c = false
  last : ∀ c ∈ t.getLast?, p c = false

theorem strips_strip (p : Char → Bool) (s : List Char) : Strips p s (strip p s) := by
  have hd := List.takeWhile_append_dropWhile (p := p) (l := s)
  have hr : strip p s ++ ((s.dropWhile p).reverse.takeWhile p).reverse = s.dropWhile p := dropRight_append p _
  refine ⟨⟨s.takeWhile p, ((s.dropWhile p).reverse.takeWhile p).reverse, ?_, fun c hc => ?_⟩, fun c hc => ?_,
    fun c hc => ?_⟩
  · rw [List.append_assoc, hr, hd]
  · rcases List.mem_append.mp hc with hc | hc
    · exact List.mem_takeWhile_imp hc
    · exact List.mem_takeWhile_imp (List.mem_reverse.mp hc)
  · obtain ⟨u, hu⟩ := List.head?_eq_some_iff.mp hc
    rw [hu, List.cons_append] at hr
    exact dropWhile_eq_cons hr.symm
  · obtain ⟨u, hu⟩ := List.getLast?_eq_some_iff.mp hc
    exact dropRight_eq_concat hu

end Text

namespace Decimal

theorem natural_singleton_pos {c : Char} (hc : c.isDigit) (h0 : c ≠ '0') : 0 < natural [c] := by
  simp only [Char.isDigit, Bool.and_eq_true, decide_eq_true_eq] at hc
  have h48 : 48 ≤ c.toNat := hc.1
  have hne : c.toNat ≠ 48 := fun h => h0 (Char.toNat_inj.mp h)
  have hn : natural [c] = c.toNat - 48 := by simp [natural, Nat.ofDigitChars_cons]
  omega

theorem le_natural_cons {c : Char} {s : List Char} (hc : c.isDigit) (h0 : c ≠ '0') :
    10 ^ s.length ≤ natural (c :: s) := by
  rw [← List.singleton_append, natural_append]
  exact le_add_right (Nat.le_mul_of_pos_left _ (natural_singleton_pos hc h0))

theorem natural_concat_mod {c : Char} {s : List Char} (hc : c.isDigit) (h0 : c ≠ '0') :
    natural (s ++ [c]) % 10 ≠ 0 := by
  have hpos := natural_singleton_pos hc h0
  have hlt : natural [c] < 10 ^ [c].length := natural_lt (by simpa using hc)
  rw [natural_append]
  simp only [List.length_singleton, pow_one] at hlt ⊢
  omega

/-- The number without the zeros at the ends of its digits. -/
theorem Numeral.value_eq_spelled (n : Numeral) : n.value = spelled n.significant n.place := by
  have hd := n.natural_digits
  have hle := n.length_significant_le
  have hlen : n.digits.length = n.whole.length + n.fraction.length := by simp [Numeral.digits]
  have hexp : n.place - n.significant.length =
      (n.digits.length - (n.digits.takeWhile (· == '0')).length - n.significant.length : ℕ) - (n.fraction.length : ℤ)
        + n.exponent := by
    rw [Numeral.place]
    omega
  rw [Numeral.value, fixedPoint_eq, spelled, hexp, zpow_add₀ (by norm_num), zpow_sub₀ (by norm_num), zpow_natCast,
    zpow_natCast, show n.whole ++ n.fraction = n.digits from rfl, ← hd]
  push_cast
  ring

theorem Numeral.isDigit_of_mem_significant {n : Numeral} (hn : ∀ c ∈ n.digits, c.isDigit) :
    ∀ c ∈ n.significant, c.isDigit := fun c hc =>
  hn c ((List.dropWhile_sublist _).mem (Text.mem_of_mem_dropRight hc))

theorem Numeral.ne_zero_of_significant_cons {n : Numeral} {c : Char} {ds : List Char} (h : n.significant = c :: ds) :
    c ≠ '0' := by
  have hr := Text.dropRight_append_zeros (n.digits.dropWhile (· == '0'))
  rw [show Text.dropRight (· == '0') (n.digits.dropWhile (· == '0')) = c :: ds from h, List.cons_append] at hr
  simpa using Text.dropWhile_eq_cons hr.symm

theorem Numeral.ne_zero_of_significant_concat {n : Numeral} {c : Char} {ds : List Char}
    (h : n.significant = ds ++ [c]) : c ≠ '0' := by
  simpa using Text.dropRight_eq_concat (p := (· == '0')) (s := n.digits.dropWhile (· == '0')) h

/-- A number that does not end in 0 is no multiple of ten. -/
theorem mul_zpow_ne {m : ℕ} (hm : m % 10 ≠ 0) {e : ℤ} (he : e < 0) (k : ℤ) : (m : ℚ) * 10 ^ e ≠ k := by
  intro h
  obtain ⟨j, hj⟩ : ∃ j : ℕ, e = -(j + 1 : ℕ) := ⟨(-e - 1).toNat, by omega⟩
  rw [hj, zpow_neg, zpow_natCast, ← div_eq_mul_inv, div_eq_iff (by positivity)] at h
  have hk : (m : ℤ) = k * 10 ^ (j + 1) := by exact_mod_cast h
  have hdvd : (10 : ℤ) ∣ m := ⟨k * 10 ^ j, by rw [hk]; ring⟩
  omega

end Decimal

namespace Amount

open Decimal

@[mk_iff]
inductive Exact (v : ℚ) : Except Reason Amount → Prop where
  | ok {a : Amount} (h : v * 10 ^ 8 = a.units) : Exact v (.ok a)
  | tooPrecise (h : ∀ k : ℤ, v * 10 ^ 8 ≠ k) : Exact v (.error .tooPrecise)
  | outOfRange {k : ℤ} (h : v * 10 ^ 8 = k) (hk : 2 ^ 64 ≤ k) : Exact v (.error .outOfRange)

theorem Exact.unique {v : ℚ} {r s : Except Reason Amount} (hr : Exact v r) (hs : Exact v s) : r = s := by
  have hlt (a : Amount) : (a.units : ℤ) < 2 ^ 64 := by exact_mod_cast a.units_lt
  have hfar {a : Amount} {k : ℤ} (ha : v * 10 ^ 8 = a.units) (h : v * 10 ^ 8 = k) (hk : 2 ^ 64 ≤ k) : False := by
    have hka : k = a.units := by exact_mod_cast h.symm.trans ha
    have := hlt a
    omega
  cases hr with
  | ok ha =>
    cases hs with
    | ok hb =>
      congr 1
      ext
      exact_mod_cast ha.symm.trans hb
    | tooPrecise h => exact (h _ (by exact_mod_cast ha)).elim
    | outOfRange h hk => exact (hfar ha h hk).elim
  | tooPrecise h =>
    cases hs with
    | ok ha => exact (h _ (by exact_mod_cast ha)).elim
    | tooPrecise => rfl
    | outOfRange hk => exact (h _ hk).elim
  | outOfRange h hk =>
    cases hs with
    | ok ha => exact (hfar ha h hk).elim
    | tooPrecise h' => exact (h' _ h).elim
    | outOfRange => rfl

theorem exact_ofUnits {v : ℚ} {k : ℕ} (h : v * 10 ^ 8 = k) :
    Exact v (match ofUnits? k with | some a => .ok a | none => .error .outOfRange) := by
  unfold ofUnits?
  split_ifs with hk
  · exact .ok h
  · exact .outOfRange (k := k) (by exact_mod_cast h) (by exact_mod_cast Nat.not_lt.mp hk)

section

variable {n : Numeral} (hn : ∀ c ∈ n.digits, c.isDigit)

theorem value_mul_scale (n : Numeral) : n.value * 10 ^ 8 = natural n.significant * 10 ^ padding n := by
  rw [n.value_eq_spelled, spelled, padding, mul_assoc, ← zpow_natCast, ← zpow_add₀ (by norm_num)]
  congr 2
  simp only [places]
  omega

include hn

theorem exact_tooPrecise (hne : n.significant ≠ []) (h : padding n < 0) : Exact n.value (.error .tooPrecise) := by
  obtain ⟨ds, c, hds⟩ := (List.eq_nil_or_concat' n.significant).resolve_left hne
  refine .tooPrecise fun k => ?_
  rw [value_mul_scale]
  refine mul_zpow_ne ?_ h k
  rw [hds]
  exact natural_concat_mod (n.isDigit_of_mem_significant hn c (by simp [hds])) (n.ne_zero_of_significant_concat hds)

theorem exact_outOfRange (hne : n.significant ≠ []) (h : 0 ≤ padding n)
    (hfar : 20 < n.significant.length + padding n) : Exact n.value (.error .outOfRange) := by
  obtain ⟨p, hp⟩ := Int.eq_ofNat_of_zero_le h
  obtain ⟨c, ds, hds⟩ := List.exists_cons_of_ne_nil hne
  have hle := le_natural_cons (s := ds) (n.isDigit_of_mem_significant hn c (by simp [hds]))
    (n.ne_zero_of_significant_cons hds)
  refine .outOfRange (k := (natural n.significant * 10 ^ p : ℕ)) ?_ ?_
  · rw [value_mul_scale, hp, zpow_natCast]
    push_cast
    rfl
  · have h20 : 20 ≤ ds.length + p := by
      rw [hds, List.length_cons] at hfar
      omega
    have hbig : (2 : ℕ) ^ 64 ≤ natural n.significant * 10 ^ p :=
      calc
        2 ^ 64 ≤ 10 ^ 20 := by norm_num
        _ ≤ 10 ^ (ds.length + p) := Nat.pow_le_pow_right (by norm_num) h20
        _ = 10 ^ ds.length * 10 ^ p := pow_add ..
        _ ≤ natural n.significant * 10 ^ p := Nat.mul_le_mul_right _ (hds ▸ hle)
    exact_mod_cast hbig

theorem exact_ofNumeral : Exact n.value (ofNumeral n) := by
  rw [ofNumeral]
  split_ifs with hnil hneg hfar
  · rw [List.isEmpty_iff] at hnil
    refine .ok ?_
    rw [value_mul_scale, hnil]
    simp [zero]
  · exact exact_tooPrecise hn (by simpa using hnil) hneg
  · exact exact_outOfRange hn (by simpa using hnil) (not_lt.mp hneg) hfar
  · refine exact_ofUnits ?_
    rw [value_mul_scale, natural_append_zeros]
    push_cast
    rw [← zpow_natCast, Int.toNat_of_nonneg (not_lt.mp hneg)]

end

/-- A text without white space at its ends is read exactly. -/
theorem ofTrimmed_eq_iff {t : List Char} {r : Except Reason Amount} : ofTrimmed t = r ↔
    t.head? = some '-' ∧ r = .error .negative ∨
      t.head? ≠ some '-' ∧ (¬∃ v, Denotes t v) ∧ r = .error .malformed ∨
      t.head? ≠ some '-' ∧ ∃ v, Denotes t v ∧ Exact v r := by
  unfold ofTrimmed
  split_ifs with hminus
  · simp [hminus, eq_comm]
  · cases hn : Numeral.ofChars? t with
    | none =>
      have hnot (v : ℚ) : ¬Denotes t v := by simp [denotes_iff, hn]
      simp [hminus, hnot, eq_comm]
    | some n =>
      have hv : Denotes t n.value := denotes_iff.mpr ⟨n, hn, rfl⟩
      have hexact := exact_ofNumeral (Numeral.isDigit_of_ofChars? hn)
      constructor
      · rintro rfl
        exact .inr (.inr ⟨hminus, _, hv, hexact⟩)
      · rintro (⟨h, -⟩ | ⟨-, h, -⟩ | ⟨-, w, hw, hr⟩)
        · exact (hminus h).elim
        · exact (h ⟨_, hv⟩).elim
        · exact hexact.unique (hv.unique hw ▸ hr)

theorem ofText_eq_ok {s : String} {a : Amount} :
    ofText s = .ok a ↔ ofTrimmed (Text.trim s.toList) = .ok a := by
  rw [ofText, ofChars]
  cases ofTrimmed (Text.trim s.toList) <;> simp [Except.mapError]

theorem ofText_eq_error {s : String} {e : Unreadable} : ofText s = .error e ↔
    e.text = String.ofList (Text.trim s.toList) ∧ ofTrimmed (Text.trim s.toList) = .error e.reason := by
  obtain ⟨r, u⟩ := e
  rw [ofText, ofChars]
  cases ofTrimmed (Text.trim s.toList) <;> simp [Except.mapError, and_comm, eq_comm]

end Amount
end TokenLedger
