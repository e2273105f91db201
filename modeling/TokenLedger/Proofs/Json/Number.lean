import TokenLedger.Proofs.Amount
import TokenLedger.Proofs.Binary64
import TokenLedger.Proofs.Json.Text

/-! Numbers are read back as they were written. A reader of numbers goes on as long as there are digits,
so what follows must not go on the number: it must satisfy `Ends`. -/

namespace TokenLedger

namespace Text

def octet (c : Char) : UInt8 := UInt8.ofNat c.toNat

theorem utf8_ascii {cs : List Char} (h : ∀ c ∈ cs, c.toNat < 128) :
    utf8 (String.ofList cs) = cs.map octet := by
  have hc {c : Char} (h : c.toNat < 128) : String.utf8EncodeChar c = [octet c] := by
    have hv : c.val.toNat = c.toNat := rfl
    rw [String.utf8EncodeChar, hv, if_pos (by omega)]
    rfl
  rw [utf8, String.toList_ofList]
  induction cs with
  | nil => rfl
  | cons c cs ih =>
    rw [List.flatMap_cons, hc (h c (by simp)), ih fun d hd => h d (by simp [hd])]
    rfl

theorem octet_ofNat (b : UInt8) : octet (Char.ofNat b.toNat) = b := by
  rw [octet, toNat_ofNat_of_lt b.toNat_lt, UInt8.ofNat_toNat]

theorem toNat_of_isDigit {c : Char} (h : c.isDigit) : 48 ≤ c.toNat ∧ c.toNat ≤ 57 := by
  simp only [Char.isDigit, Bool.and_eq_true, decide_eq_true_eq] at h
  exact h

theorem toNat_octet_of_isDigit {c : Char} (h : c.isDigit) : (octet c).toNat = c.toNat := by
  have hc := toNat_of_isDigit h
  exact UInt8.toNat_ofNat_of_lt' (by simp [UInt8.size]; omega)

end Text

namespace Json

open Octet Text

theorem isDigit_octet {c : Char} (h : c.isDigit) : Octet.isDigit (octet c) = true := by
  have hc := toNat_of_isDigit h
  have ho := toNat_octet_of_isDigit h
  simp only [Octet.isDigit, Bool.and_eq_true, decide_eq_true_eq, UInt8.le_iff_toNat_le, ho]
  exact hc

theorem octet_eq_zero {c : Char} (h : c.isDigit) : octet c = Octet.zero ↔ c = '0' := by
  have ho := toNat_octet_of_isDigit h
  constructor
  · intro hz
    rw [hz] at ho
    exact Char.toNat_inj.mp ho.symm
  · rintro rfl
    rfl

/-- Octets that are digits and do not begin with a zero that stands for nothing. -/
structure Numerals (ds : Bytes) : Prop where
  digits : ∀ b ∈ ds, isDigit b = true
  nonempty : ds ≠ []
  canonical : ds.head? = some zero → ds = [zero]

section Literals

variable {ds fs s : Bytes}

theorem digits_append (hd : ∀ b ∈ ds, isDigit b = true) (hs : ∀ b, s.head? = some b → isDigit b = false) :
    digits (ds ++ s) = .ok (ds, s) := by
  have hd' : s.dropWhile isDigit = s ∧ s.takeWhile isDigit = [] := by
    cases s with
    | nil => exact ⟨rfl, rfl⟩
    | cons b s =>
      have hb := hs b rfl
      exact ⟨List.dropWhile_cons_of_neg (by simp [hb]), List.takeWhile_cons_of_neg (by simp [hb])⟩
  change Except.ok ((ds ++ s).takeWhile isDigit, (ds ++ s).dropWhile isDigit) = _
  rw [List.takeWhile_append_of_pos hd, List.dropWhile_append_of_pos hd, hd'.1, hd'.2, List.append_nil]

theorem someDigits_append (hd : ∀ b ∈ ds, isDigit b = true) (hne : ds ≠ [])
    (hs : ∀ b, s.head? = some b → isDigit b = false) : someDigits (ds ++ s) = .ok (ds, s) := by
  have h := digits_append hd hs
  cases ds with
  | nil => exact absurd rfl hne
  | cons d ds =>
    rw [List.cons_append] at h ⊢
    change (if isDigit d then digits else throw .badNumber : Reader Bytes) _ = _
    rw [if_pos (hd d (by simp))]
    exact h

/-- The ten octets that are digits. -/
theorem digit_cases {b : UInt8} (h : isDigit b = true) : b ∈ [48, 49, 50, 51, 52, 53, 54, 55, 56, 57] := by
  simp only [isDigit, Bool.and_eq_true, decide_eq_true_eq, UInt8.le_iff_toNat_le] at h
  simp only [List.mem_cons, List.not_mem_nil, or_false, ← UInt8.toNat_inj]
  simp only [UInt8.reduceToNat] at h ⊢
  omega

theorem isBlank_of_isDigit {b : UInt8} (h : isDigit b = true) : isBlank b = false := by
  have hdig := digit_cases h
  simp only [List.mem_cons, List.not_mem_nil, or_false] at hdig
  rcases hdig with rfl | rfl | rfl | rfl | rfl | rfl | rfl | rfl | rfl | rfl <;> rfl

theorem wholePart_append (hd : Numerals ds) (hs : ∀ b, s.head? = some b → isDigit b = false) :
    wholePart (ds ++ s) = .ok (ds, s) := by
  have h := digits_append hd.digits hs
  obtain ⟨d, ds', rfl⟩ := List.exists_cons_of_ne_nil hd.nonempty
  have hdig := digit_cases (hd.digits d (by simp))
  by_cases hz : d = zero
  · subst hz
    have hnil : ds' = [] := by simpa using hd.canonical rfl
    have hn : (s.head?.map isDigit).getD false = false := by
      cases hb : s.head? with
      | none => rfl
      | some b => exact hs b hb
    subst hnil
    change ((do
      if (s.head?.map isDigit).getD false then throw .badNumber
      set s
      return [zero]) : Reader Bytes) (zero :: s) = _
    rw [hn]
    rfl
  · simp only [List.mem_cons, List.not_mem_nil, or_false] at hdig
    rcases hdig with rfl | rfl | rfl | rfl | rfl | rfl | rfl | rfl | rfl | rfl
    · exact absurd rfl hz
    all_goals exact h

theorem fractionPart_none (hs : s.head? ≠ some point) : fractionPart s = .ok (none, s) := by
  rw [fractionPart, Reader.bind_ok (a := s) (t := s) rfl]
  split
  · simp at hs
  · rfl

theorem fractionPart_some (hf : ∀ b ∈ fs, isDigit b = true) (hne : fs ≠ [])
    (hs : ∀ b, s.head? = some b → isDigit b = false) :
    fractionPart (point :: (fs ++ s)) = .ok (some fs, s) := by
  change (do return some (← someDigits) : Reader (Option Bytes)) (fs ++ s) = _
  rw [Reader.bind_ok (someDigits_append hf hne hs)]
  rfl

theorem exponentPart_none (hs : ∀ b, s.head? = some b → isExponentMark b = false) :
    exponentPart s = .ok (none, s) := by
  cases s with
  | nil => rfl
  | cons b s =>
    change (if isExponentMark b then _ else return none : Reader (Option Int)) _ = _
    rw [hs b rfl]
    rfl

/-- The rest of a number behind its whole part. -/
theorem ends_parts (hs : Ends s) : s.head? ≠ some point ∧ (∀ b, s.head? = some b → isDigit b = false) ∧
    ∀ b, s.head? = some b → isExponentMark b = false :=
  ⟨fun h => (hs point h).2.1 rfl, fun b h => (hs b h).1, fun b h => (hs b h).2.2⟩

/-- A number that begins with a digit has no sign. -/
theorem literal_digits (hd : Numerals ds) : literal (ds ++ s) = (do
    let whole ← wholePart
    let fraction ← fractionPart
    return ⟨false, whole, fraction, ← exponentPart⟩ : Reader Literal) (ds ++ s) := by
  obtain ⟨d, ds', rfl⟩ := List.exists_cons_of_ne_nil hd.nonempty
  have hdig := digit_cases (hd.digits d (by simp))
  simp only [List.mem_cons, List.not_mem_nil, or_false] at hdig
  rcases hdig with rfl | rfl | rfl | rfl | rfl | rfl | rfl | rfl | rfl | rfl <;> rfl

theorem literal_whole (hd : Numerals ds) (hs : Ends s) :
    literal (ds ++ s) = .ok (⟨false, ds, none, none⟩, s) := by
  obtain ⟨hp, hn, he⟩ := ends_parts hs
  rw [literal_digits hd, Reader.bind_ok (wholePart_append hd hn), Reader.bind_ok (fractionPart_none hp),
    Reader.bind_ok (exponentPart_none he)]
  rfl

theorem literal_fraction (hd : Numerals ds) (hf : ∀ b ∈ fs, isDigit b = true) (hne : fs ≠ [])
    (hs : Ends s) :
    literal (ds ++ point :: (fs ++ s)) = .ok (⟨false, ds, some fs, none⟩, s) := by
  obtain ⟨-, hn, he⟩ := ends_parts hs
  have hp : ∀ b, (point :: (fs ++ s)).head? = some b → isDigit b = false := by
    intro b hb
    rw [List.head?_cons, Option.some.injEq] at hb
    exact hb ▸ rfl
  rw [literal_digits hd, Reader.bind_ok (wholePart_append hd hp),
    Reader.bind_ok (fractionPart_some hf hne hn), Reader.bind_ok (exponentPart_none he)]
  rfl

theorem literal_minus (hd : Numerals ds) (hs : Ends s) :
    literal (minus :: (ds ++ s)) = .ok (⟨true, ds, none, none⟩, s) := by
  obtain ⟨hp, hn, he⟩ := ends_parts hs
  change (do
    let whole ← wholePart
    let fraction ← fractionPart
    return ⟨true, whole, fraction, ← exponentPart⟩ : Reader Literal) (ds ++ s) = _
  rw [Reader.bind_ok (wholePart_append hd hn), Reader.bind_ok (fractionPart_none hp),
    Reader.bind_ok (exponentPart_none he)]
  rfl

end Literals
theorem numerals_toDigits (n : Nat) : Numerals ((Nat.toDigits 10 n).map octet) := by
  have hdig : ∀ c ∈ Nat.toDigits 10 n, c.isDigit := fun c hc =>
    Nat.isDigit_of_mem_toDigits (by omega) (by omega) hc
  refine ⟨?_, by simp, ?_⟩
  · intro b hb
    obtain ⟨c, hc, rfl⟩ := List.mem_map.mp hb
    exact isDigit_octet (hdig c hc)
  · intro hz
    obtain ⟨c, cs, hcs⟩ := List.exists_cons_of_ne_nil (Nat.toDigits_ne_nil (n := n) (b := 10))
    have hc : c = '0' := by
      rw [hcs] at hz hdig
      exact (octet_eq_zero (hdig c (by simp))).mp (by simpa using hz)
    have hn := Decimal.natural_toDigits n
    rw [hcs, hc, show '0' :: cs = ['0'] ++ cs from rfl, Decimal.natural_append] at hn
    have hlt := Nat.length_toDigits_le_iff (b := 10) (n := n) (k := cs.length) (by omega)
    cases cs with
    | nil => rw [hcs, hc]; rfl
    | cons d ds =>
      have hl : (d :: ds).length < (Nat.toDigits 10 n).length := by simp [hcs]
      have hb := Decimal.natural_lt fun e he => hdig e (hcs ▸ List.mem_cons_of_mem _ he)
      have hz : Decimal.natural ['0'] = 0 := rfl
      rw [hz] at hn
      have := (hlt (by simp)).mpr (by omega)
      omega

theorem significand_digits {cs : List Char} (hc : ∀ c ∈ cs, c.isDigit) {n : Nat}
    (h : Nat.ofDigitChars 10 cs n < UInt64.size) :
    significand n (cs.map octet) = (Nat.ofDigitChars 10 cs n, 0) := by
  induction cs generalizing n with
  | nil => simp [significand]
  | cons c cs ih =>
    have ho := toNat_octet_of_isDigit (hc c (by simp))
    rw [Nat.ofDigitChars_cons] at h ⊢
    have hm : 10 * n + (c.toNat - 48) < UInt64.size := by
      rw [Nat.ofDigitChars_eq_ofDigitChars_zero] at h
      have hp : 0 < 10 ^ cs.length := Nat.pow_pos (by omega)
      have hle := Nat.le_mul_of_pos_left (10 * n + (c.toNat - '0'.toNat)) hp
      exact Nat.lt_of_le_of_lt (by exact Nat.le_trans hle (Nat.le_add_right _ _)) h
    rw [List.map_cons, significand]
    simp only [ho, if_pos hm]
    exact ih (fun d hd => hc d (by simp [hd])) h

/-- The value of a whole number that fits in 64 bits. -/
theorem value_whole (n : Nat) (hn : n < UInt64.size) :
    Literal.value ⟨false, (Nat.toDigits 10 n).map octet, none, none⟩ = .ok (.integer n) := by
  have hd : ∀ c ∈ Nat.toDigits 10 n, c.isDigit := fun c hc =>
    Nat.isDigit_of_mem_toDigits (by omega) (by omega) hc
  have hs := significand_digits hd (n := 0) (by simpa using hn)
  rw [Nat.ofDigitChars_ten_toDigits] at hs
  simp [Literal.value, hs]

theorem number_digits (n : Nat) (hn : n < UInt64.size) {s : Bytes} (hs : Ends s) :
    number ((Nat.toDigits 10 n).map octet ++ s) = .ok (.integer n, s) := by
  rw [number, Reader.bind_ok (literal_whole (numerals_toDigits n) hs), value_whole n hn]
  rfl

theorem digitBytes_eq (n : Nat) : digitBytes n = (Nat.toDigits 10 n).map octet := by
  rw [digitBytes, Nat.toString_eq_ofList_toDigits, utf8_ascii]
  intro c hc
  have h := toNat_of_isDigit (Nat.isDigit_of_mem_toDigits (by omega) (by omega) hc)
  omega

theorem isBlank_of_startsNumber {b : UInt8} (h : startsNumber b = true) : isBlank b = false := by
  rcases Bool.or_eq_true_iff.mp h with h | h
  · rw [beq_iff_eq] at h
    subst h
    rfl
  · exact isBlank_of_isDigit h

theorem startsNumber_of_isDigit {b : UInt8} (h : isDigit b = true) : startsNumber b = true := by
  rw [startsNumber, h, Bool.or_true]

/-- A number behind blanks is handed on to `f`. -/
theorem readNumber_blanks {α : Type} (expected : String) (f : Number → Except Error α) {w : Bytes}
    (hw : w.all isBlank) {b : UInt8} (hb : startsNumber b = true) (t : Bytes) {x : Number} {s : Bytes}
    (h : number (b :: t) = .ok (x, s)) :
    Codec.readNumber expected f (w ++ b :: t) = (f x).map (·, s) := by
  rw [Codec.readNumber, Reader.bind_ok (peekValue_blanks hw (isBlank_of_startsNumber hb) t)]
  simp only [hb, if_true]
  rw [Reader.bind_ok h]
  cases f x <;> rfl

theorem starts_of_numerals {ds : Bytes} (hd : Numerals ds) :
    ∃ d ds', ds = d :: ds' ∧ startsNumber d = true := by
  obtain ⟨d, ds', rfl⟩ := List.exists_cons_of_ne_nil hd.nonempty
  exact ⟨d, ds', rfl, startsNumber_of_isDigit (hd.digits d (by simp))⟩

theorem reads_uint64 (n : UInt64) : Codec.uint64.Reads n := by
  intro w s hw hs
  obtain ⟨d, ds, hds, hd⟩ := starts_of_numerals (numerals_toDigits n.toNat)
  have hnum := number_digits n.toNat n.toNat_lt hs
  have hlt := n.toNat_lt
  have hr : (0 : Int) ≤ n.toNat ∧ (n.toNat : Int) < UInt64.size := by
    simp only [UInt64.size]
    omega
  dsimp only [Codec.uint64]
  rw [digitBytes_eq]
  rw [hds] at hnum ⊢
  rw [List.cons_append, readNumber_blanks _ _ hw hd (ds ++ s) hnum]
  simp only [if_pos hr, Int.toNat_natCast, UInt64.ofNat_toNat]
  rfl

theorem number_minus (n : Nat) (h0 : n ≠ 0) (hn : (n : Int) ≤ -Int64.minValue.toInt) {s : Bytes}
    (hs : Ends s) : number (minus :: ((Nat.toDigits 10 n).map octet ++ s)) = .ok (.integer (-n), s) := by
  have hd : ∀ c ∈ Nat.toDigits 10 n, c.isDigit := fun c hc =>
    Nat.isDigit_of_mem_toDigits (by omega) (by omega) hc
  have hsize : n < UInt64.size := by
    have hm : Int64.minValue.toInt = -9223372036854775808 := rfl
    rw [hm] at hn
    simp only [UInt64.size]
    omega
  have hsig := significand_digits hd (n := 0) (by simpa using hsize)
  have hle : ¬ (n = 0 ∨ -(n : Int) < Int64.minValue.toInt) := by omega
  rw [Nat.ofDigitChars_ten_toDigits] at hsig
  rw [number, Reader.bind_ok (literal_minus (numerals_toDigits n) hs)]
  simp only [Literal.value, hsig, ne_eq, not_true, if_false, if_neg hle, Bool.not_true, Bool.false_eq_true]
  rfl

theorem write_int64_ofNat {n : Int64} {k : Nat} (h : n.toInt = Int.ofNat k) :
    Codec.int64.write n = (Nat.toDigits 10 k).map octet := by
  dsimp only [Codec.int64]
  rw [h]
  exact digitBytes_eq k

theorem write_int64_negSucc {n : Int64} {k : Nat} (h : n.toInt = Int.negSucc k) :
    Codec.int64.write n = minus :: (Nat.toDigits 10 (k + 1)).map octet := by
  have hs : toString (Int.negSucc k) = "-" ++ toString (k + 1) := rfl
  dsimp only [Codec.int64]
  rw [h, hs, utf8_append, show utf8 (toString (k + 1)) = digitBytes (k + 1) from rfl, digitBytes_eq]
  rfl

theorem starts_int64 (n : Int64) : ∃ d ds, Codec.int64.write n = d :: ds ∧ startsNumber d = true := by
  cases hn : n.toInt with
  | ofNat k =>
    rw [write_int64_ofNat hn]
    exact starts_of_numerals (numerals_toDigits k)
  | negSucc k =>
    rw [write_int64_negSucc hn]
    exact ⟨_, _, rfl, rfl⟩

theorem number_int64 (n : Int64) {s : Bytes} (hs : Ends s) :
    number (Codec.int64.write n ++ s) = .ok (.integer n.toInt, s) := by
  have hmin := n.minValue_le_toInt
  have hmax := n.toInt_le
  have hm : Int64.minValue.toInt = -9223372036854775808 := rfl
  have hM : Int64.maxValue.toInt = 9223372036854775807 := rfl
  cases hn : n.toInt with
  | ofNat k =>
    have hk : k < UInt64.size := by
      simp only [hn, hM, Int.ofNat_eq_natCast] at hmax
      simp only [UInt64.size]
      omega
    rw [write_int64_ofNat hn]
    exact number_digits k hk hs
  | negSucc k =>
    have hk : ((k + 1 : Nat) : Int) ≤ -Int64.minValue.toInt := by
      simp only [hn, hm, Int.negSucc_eq] at hmin ⊢
      omega
    rw [write_int64_negSucc hn]
    exact number_minus (k + 1) (by omega) hk hs

theorem reads_int64 (n : Int64) : Codec.int64.Reads n := by
  intro w s hw hs
  obtain ⟨d, ds, hds, hd⟩ := starts_int64 n
  have hnum := number_int64 n hs
  have hr : Int64.minValue.toInt ≤ n.toInt ∧ n.toInt ≤ Int64.maxValue.toInt := ⟨n.minValue_le_toInt, n.toInt_le⟩
  rw [hds] at hnum ⊢
  dsimp only [Codec.int64]
  rw [List.cons_append, readNumber_blanks _ _ hw hd (ds ++ s) hnum]
  simp only [if_pos hr, Int64.ofInt_toInt]
  rfl

def amountLiteral (a : Amount) : Literal where
  negative := false
  whole := (Nat.toDigits 10 (a.units / Amount.scale)).map octet
  fraction := if a.units % Amount.scale = 0 then none else some (a.fraction.map octet)
  exponent := none

theorem write_amount (a : Amount) : Codec.amount.write a =
    (amountLiteral a).whole ++ ((amountLiteral a).fraction.map (point :: ·)).getD [] := by
  have h : ∀ c ∈ a.chars, c.toNat < 128 := by
    intro c hc
    rcases Amount.mem_chars hc with hd | rfl
    · have := toNat_of_isDigit hd
      omega
    · decide
  change utf8 (String.ofList a.chars) = _
  rw [utf8_ascii h, Amount.chars_eq, List.map_append, amountLiteral]
  by_cases hz : a.units % Amount.scale = 0
  · simp only [if_pos hz]
    rfl
  · simp only [if_neg hz]
    rfl

theorem literal_amount (a : Amount) {s : Bytes} (hs : Ends s) :
    literal (Codec.amount.write a ++ s) = .ok (amountLiteral a, s) := by
  have hd := numerals_toDigits (a.units / Amount.scale)
  rw [write_amount, amountLiteral]
  by_cases hz : a.units % Amount.scale = 0
  · have h := literal_whole hd hs
    simpa [hz] using h
  · have hf : ∀ b ∈ a.fraction.map octet, isDigit b = true := by
      intro b hb
      obtain ⟨c, hc, rfl⟩ := List.mem_map.mp hb
      exact isDigit_octet (Amount.isDigit_of_mem_fraction hc)
    have hne : a.fraction.map octet ≠ [] := by simpa using Amount.fraction_ne_nil hz
    have h := literal_fraction hd hf hne hs
    simpa [hz] using h

/-- An amount is also a number: all of its digits fit in 64 bits. -/
theorem value_amount (a : Amount) : ∃ x, (amountLiteral a).value = .ok x := by
  have hw : ∀ c ∈ Nat.toDigits 10 (a.units / Amount.scale), c.isDigit := fun c hc =>
    Amount.isDigit_of_mem_whole hc
  have hf : ∀ c ∈ a.fraction, c.isDigit := fun c hc => Amount.isDigit_of_mem_fraction hc
  have hlt := a.units_lt
  have hwhole : a.units / Amount.scale < UInt64.size :=
    Nat.lt_of_le_of_lt (Nat.div_le_self _ _) hlt
  have hsig := significand_digits hw (n := 0) (by simpa using hwhole)
  rw [Nat.ofDigitChars_ten_toDigits] at hsig
  by_cases hz : a.units % Amount.scale = 0
  · exact ⟨_, by simp only [amountLiteral, if_pos hz]; exact value_whole _ hwhole⟩
  · have hall := Amount.natural_chars a
    rw [Decimal.natural, Nat.ofDigitChars_append, Nat.ofDigitChars_ten_toDigits] at hall
    generalize hm : Nat.ofDigitChars 10 a.fraction (a.units / Amount.scale) = m at hall
    have hm' : m < UInt64.size := by
      have hp : 0 < 10 ^ (8 - a.fraction.length) := Nat.pow_pos (by omega)
      have := Nat.le_mul_of_pos_right m hp
      omega
    have hsig' := significand_digits hf (n := a.units / Amount.scale) (by rw [hm]; exact hm')
    rw [hm] at hsig'
    have hlen := Amount.length_fraction_le a
    have hpos : 0 < a.fraction.length := List.length_pos_iff.mpr (Amount.fraction_ne_nil hz)
    obtain ⟨x, hx⟩ := Binary64.ofDecimal?_eq_some (n := m) (k := a.fraction.length)
      (by simpa [UInt64.size] using hm') hpos (by omega)
    refine ⟨.float x, ?_⟩
    simp [amountLiteral, Literal.value, hz, hsig, hsig', hx]

theorem number_amount (a : Amount) :
    ∃ x, ∀ s, Ends s → number (Codec.amount.write a ++ s) = .ok (x, s) := by
  obtain ⟨x, hx⟩ := value_amount a
  refine ⟨x, fun s hs => ?_⟩
  rw [number, Reader.bind_ok (literal_amount a hs), hx]
  rfl

theorem starts_amount (a : Amount) :
    ∃ d ds, Codec.amount.write a = d :: ds ∧ isDigit d = true := by
  have hd := numerals_toDigits (a.units / Amount.scale)
  obtain ⟨d, ds, hds⟩ := List.exists_cons_of_ne_nil hd.nonempty
  refine ⟨d, ds ++ ((amountLiteral a).fraction.map (point :: ·)).getD [], ?_, hd.digits d (by simp [hds])⟩
  rw [write_amount, show (amountLiteral a).whole = d :: ds from hds, List.cons_append]

theorem skipValue_digit (fuel : Nat) {d : UInt8} (hd : isDigit d = true) (t : Bytes) :
    skipValue (fuel + 1) (d :: t) = skipNumber (d :: t) := by
  have hdig := digit_cases hd
  rw [skipValue, Reader.bind_ok (peekValue_cons (isBlank_of_isDigit hd) t)]
  simp only [List.mem_cons, List.not_mem_nil, or_false] at hdig
  rcases hdig with rfl | rfl | rfl | rfl | rfl | rfl | rfl | rfl | rfl | rfl <;> rfl

theorem skip_eq (s : Bytes) : skip s = skipValue (2 * s.length + 2) s :=
  rfl

/-- What is skipped behind blanks is the text of the value. -/
theorem raw_of_skip {t : String} {d : UInt8} {ds : Bytes} (ht : utf8 t = d :: ds) (hd : isBlank d = false) {s : Bytes}
    (hskip : skip (utf8 t ++ s) = .ok ((), s)) {w : Bytes} (hw : w.all isBlank) :
    raw (w ++ (utf8 t ++ s)) = .ok (t, s) := by
  have hpeek : peek (w ++ (utf8 t ++ s)) = .ok (some d, utf8 t ++ s) := by
    rw [ht, List.cons_append]
    exact peek_blanks hw hd _
  rw [raw, Reader.bind_ok hpeek, Reader.bind_ok (a := utf8 t ++ s) (t := utf8 t ++ s) rfl, Reader.bind_ok hskip,
    Reader.bind_ok (a := s) (t := s) rfl, List.length_append, Nat.add_sub_cancel, List.take_left, ofUtf8?_utf8]
  rfl

/-- An amount is read from the text of a value without the quotes around it. -/
theorem amount_of_raw {t : String} {a : Amount} (ht : Amount.ofChars (strip (· == '"') t.toList) = .ok a) {b s : Bytes}
    (hraw : raw b = .ok (t, s)) : Codec.amount.read b = .ok (a, s) := by
  dsimp only [Codec.amount]
  rw [Reader.bind_ok hraw, ht]
  rfl

theorem quote_of_mem_chars {a : Amount} {c : Char} (h : c ∈ a.chars) : (c == '"') = false := by
  rcases Amount.mem_chars h with hc | rfl
  · simpa using Decimal.ne_of_isDigit hc (d := '"') rfl
  · rfl

theorem raw_amount (a : Amount) {w s : Bytes} (hw : w.all isBlank) (hs : Ends s) :
    raw (w ++ (Codec.amount.write a ++ s)) = .ok (a.text, s) := by
  obtain ⟨d, ds, hds, hd⟩ := starts_amount a
  have hskip : skip (Codec.amount.write a ++ s) = .ok ((), s) := by
    rw [skip_eq, hds, List.cons_append, skipValue_digit _ hd, skipNumber, ← List.cons_append, ← hds,
      literal_amount a hs]
  exact raw_of_skip hds (isBlank_of_isDigit hd) hskip hw

theorem reads_amount (a : Amount) : Codec.amount.Reads a := by
  intro w s hw hs
  refine amount_of_raw ?_ (raw_amount a hw hs)
  rw [Amount.text, String.toList_ofList, strip_eq_self fun c => quote_of_mem_chars, Amount.ofChars_chars]

end Json
end TokenLedger
