import TokenLedger.Proofs.Json.Verbatim
import TokenLedger.Proofs.Reading
import TokenLedger.Proofs.Shortest

/-! Numbers up to one as documents write and read them. What was written is always read, as a number up to one
again, and it is the same number if a decimal with few digits is rounded to it. -/

namespace TokenLedger.Json

open Octet Text Decimal

theorem natural_octets {cs : List Char} (h : ∀ c ∈ cs, c.isDigit) : natural (cs.map octet) = Decimal.natural cs := by
  have hfold (n : ℕ) : (cs.map octet).foldl (fun n b => 10 * n + (b.toNat - 48)) n = Nat.ofDigitChars 10 cs n := by
    induction cs generalizing n with
    | nil => rfl
    | cons c cs ih =>
      rw [List.map_cons, List.foldl_cons, toNat_octet_of_isDigit (h c (by simp)), Nat.ofDigitChars_cons]
      exact ih (fun d hd => h d (by simp [hd])) _
  exact hfold 0

theorem isDigit_octets {cs : List Char} (h : ∀ c ∈ cs, c.isDigit) : ∀ b ∈ cs.map octet, isDigit b = true := by
  intro b hb
  obtain ⟨c, hc, rfl⟩ := List.mem_map.mp hb
  exact isDigit_octet (h c hc)

theorem numerals_digit {c : Char} (h : c.isDigit) : Numerals [octet c] where
  digits := List.forall_mem_singleton.mpr (isDigit_octet h)
  nonempty := by simp
  canonical h := by simpa using h

theorem exponentPart_minus {es : List Char} (he : ∀ c ∈ es, c.isDigit) (hne : es ≠ []) {s : Bytes} (hs : Ends s) :
    exponentPart (101 :: minus :: (es.map octet ++ s)) = .ok (some (-(Decimal.natural es : Int)), s) := by
  have hdigits := someDigits_append (isDigit_octets he) (by simpa using hne) (ends_parts hs).2.1
  change (do return some (-(natural (← someDigits) : Int)) : Reader (Option Int)) (es.map octet ++ s) = _
  rw [Reader.bind_ok hdigits, natural_octets he]
  rfl

theorem value_fixed {cs : List Char} (hc : ∀ c ∈ cs, c.isDigit) (hlt : Decimal.natural cs < 2 ^ 64) {x : Binary64}
    (hx : Binary64.ofDecimal? false (Decimal.natural cs) (-cs.length) = some x) :
    Literal.value ⟨false, [zero], some (cs.map octet), none⟩ = .ok (.float x) := by
  have hsig := significand_digits hc (n := 0) hlt
  have hzero : significand 0 [zero] = (0, 0) := rfl
  change significand 0 _ = (Decimal.natural cs, 0) at hsig
  simp [Literal.value, hzero, hsig, hx]

theorem value_scientific {c : Char} {cs : List Char} (hc : ∀ d ∈ c :: cs, d.isDigit)
    (hlt : Decimal.natural (c :: cs) < 2 ^ 64) {fraction : Option Bytes} (hf : fraction.getD [] = cs.map octet) {e : Int}
    {x : Binary64} (hx : Binary64.ofDecimal? false (Decimal.natural (c :: cs)) (e - cs.length) = some x) :
    Literal.value ⟨false, [octet c], fraction, some e⟩ = .ok (.float x) := by
  have hsplit : Decimal.natural (c :: cs) = Nat.ofDigitChars 10 cs (Decimal.natural [c]) := rfl
  have hfirst := significand_digits (n := 0) (List.forall_mem_singleton.mpr (hc c (by simp)))
    (lt_of_lt_of_le (natural_lt (List.forall_mem_singleton.mpr (hc c (by simp)))) (by simp [UInt64.size]))
  have hrest := significand_digits (fun d hd => hc d (List.mem_cons_of_mem _ hd)) (hsplit ▸ hlt)
  change significand 0 [octet c] = (Decimal.natural [c], 0) at hfirst
  rw [← hsplit] at hrest
  have hexp : ((0 : Nat) : Int) - (cs.length - 0 : Nat) + e = e - cs.length := by omega
  cases fraction <;> simp only [Literal.value, hfirst, hf, hrest, List.length_map, Option.getD_some, hexp, hx]

/-- A text that is a literal of a number is read as this number. -/
theorem takes_float {b : UInt8} {t : Bytes} {l : Literal} {x : Binary64} (hb : startsNumber b = true)
    (hl : ∀ s, Ends s → literal (b :: (t ++ s)) = .ok (l, s)) (hv : l.value = .ok (.float x)) :
    Codec.binary64.Takes x (b :: t) := by
  intro w s hw hs
  have hnumber : number (b :: (t ++ s)) = .ok (.float x, s) := by
    rw [number, Reader.bind_ok (hl s hs), hv]
    rfl
  exact readNumber_blanks _ _ hw hb (t ++ s) hnumber

theorem literal_scientific {c : Char} {cs es : List Char} (hc : ∀ d ∈ c :: cs, d.isDigit) (he : ∀ d ∈ es, d.isDigit)
    (hne : es ≠ []) {s : Bytes} (hs : Ends s) :
    literal (octet c :: ((if cs = [] then [] else point :: cs.map octet) ++ 101 :: minus :: (es.map octet ++ s))) =
      .ok (⟨false, [octet c], if cs = [] then none else some (cs.map octet), some (-(Decimal.natural es : Int))⟩, s) := by
  have hd := numerals_digit (hc c (by simp))
  have hexp := exponentPart_minus he hne hs
  have hmark {b : UInt8} (hb : (101 :: minus :: (es.map octet ++ s)).head? = some b) : isDigit b = false := by
    cases hb
    rfl
  split
  · refine (literal_digits hd).trans ?_
    rw [Reader.bind_ok (wholePart_append hd fun b hb => hmark hb),
      Reader.bind_ok (fractionPart_none (by rw [List.head?_cons]; decide)), Reader.bind_ok hexp]
    rfl
  · rename_i hcs
    have hfraction := fractionPart_some (isDigit_octets fun d hd => hc d (List.mem_cons_of_mem _ hd)) (by simpa using hcs)
      fun b hb => hmark hb
    have hpoint (t : Bytes) (b : UInt8) (hb : (point :: t).head? = some b) : isDigit b = false := by
      cases hb
      rfl
    refine (literal_digits hd).trans ?_
    rw [Reader.bind_ok (wholePart_append hd (hpoint _))]
    refine (Reader.bind_ok hfraction).trans ?_
    rw [Reader.bind_ok hexp]
    rfl

section Spelled

variable {x y : Binary64} {ds : List Char} {place : ℤ} (h : Spells x ds place) (hplace : place ≤ 0)
  (hy : Binary64.ofDecimal? false (Decimal.natural ds) (place - ds.length) = some y)

include h hplace hy

theorem takes_fixed : Codec.binary64.Takes y ((Decimal.Style.document.fixed ds place).map octet) := by
  let cs := zeros (-place).toNat ++ ds
  have hdigits : ∀ c ∈ cs, c.isDigit := by
    intro c hc
    rcases List.mem_append.mp hc with hc | hc
    · obtain ⟨-, rfl⟩ := List.mem_replicate.mp hc
      rfl
    · exact h.digits c hc
  have hne : cs ≠ [] := fun hnil => h.nonempty (List.append_eq_nil_iff.mp hnil).2
  have hnatural : Decimal.natural cs = Decimal.natural ds := by
    rw [natural_append, zeros, natural_zeros, Nat.zero_mul, Nat.zero_add]
  have hlength : -(cs.length : ℤ) = place - ds.length := by
    simp only [cs, List.length_append, zeros, List.length_replicate]
    push_cast
    omega
  have hfixed : (Decimal.Style.document.fixed ds place).map octet = zero :: (point :: cs.map octet) := by
    rw [Decimal.Style.fixed, if_pos hplace]
    simp only [List.cons_append, List.nil_append, List.map_cons, cs]
    rfl
  rw [hfixed]
  refine takes_float rfl (fun s hs => ?_) (value_fixed hdigits (hnatural ▸ h.few) (by rw [hnatural, hlength, hy]))
  exact literal_fraction (numerals_digit (c := '0') rfl) (isDigit_octets hdigits) (by simpa using hne) hs

theorem takes_scientific : Codec.binary64.Takes y ((Decimal.scientific ds place).map octet) := by
  obtain ⟨c, cs, rfl⟩ := List.exists_cons_of_ne_nil h.nonempty
  have hdigits : ∀ d ∈ Nat.toDigits 10 (place - 1).natAbs, d.isDigit := fun d hd =>
    Nat.isDigit_of_mem_toDigits (by omega) (by omega) hd
  have hexponent : -(Decimal.natural (Nat.toDigits 10 (place - 1).natAbs) : ℤ) = place - 1 := by
    rw [natural_toDigits]
    omega
  have hneg : place - 1 < 0 := by omega
  have htext : (Decimal.scientific (c :: cs) place).map octet = octet c ::
      ((if cs = [] then [] else point :: cs.map octet) ++
        101 :: minus :: (Nat.toDigits 10 (place - 1).natAbs).map octet) := by
    have hmarks : octet '.' = point ∧ octet 'e' = 101 ∧ octet '-' = minus := by decide
    cases cs <;> simp [Decimal.scientific, hneg, hmarks]
  have hplaces : -(Decimal.natural (Nat.toDigits 10 (place - 1).natAbs) : ℤ) - cs.length =
      place - (c :: cs).length := by
    rw [hexponent, List.length_cons]
    push_cast
    omega
  have hfraction : (if cs = [] then none else some (cs.map octet)).getD [] = cs.map octet := by
    split <;> simp_all
  rw [htext]
  refine takes_float (startsNumber_of_isDigit (isDigit_octet (h.digits c (by simp)))) (fun s hs => ?_)
    (value_scientific h.digits h.few hfraction (by rw [hplaces, hy]))
  rw [List.append_assoc]
  exact literal_scientific h.digits hdigits Nat.toDigits_ne_nil hs

end Spelled

theorem write_spelled {x : Binary64} (hs : x.negative = false) (hx : x.mantissa ≠ 0)
    (hplace : (shortest .toEven x).2 ≤ 0) : Codec.binary64.write x =
      (if -5 ≤ (shortest .toEven x).2 - 1 then Decimal.Style.document.fixed (shortest .toEven x).1 (shortest .toEven x).2
        else Decimal.scientific (shortest .toEven x).1 (shortest .toEven x).2).map octet := by
  have hzero : x.isZero = false := by simpa [Binary64.isZero] using hx
  have htop : (shortest .toEven x).2 - 1 ≤ 15 := by omega
  rw [write_binary64, Decimal.Style.chars, hs, hzero]
  simp [Decimal.Style.document, htop]

theorem spelled_eq_div {ds : List Char} {place : ℤ} (hne : ds ≠ []) (hplace : place ≤ 0) :
    ∃ k : ℕ, 0 < k ∧ place - ds.length = -k ∧ spelled ds place = Decimal.natural ds / 10 ^ k := by
  have hlen : 0 < ds.length := List.length_pos_iff.mpr hne
  obtain ⟨k, hk⟩ := Int.eq_ofNat_of_zero_le (show 0 ≤ ds.length - place by omega)
  have hexp : place - ds.length = -(k : ℤ) := by omega
  refine ⟨k, by omega, hexp, ?_⟩
  rw [spelled, hexp, zpow_neg, zpow_natCast, div_eq_mul_inv]

theorem few_of_short {x : Binary64} {ds : List Char} {place : ℤ} (h : Spells x ds place) (hx : x.mantissa ≠ 0)
    (hshort : x.Short) {k : ℕ} (hk : place - ds.length = -k) : Decimal.natural ds < 2 ^ 53 ∧ k < 23 := by
  obtain ⟨n, j, hn, hj, hround⟩ := hshort
  have hpos : 0 < n := by
    refine Nat.pos_of_ne_zero fun h0 => hx ?_
    rw [Binary64.round, if_pos h0] at hround
    cases hround
    rfl
  have hhas := (Binary64.round_spec (by positivity) hround).2.has hx
  rw [Nat.cast_pow, Nat.cast_ofNat, div_eq_mul_inv, ← zpow_natCast, ← zpow_neg] at hhas
  have hle := h.coarse n (-j) hpos hhas
  have hkj : k ≤ j := by omega
  refine ⟨?_, by omega⟩
  have hwide : ((Interval.of x).high : ℚ) ≤ 3 * (Interval.of x).low := by
    have hnat : (Interval.of x).high ≤ 3 * (Interval.of x).low := by
      simp only [Interval.of]
      split <;> omega
    exact_mod_cast hnat
  have hunit : (0 : ℚ) < 2 ^ (Interval.of x).exponent := by positivity
  have hmul := mul_le_mul_of_nonneg_right hwide hunit.le
  have hpow : (10 : ℚ) ^ (-(j : ℤ)) ≤ 10 ^ (-(k : ℤ)) := zpow_le_zpow_right₀ (by norm_num) (by omega)
  have hpos' : (0 : ℚ) < 10 ^ (-(k : ℤ)) := by positivity
  have hle : (Decimal.natural ds : ℚ) ≤ 3 * n := by
    refine le_of_mul_le_mul_right ?_ hpos'
    calc (Decimal.natural ds : ℚ) * 10 ^ (-(k : ℤ))
        ≤ (Interval.of x).high * 2 ^ (Interval.of x).exponent := by rw [← hk]; exact h.has.le_high
      _ ≤ 3 * ((Interval.of x).low * 2 ^ (Interval.of x).exponent) := by linarith
      _ ≤ 3 * (n * 10 ^ (-(j : ℤ))) := by linarith [hhas.low_le]
      _ ≤ 3 * n * 10 ^ (-(k : ℤ)) := by
        rw [mul_assoc]
        gcongr
  have hle' : Decimal.natural ds ≤ 3 * n := by exact_mod_cast hle
  omega

/-- The digits of a number below one stand below one as well, from the point on. -/
theorem spelled_shortest_lt_one {x : Binary64} (hx : x.mantissa ≠ 0) (hlt : x.magnitude < 1) :
    spelled (shortest .toEven x).1 (shortest .toEven x).2 < 1 ∧ (shortest .toEven x).2 ≤ 0 := by
  have h := spells_shortest hx hlt.le .toEven
  have hbits : bits x ≤ 0 := by
    have hpow : (2 : ℚ) ^ (bits x - 1) < 2 ^ (0 : ℤ) := by
      rw [zpow_zero]
      exact (pow_bits_le hx).trans_lt hlt
    have := (zpow_lt_zpow_iff_right₀ one_lt_two).mp hpow
    omega
  have hspelled : spelled (shortest .toEven x).1 (shortest .toEven x).2 < 1 :=
    calc spelled (shortest .toEven x).1 (shortest .toEven x).2
        ≤ (Interval.of x).high * 2 ^ (Interval.of x).exponent := h.has.le_high
      _ < 2 ^ bits x := high_lt_pow_bits
      _ ≤ 2 ^ (0 : ℤ) := zpow_le_zpow_right₀ one_le_two hbits
      _ = 1 := zpow_zero _
  have hpow : (10 : ℚ) ^ ((shortest .toEven x).2 - 1) < 10 ^ (0 : ℤ) := by
    rw [zpow_zero]
    exact h.leading.trans_lt hspelled
  have := (zpow_lt_zpow_iff_right₀ (by norm_num)).mp hpow
  exact ⟨hspelled, by omega⟩

theorem takes_below_one {x : Binary64} (hs : x.negative = false) (hx : x.mantissa ≠ 0) (hlt : x.magnitude < 1) :
    ∃ y, Codec.binary64.Takes y (Codec.binary64.write x) ∧ y.negative = false ∧ y.magnitude ≤ 1 ∧
      (x.Short → y.magnitude = x.magnitude) := by
  have h := spells_shortest hx hlt.le .toEven
  obtain ⟨hspelled, hplace⟩ := spelled_shortest_lt_one hx hlt
  rw [write_spelled hs hx hplace]
  generalize shortest .toEven x = p at *
  obtain ⟨ds, place⟩ := p
  dsimp only at *
  obtain ⟨k, hk, hexp, hq⟩ := spelled_eq_div h.nonempty hplace
  have hleast := h.least
  have hle : Decimal.natural ds ≤ 10 ^ k := by
    rw [hq, div_lt_one (by positivity)] at hspelled
    exact_mod_cast hspelled.le
  obtain ⟨y, hy, hys, hy1, hyr⟩ := Binary64.ofDecimal?_unit h.few hk (by omega) hle
  rw [← hexp] at hy
  refine ⟨y, ?_, hys, hy1, fun hshort => ?_⟩
  · split
    · exact takes_fixed h hplace hy
    · exact takes_scientific h hplace hy
  · obtain ⟨hsmall, hfew⟩ := few_of_short h hx hshort hexp
    exact (hyr hsmall hfew).of_has hx (hq ▸ h.has)

theorem takes_zero (negative : Bool) : Codec.binary64.Takes (.zero negative) (Codec.binary64.write (.zero negative)) := by
  have hzero : Numerals [zero] := numerals_digit (c := '0') rfl
  cases negative with
  | false => exact reads_binary64_zero
  | true =>
    have hwrite : Codec.binary64.write (.zero true) = minus :: [zero, point, zero] := by rfl
    rw [hwrite]
    refine takes_float (l := ⟨true, [zero], some [zero], none⟩) rfl (fun s hs => ?_) (by rfl)
    obtain ⟨-, hdigit, hmark⟩ := ends_parts hs
    change (do
      let whole ← wholePart
      let fraction ← fractionPart
      return ⟨true, whole, fraction, ← exponentPart⟩ : Reader Literal) (zero :: point :: ([zero] ++ s)) = _
    rw [← List.singleton_append, Reader.bind_ok (wholePart_append hzero fun b hb => by cases hb; rfl),
      Reader.bind_ok (fractionPart_some hzero.digits hzero.nonempty hdigit), Reader.bind_ok (exponentPart_none hmark)]
    rfl

theorem takes_one {x : Binary64} (hs : x.negative = false) (h : x.magnitude = 1) :
    Codec.binary64.Takes x (Codec.binary64.write x) := by
  have hone : x = ⟨false, Binary64.hidden, -52, by decide⟩ := by
    refine Binary64.eq_of_magnitude hs (h.trans ?_)
    norm_num [Binary64.magnitude, Binary64.hidden_eq]
  have hwrite : Codec.binary64.write x = 49 :: [point, zero] := by
    rw [hone]
    rfl
  have hdigit : Numerals [zero] := numerals_digit (c := '0') rfl
  rw [hwrite]
  refine takes_float (l := ⟨false, [49], some [zero], none⟩) rfl (fun s hs => ?_) (by rw [hone]; rfl)
  exact literal_fraction (numerals_digit (c := '1') rfl) hdigit.digits hdigit.nonempty hs

/-- What was written of a number up to one is read as a number up to one. -/
theorem takes_inUnit {x : Binary64} (h : x.inUnit) :
    ∃ y, Codec.binary64.Takes y (Codec.binary64.write x) ∧ y.inUnit ∧ (x.Short → y = x) := by
  by_cases hx : x.mantissa = 0
  · have hzero : x = .zero x.negative :=
      Binary64.eq_of_magnitude rfl ((Binary64.magnitude_eq_zero.mpr hx).trans (Binary64.magnitude_eq_zero.mpr rfl).symm)
    exact ⟨x, hzero ▸ takes_zero x.negative, h, fun _ => rfl⟩
  · obtain ⟨hs, hle⟩ := (Binary64.inUnit_iff.mp h).resolve_left hx
    rcases lt_or_eq_of_le hle with hlt | hone
    · obtain ⟨y, hy, hys, hy1, hshort⟩ := takes_below_one hs hx hlt
      exact ⟨y, hy, Binary64.inUnit_iff.mpr (.inr ⟨hys, hy1⟩), fun h =>
        Binary64.eq_of_magnitude (hys.trans hs.symm) (hshort h)⟩
    · exact ⟨x, takes_one hs hone, h, fun _ => rfl⟩

end TokenLedger.Json
