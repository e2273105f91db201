import TokenLedger.Proofs.Exactness
import Mathlib.Data.String.Basic

/-! Amounts are read in 64-bit words. The point is moved to its place among the digits, and the rest is read as
digits with a point. No step leaves its word on any text, and no exponent makes a text long: the outcome is the one
of the reading with numbers of any size. -/

namespace TokenLedger.Amount

open Decimal

/-- A reading in words. It comes to nothing if a number does not fit in its word, or if more than 20 zeros are put
together. -/
abbrev Words := ExceptT Reason Option

namespace Words

def overflow {α : Type} : Words α := ExceptT.mk none

def signed (n : ℤ) : Words ℤ := if -2 ^ 63 ≤ n ∧ n < 2 ^ 63 then pure n else overflow

def saturate (n : ℤ) : ℤ := if n < -2 ^ 63 then -2 ^ 63 else if 2 ^ 63 ≤ n then 2 ^ 63 - 1 else n

def minus (m n : ℕ) : Words ℕ := if n ≤ m then pure (m - n) else overflow

def zeros (n : ℕ) : Words (List Char) := if n ≤ 20 then pure (List.replicate n '0') else overflow

/-- The unsigned word that digits spell. -/
def parse (r : Reason) (ds : List Char) : Words ℕ := if natural ds < 2 ^ 64 then pure (natural ds) else throw r

theorem signed_of {n : ℤ} (h : -2 ^ 63 ≤ n ∧ n < 2 ^ 63) : signed n = pure n := if_pos h

theorem minus_of {m n : ℕ} (h : n ≤ m) : minus m n = pure (m - n) := if_pos h

theorem zeros_of {n : ℕ} (h : n ≤ 20) : zeros n = pure (List.replicate n '0') := if_pos h

theorem parse_of {r : Reason} {ds : List Char} (h : natural ds < 2 ^ 64) : parse r ds = pure (natural ds) := if_pos h

def before (w : List Char) : Words ℕ := if w.isEmpty then pure 0 else parse .outOfRange w

def behind (f : List Char) : Words ℕ :=
  if f.isEmpty then pure 0
  else do
    let filling ← zeros (places - f.length)
    parse .malformed (f ++ filling)

def plain (s : List Char) : Words Amount :=
  match mantissa? s with
  | none => throw .malformed
  | some (w, f) =>
    let f := Text.dropRight (· == '0') f
    if places < f.length then throw .tooPrecise
    else do
      let whole ← before w
      let part ← behind f
      match (ofUnits? (whole * scale)).bind fun a => ofUnits? (a.units + part) with
      | some a => pure a
      | none => throw .outOfRange

/-- Digits with the point at a place: before them, behind them or between two of them. -/
def layout (ds : List Char) (point : ℤ) : Words Amount :=
  if point ≤ 0 then do
    let filling ← zeros point.natAbs
    plain ('0' :: '.' :: (filling ++ ds))
  else if ds.length ≤ point.toNat then do
    let filling ← zeros (← minus point.toNat ds.length)
    plain (ds ++ filling)
  else plain (ds.take point.toNat ++ '.' :: ds.drop point.toNat)

/-- Digits with the point at a place, unless this is far beyond the places of an amount. -/
def placed (ds : List Char) (point : ℤ) : Words Amount := do
  let length ← signed ds.length
  if places < saturate (length - point) then throw .tooPrecise
  else if 20 < point then throw .outOfRange
  else layout ds point

/-- The significant digits with the point at the place to which the exponent moves it. -/
def shifted (n : Numeral) : Words Amount :=
  let unpadded := n.digits.dropWhile (· == '0')
  let ds := Text.dropRight (· == '0') unpadded
  if ds.isEmpty then pure zero
  else do
    let leading ← signed (← minus n.digits.length unpadded.length)
    let moved ← signed ((← signed n.whole.length) - leading)
    placed ds (saturate (moved + n.exponent))

def ofTrimmed (t : List Char) : Words Amount :=
  if t.head? = some '-' then throw .negative
  else if t.any isMark then
    match Numeral.ofChars? t with
    | none => throw .malformed
    | some n => shifted n
  else plain t

/-- The amount that a text spells, read in words. -/
def ofText (s : String) : ExceptT Unreadable Option Amount :=
  let t := Text.trim s.toList
  (ofTrimmed t).adapt fun r => ⟨r, String.ofList t⟩

/-- The reading comes to an end in words, with the outcome that is exact for the number. -/
def Gives (x : Words Amount) (v : ℚ) : Prop := ∃ r, x.run = some r ∧ Exact v r

theorem gives_throw {v : ℚ} {r : Reason} (h : Exact v (.error r)) : Gives (throw r) v := ⟨_, rfl, h⟩

theorem ofUnits?_bind (m n : ℕ) : ((ofUnits? m).bind fun a => ofUnits? (a.units + n)) = ofUnits? (m + n) := by
  by_cases h : m < UInt64.size
  · rw [ofUnits?, dif_pos h, Option.bind_some]
  · rw [ofUnits?, dif_neg h, ofUnits?, dif_neg (by omega), Option.bind_none]

theorem fixedPoint_mul_scale {w f : List Char} (hf : f.length ≤ places) :
    fixedPoint w f * 10 ^ 8 =
      (natural w * scale + natural (f ++ List.replicate (places - f.length) '0') : ℕ) := by
  obtain ⟨z, hz⟩ := Nat.exists_eq_add_of_le hf
  have hpow : (10 : ℚ) ^ 8 = 10 ^ f.length * 10 ^ z := by rw [← pow_add, ← hz, places]
  have hscale : (scale : ℚ) = 10 ^ 8 := by norm_num [scale]
  rw [natural_append_zeros, fixedPoint, show places - f.length = z by omega]
  push_cast
  rw [hscale, hpow]
  field_simp

theorem fixedPoint_dropRight (w f : List Char) : fixedPoint w (Text.dropRight (· == '0') f) = fixedPoint w f := by
  have hf := Text.dropRight_append_zeros f
  have hle := Text.dropRight_length_le (· == '0') f
  generalize Text.dropRight (· == '0') f = g at hf hle ⊢
  obtain ⟨z, hz⟩ := Nat.exists_eq_add_of_le hle
  rw [show f.length - g.length = z by omega] at hf
  rw [fixedPoint, fixedPoint, hz, ← hf, natural_append_zeros, pow_add]
  push_cast
  field_simp

theorem isDigit_of_mem_zeros {n : ℕ} {c : Char} (h : c ∈ List.replicate n '0') : c.isDigit := by
  rw [List.eq_of_mem_replicate h]
  rfl

theorem before_eq (w : List Char) : before w = parse .outOfRange w := by
  cases w with
  | nil => rfl
  | cons => rfl

theorem behind_eq {f : List Char} (hd : ∀ c ∈ f, c.isDigit) (hf : f.length ≤ places) :
    behind f = pure (natural (f ++ List.replicate (places - f.length) '0')) := by
  have hlt := natural_lt fun c hc => (List.mem_append.mp hc).elim (hd c) (isDigit_of_mem_zeros (n := places - f.length))
  rw [List.length_append, List.length_replicate, Nat.add_sub_cancel' hf] at hlt
  rw [behind, zeros_of ((Nat.sub_le _ _).trans (by decide)), pure_bind, parse_of (hlt.trans (by decide))]
  split_ifs with hnil
  · rw [List.isEmpty_iff.mp hnil, List.nil_append, natural_zeros]
  · rfl

theorem gives_plain {s w f : List Char} (hs : IsMantissa s w f) : Gives (plain s) (fixedPoint w f) := by
  rw [plain, mantissa?_eq_some.mpr hs, ← fixedPoint_dropRight w f]
  have hdigit (c : Char) (hc : c ∈ w ++ Text.dropRight (· == '0') f) : c.isDigit := by
    rcases List.mem_append.mp hc with hc | hc
    · exact hs.digits c (List.mem_append_left _ hc)
    · exact hs.digits c (List.mem_append_right _ (Text.mem_of_mem_dropRight hc))
  have hlast {g : List Char} {c : Char} (h : Text.dropRight (· == '0') f = g ++ [c]) : c ≠ '0' := by
    simpa using Text.dropRight_eq_concat h
  dsimp only
  generalize Text.dropRight (· == '0') f = f at hdigit hlast ⊢
  split_ifs with hlong
  · -- the last digit is not zero, and it is behind all places of an amount
    obtain ⟨g, c, rfl⟩ := (List.eq_nil_or_concat' f).resolve_left (by rintro rfl; simp at hlong)
    refine gives_throw (.tooPrecise fun k => ?_)
    have hunits : fixedPoint w (g ++ [c]) * 10 ^ 8 = natural (w ++ (g ++ [c])) * 10 ^ (8 - (g ++ [c]).length : ℤ) := by
      rw [fixedPoint_eq, zpow_sub₀ (by norm_num), zpow_natCast]
      norm_cast
      ring
    rw [hunits, ← List.append_assoc]
    refine mul_zpow_ne (natural_concat_mod (hdigit c (by simp)) (hlast rfl)) ?_ k
    simp only [places] at hlong
    omega
  · have hf := Nat.not_lt.mp hlong
    have hunits := fixedPoint_mul_scale (w := w) hf
    rw [before_eq]
    by_cases hw : natural w < 2 ^ 64
    · rw [parse_of hw, pure_bind, behind_eq (fun c hc => hdigit c (List.mem_append_right _ hc)) hf, pure_bind,
        ofUnits?_bind]
      refine ⟨_, ?_, exact_ofUnits hunits⟩
      cases ofUnits? _ <;> rfl
    · rw [parse, if_neg hw]
      refine gives_throw (.outOfRange (by exact_mod_cast hunits) ?_)
      simp only [scale]
      omega

theorem saturate_of {n : ℤ} (h : -2 ^ 63 ≤ n ∧ n < 2 ^ 63) : saturate n = n := by
  rw [saturate, if_neg (by omega), if_neg (by omega)]

/-- A place that is cut to the range of a word is beyond all places of an amount, on the same side. -/
theorem lt_saturate_sub {length : ℕ} (h : length < 2 ^ 63) (place : ℤ) :
    8 < saturate (length - saturate place) ↔ 8 < length - place := by
  simp only [saturate]
  split_ifs <;> omega

theorem lt_saturate (place : ℤ) : 20 < saturate place ↔ 20 < place := by
  rw [saturate]
  split_ifs <;> omega

theorem fixedPoint_eq_spelled {w f ds : List Char} {z : ℕ} {p : ℤ} (h : natural (w ++ f) = natural ds * 10 ^ z)
    (hp : z - f.length = p - ds.length) : fixedPoint w f = spelled ds p := by
  rw [fixedPoint_eq, spelled, ← hp, zpow_sub₀ (by norm_num), zpow_natCast, zpow_natCast, h]
  push_cast
  ring

/-- In each layout the digits are read as the number with the point at this place. -/
theorem gives_layout {ds : List Char} (hne : ds ≠ []) (hd : ∀ c ∈ ds, c.isDigit) {p : ℤ} (hlow : ds.length - 8 ≤ p)
    (hhigh : p ≤ 20) : Gives (layout ds p) (spelled ds p) := by
  have hpos := List.length_pos_iff.mpr hne
  rw [layout]
  split_ifs with hneg hlong
  · rw [zeros_of (by omega), pure_bind]
    have hfront : natural (['0'] ++ (List.replicate p.natAbs '0' ++ ds)) = natural ds * 10 ^ 0 := by
      have h := natural_append (List.replicate (p.natAbs + 1) '0') ds
      rwa [natural_zeros, List.replicate_succ, Nat.zero_mul, Nat.zero_add, ← Nat.mul_one (natural ds)] at h
    rw [← fixedPoint_eq_spelled hfront (by rw [List.length_append, List.length_replicate]; omega)]
    refine gives_plain (.point (w := ['0']) (by simp) (by simp) fun c hc => ?_)
    exact (List.mem_append.mp hc).elim isDigit_of_mem_zeros (hd c)
  · rw [minus_of hlong, pure_bind, zeros_of (by omega), pure_bind]
    have hback : natural (ds ++ List.replicate (p.toNat - ds.length) '0' ++ []) =
        natural ds * 10 ^ (p.toNat - ds.length) := by
      rw [List.append_nil, natural_append_zeros]
    rw [← fixedPoint_eq_spelled hback (by simp; omega)]
    refine gives_plain (.whole (by simp [hne]) fun c hc => ?_)
    exact (List.mem_append.mp hc).elim (hd c) isDigit_of_mem_zeros
  · have hsplit : natural (ds.take p.toNat ++ ds.drop p.toNat) = natural ds * 10 ^ 0 := by
      rw [List.take_append_drop, pow_zero, Nat.mul_one]
    rw [← fixedPoint_eq_spelled hsplit (by simp; omega)]
    exact gives_plain (.point (by simpa using hne) (fun c hc => hd c (List.mem_of_mem_take hc))
      fun c hc => hd c (List.mem_of_mem_drop hc))

theorem gives_placed {n : Numeral} (hn : ∀ c ∈ n.digits, c.isDigit) (hne : n.significant ≠ [])
    (hlen : n.significant.length < 2 ^ 63) : Gives (placed n.significant (saturate n.place)) n.value := by
  have hpadding : padding n = n.place + 8 - n.significant.length := rfl
  have hplaces : ((places : ℕ) : ℤ) = 8 := rfl
  rw [placed, signed_of (by omega), pure_bind, hplaces]
  -- both tests come out as without saturation, and what passes them is in range
  simp only [lt_saturate_sub hlen, lt_saturate]
  split_ifs with hprec hfar
  · exact gives_throw (exact_tooPrecise hn hne (by omega))
  · exact gives_throw (exact_outOfRange hn hne (by omega) (by omega))
  · rw [saturate_of (by omega), n.value_eq_spelled]
    exact gives_layout hne (n.isDigit_of_mem_significant hn) (by omega) (by omega)

theorem shifted_eq {n : Numeral} (hlen : n.digits.length < 2 ^ 63) :
    shifted n = if n.significant.isEmpty then pure zero else placed n.significant (saturate n.place) := by
  have hwhole : n.whole.length ≤ n.digits.length := by simp [Numeral.digits]
  have hleading : n.digits.length - (n.digits.dropWhile (· == '0')).length =
      (n.digits.takeWhile (· == '0')).length := by
    have h := Text.length_takeWhile_add_dropWhile (· == '0') n.digits
    omega
  have hle : (n.digits.takeWhile (· == '0')).length ≤ n.digits.length := (List.takeWhile_sublist _).length_le
  rw [shifted, minus_of (List.dropWhile_sublist _).length_le, hleading, pure_bind, signed_of (by omega), pure_bind,
    signed_of (by omega), pure_bind, signed_of (by omega), pure_bind]
  rfl

theorem gives_shifted {n : Numeral} (hn : ∀ c ∈ n.digits, c.isDigit) (hlen : n.digits.length < 2 ^ 63) :
    Gives (shifted n) n.value := by
  rw [shifted_eq hlen]
  split_ifs with hnil
  · refine ⟨_, rfl, .ok ?_⟩
    rw [value_mul_scale, List.isEmpty_iff.mp hnil]
    simp [zero]
  · have hsig := n.length_significant_le
    exact gives_placed hn (by simpa using hnil) (by omega)

theorem run_eq {x : Words Amount} {v : ℚ} {r : Except Reason Amount} (hx : Gives x v) (hr : Exact v r) :
    x.run = some r := by
  obtain ⟨s, hs, hexact⟩ := hx
  rw [hs, hexact.unique hr]

/-- On a text that is not too long for a word, the reading in words comes to the same end as the other one. -/
theorem run_ofTrimmed {t : List Char} (h : t.length < 2 ^ 63) : (ofTrimmed t).run = some (Amount.ofTrimmed t) := by
  rw [ofTrimmed, Amount.ofTrimmed]
  split_ifs with hminus hmark
  · rfl
  · cases hn : Numeral.ofChars? t with
    | none => rfl
    | some n =>
      have hd := Numeral.isDigit_of_ofChars? hn
      obtain ⟨m, hm, hmantissa⟩ := Numeral.isMantissa_of_ofChars? hn
      refine run_eq (gives_shifted hd ?_) (exact_ofNumeral hd)
      have hle := hmantissa.length_le
      rw [Numeral.digits, List.length_append]
      omega
  · have hread (n : Numeral) := Numeral.ofChars?_eq_some (t := t) (n := n)
    cases hn : Numeral.ofChars? t with
    | none =>
      have hnone : mantissa? t = none := by
        refine Option.eq_none_iff_forall_ne_some.mpr fun x hm => ?_
        obtain ⟨w, f⟩ := x
        have h := (hread ⟨w, f, 0⟩).mpr (.inl ⟨mantissa?_eq_some.mp hm, rfl⟩)
        rw [hn] at h
        cases h
      rw [plain, hnone]
      rfl
    | some n =>
      rcases (hread n).mp hn with ⟨hm, he⟩ | ⟨m, mark, e, rfl, hc, -⟩
      · refine run_eq ?_ (exact_ofNumeral (Numeral.isDigit_of_ofChars? hn))
        rw [Numeral.value, he, zpow_zero, mul_one]
        exact gives_plain hm
      · exact absurd (List.any_eq_true.mpr ⟨mark, by simp, hc⟩) hmark

end Words

theorem length_le_utf8ByteSize (s : String) : s.toList.length ≤ s.utf8ByteSize := by
  rw [← String.utf8Len_toList]
  induction s.toList with
  | nil => exact Nat.le_refl _
  | cons c t ih =>
    have hc := c.utf8Size_pos
    rw [String.utf8Len_cons, List.length_cons]
    omega

theorem run_ofText {s : String} (h : s.utf8ByteSize < 2 ^ 63) : (Words.ofText s).run = some (ofText s) := by
  have hlen := length_le_utf8ByteSize s
  have htrim : (Text.trim s.toList).length ≤ s.toList.length :=
    (Text.dropRight_length_le _ _).trans (List.dropWhile_sublist _).length_le
  change (Words.ofTrimmed _).run.map _ = _
  rw [Words.run_ofTrimmed (by omega)]
  rfl

/-- Amounts are read exactly. A text is an amount if its number is a whole number of units in range, and otherwise it
is refused for what is wrong with it: it denotes nothing, or the number needs more places, or it is too large. In
memory a text has fewer than `2 ^ 63` octets, and then it is read in words with the same outcome. -/
theorem ofText_exact (s : String) :
    ∃ t, Text.Strips Text.isBlank s.toList t ∧
      (∀ v w, Denotes t v → Denotes t w → v = w) ∧
      (∀ a : Amount, ofText s = .ok a ↔ t.head? ≠ some '-' ∧ ∃ v, Denotes t v ∧ v * 10 ^ 8 = a.units) ∧
      (∀ e : Unreadable, ofText s = .error e ↔ e.text = String.ofList t ∧
        match e.reason with
        | .negative => t.head? = some '-'
        | .malformed => t.head? ≠ some '-' ∧ ¬∃ v, Denotes t v
        | .tooPrecise => t.head? ≠ some '-' ∧ ∃ v, Denotes t v ∧ ∀ k : ℤ, v * 10 ^ 8 ≠ k
        | .outOfRange => t.head? ≠ some '-' ∧ ∃ v, Denotes t v ∧ ∃ k : ℤ, v * 10 ^ 8 = k ∧ 2 ^ 64 ≤ k) ∧
      (s.utf8ByteSize < 2 ^ 63 → (Words.ofText s).run = some (ofText s)) := by
  refine ⟨Text.trim s.toList, Text.strips_strip _ _, fun v w => Denotes.unique, fun a => ?_, fun e => ?_, run_ofText⟩
  · rw [ofText_eq_ok, ofTrimmed_eq_iff]
    simp [exact_iff]
  · rw [ofText_eq_error, ofTrimmed_eq_iff]
    cases e.reason <;> simp [exact_iff]

example : (Words.ofText "0.025e+2").run = some (.ok ⟨250000000, by decide⟩) := rfl
example : (Words.ofText "1e9223372036854775807").run = some (.error ⟨.outOfRange, "1e9223372036854775807"⟩) := rfl

end TokenLedger.Amount
