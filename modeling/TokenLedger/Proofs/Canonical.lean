import TokenLedger.Proofs.Exactness
import TokenLedger.Proofs.Json.Number

/-! The text of an amount is the simplest number that tells it exactly: there is no other one without a sign, an
exponent, a zero in front or a zero at the end. It is read back between white space, and in a document also between
quotes. -/

namespace TokenLedger

namespace Decimal

structure IsWhole (w : List Char) : Prop where
  nonempty : w ≠ []
  digits : ∀ c ∈ w, c.isDigit
  leading : w.head? = some '0' → w = ['0']

structure IsFraction (f : List Char) : Prop where
  digits : ∀ c ∈ f, c.isDigit
  last : f.getLast? ≠ some '0'

/-- A number as documents spell it, without a sign or an exponent, and its value. A fraction has a digit, and does not
end in a zero. -/
inductive Canonical : List Char → ℚ → Prop where
  | whole {w : List Char} (hw : IsWhole w) : Canonical w (natural w)
  | point {w f : List Char} (hw : IsWhole w) (hf : IsFraction f) (hne : f ≠ []) :
      Canonical (w ++ '.' :: f) (fixedPoint w f)

theorem natural_append_inj {s t u v : List Char} (ht : ∀ c ∈ t, c.isDigit) (hv : ∀ c ∈ v, c.isDigit)
    (hl : t.length = v.length) (h : natural (s ++ t) = natural (u ++ v)) :
    natural s = natural u ∧ natural t = natural v := by
  have hpos : 0 < 10 ^ v.length := Nat.pow_pos (by norm_num)
  have hs := (Nat.div_mod_unique (d := natural s) hpos).mpr ⟨rfl, hl ▸ natural_lt ht⟩
  have hu := (Nat.div_mod_unique (d := natural u) hpos).mpr ⟨rfl, natural_lt hv⟩
  have heq : natural t + 10 ^ v.length * natural s = natural v + 10 ^ v.length * natural u := by
    rw [natural_append, natural_append, hl] at h
    linarith
  rw [heq] at hs
  exact ⟨hs.1.symm.trans hu.1, hs.2.symm.trans hu.2⟩

theorem natural_inj {s t : List Char} (hs : ∀ c ∈ s, c.isDigit) (ht : ∀ c ∈ t, c.isDigit) (hl : s.length = t.length)
    (h : natural s = natural t) : s = t := by
  have hone {c d : Char} (hc : c.isDigit) (hd : d.isDigit) (h : natural [c] = natural [d]) : c = d := by
    have hn (c : Char) : natural [c] = c.toNat - 48 := by simp [natural, Nat.ofDigitChars_cons]
    have hc := Text.toNat_of_isDigit hc
    have hd := Text.toNat_of_isDigit hd
    rw [hn, hn] at h
    exact Char.toNat_inj.mp (by omega)
  induction s generalizing t with
  | nil => exact (List.length_eq_zero_iff.mp hl.symm).symm
  | cons c s ih =>
    obtain ⟨d, t, rfl⟩ := List.exists_cons_of_length_eq_add_one hl.symm
    simp only [List.forall_mem_cons, List.length_cons, Nat.add_right_cancel_iff] at hs ht hl
    obtain ⟨hhead, htail⟩ := natural_append_inj (s := [c]) (u := [d]) hs.2 ht.2 hl h
    rw [hone hs.1 ht.1 hhead, ih hs.2 ht.2 hl htail]

theorem IsWhole.length_le {w x : List Char} (hw : IsWhole w) (hx : IsWhole x) (h : natural w = natural x) :
    w.length ≤ x.length := by
  obtain ⟨c, s, rfl⟩ := List.exists_cons_of_ne_nil hw.nonempty
  by_cases hc : c = '0'
  · rw [hw.leading (by rw [hc]; rfl)]
    exact List.length_pos_iff.mpr hx.nonempty
  · have hlow : 10 ^ s.length ≤ natural (c :: s) := le_natural_cons (hw.digits c List.mem_cons_self) hc
    have hhigh : natural x < 10 ^ x.length := natural_lt hx.digits
    rw [← h] at hhigh
    exact (Nat.pow_lt_pow_iff_right (a := 10) (by norm_num)).mp (hlow.trans_lt hhigh)

theorem IsWhole.unique {w x : List Char} (hw : IsWhole w) (hx : IsWhole x) (h : natural w = natural x) : w = x :=
  natural_inj hw.digits hx.digits (Nat.le_antisymm (hw.length_le hx h) (hx.length_le hw h.symm)) h

theorem isWhole_toDigits (n : ℕ) : IsWhole (Nat.toDigits 10 n) where
  nonempty := Nat.toDigits_ne_nil
  digits c hc := Nat.isDigit_of_mem_toDigits (by omega) (by omega) hc
  leading h := by
    obtain ⟨s, hs⟩ := List.head?_eq_some_iff.mp h
    have hone := (Json.numerals_toDigits n).canonical (by rw [hs]; rfl)
    rw [hs, List.map_cons, List.cons.injEq, List.map_eq_nil_iff] at hone
    rw [hs, hone.2]

/-- Digits behind the point are not fewer than those of another fraction of the same number. -/
theorem length_fraction_le {w f x g : List Char} (hg : IsFraction g)
    (h : fixedPoint w f = fixedPoint x g) : g.length ≤ f.length := by
  by_contra hlt
  obtain ⟨k, hk⟩ := Nat.exists_eq_add_of_lt (Nat.lt_of_not_le hlt)
  -- the longer fraction ends in a digit that the shorter one has no place for
  have hne : g ≠ [] := fun hnil => by simp [hnil] at hk
  obtain ⟨ds, c, hds⟩ := (List.eq_nil_or_concat' g).resolve_left hne
  have hc : c.isDigit ∧ c ≠ '0' := by
    refine ⟨hg.digits c (by simp [hds]), fun hzero => hg.last ?_⟩
    rw [hds, hzero, List.getLast?_concat]
  have heq : natural (w ++ f) * 10 ^ (k + 1) = natural (x ++ g) := by
    rw [fixedPoint_eq, fixedPoint_eq, div_eq_div_iff (by positivity) (by positivity), hk] at h
    have hnat : natural (w ++ f) * 10 ^ (f.length + k + 1) = natural (x ++ g) * 10 ^ f.length := by exact_mod_cast h
    refine Nat.eq_of_mul_eq_mul_right (Nat.pow_pos (a := 10) (by norm_num)) (Eq.trans ?_ hnat)
    ring
  have hmod := natural_concat_mod (s := x ++ ds) hc.1 hc.2
  rw [List.append_assoc, ← hds, ← heq, pow_succ, ← mul_assoc, Nat.mul_mod_left] at hmod
  exact hmod rfl

theorem fixedPoint_inj {w f x g : List Char} (hw : IsWhole w) (hf : IsFraction f) (hx : IsWhole x) (hg : IsFraction g)
    (h : fixedPoint w f = fixedPoint x g) : w = x ∧ f = g := by
  have hl : f.length = g.length := Nat.le_antisymm (length_fraction_le hf h.symm) (length_fraction_le hg h)
  have hnat : natural (w ++ f) = natural (x ++ g) := by
    rw [fixedPoint_eq, fixedPoint_eq, hl, div_left_inj' (by positivity)] at h
    exact_mod_cast h
  obtain ⟨hwhole, hfraction⟩ := natural_append_inj hf.digits hg.digits hl hnat
  exact ⟨hw.unique hx hwhole, natural_inj hf.digits hg.digits hl hfraction⟩

theorem Canonical.parts {s : List Char} {v : ℚ} (h : Canonical s v) : ∃ w f, IsWhole w ∧ IsFraction f ∧
    v = fixedPoint w f ∧ s = w ++ if f = [] then [] else '.' :: f := by
  cases h with
  | whole hw => exact ⟨s, [], hw, ⟨by simp, by simp⟩, by simp [fixedPoint], by simp⟩
  | point hw hf hne => exact ⟨_, _, hw, hf, rfl, by rw [if_neg hne]⟩

theorem Canonical.unique {s t : List Char} {v : ℚ} (hs : Canonical s v) (ht : Canonical t v) : s = t := by
  obtain ⟨w, f, hw, hf, rfl, rfl⟩ := hs.parts
  obtain ⟨x, g, hx, hg, hv, rfl⟩ := ht.parts
  obtain ⟨rfl, rfl⟩ := fixedPoint_inj hw hf hx hg hv
  rfl

end Decimal

namespace Amount

open Decimal

theorem isFraction_fraction (a : Amount) : IsFraction a.fraction where
  digits _ hc := isDigit_of_mem_fraction hc
  last h := by
    obtain ⟨ds, hds⟩ := List.getLast?_eq_some_iff.mp h
    unfold fraction at hds
    split at hds
    · simp at hds
    · exact absurd (Text.dropRight_eq_concat hds) (by decide)

theorem fixedPoint_chars (a : Amount) :
    fixedPoint (Nat.toDigits 10 (a.units / scale)) a.fraction = a.units / 10 ^ 8 := by
  have hl := length_fraction_le a
  have hpow : (10 : ℚ) ^ 8 = 10 ^ a.fraction.length * 10 ^ (8 - a.fraction.length) := by
    rw [← pow_add, Nat.add_sub_cancel' hl]
  have hunits : (a.units : ℚ) =
      natural (Nat.toDigits 10 (a.units / scale) ++ a.fraction) * 10 ^ (8 - a.fraction.length) := by
    exact_mod_cast (natural_chars a).symm
  rw [fixedPoint_eq, div_eq_div_iff (by positivity) (by positivity), hpow, hunits]
  ring

theorem canonical_chars (a : Amount) : Canonical a.chars (a.units / 10 ^ 8) := by
  rw [chars_eq, ← fixedPoint_chars]
  have hw := isWhole_toDigits (a.units / scale)
  by_cases hz : a.units % scale = 0
  · have hnil : a.fraction = [] := by rw [fraction, if_pos hz]
    rw [if_pos hz, List.append_nil, hnil]
    simpa [fixedPoint] using Canonical.whole hw
  · rw [if_neg hz]
    exact .point hw (isFraction_fraction a) (fraction_ne_nil hz)

theorem text_injective : Function.Injective text := by
  intro a b h
  have hb := ofChars_chars b
  rw [← String.ofList_injective h, ofChars_chars] at hb
  exact Except.ok.inj hb

/-- White space around an amount. -/
structure Padding (l r : String) : Prop where
  before : l.toList.all Text.isBlank
  behind : r.toList.all Text.isBlank

variable {l r : String}

theorem toList_padded (l r : String) (a : Amount) : (l ++ a.text ++ r).toList = l.toList ++ a.chars ++ r.toList := by
  rw [String.toList_append, String.toList_append, text, String.toList_ofList]

theorem ofText_padded (h : Padding l r) (a : Amount) : ofText (l ++ a.text ++ r) = .ok a := by
  rw [ofText, toList_padded, ofChars_between (List.all_eq_true.mp h.before) (List.all_eq_true.mp h.behind)]

/-- Texts are read as the same amount exactly if they denote the same number. -/
theorem eq_iff_denotes {s t : String} {a b : Amount} (ha : ofText s = .ok a) (hb : ofText t = .ok b) :
    a = b ↔ ∃ v, Denotes (Text.trim s.toList) v ∧ Denotes (Text.trim t.toList) v := by
  have hvalue {s : String} {a : Amount} (h : ofText s = .ok a) :
      ∃ v, Denotes (Text.trim s.toList) v ∧ Exact v (.ok a) := by
    rcases ofTrimmed_eq_iff.mp (ofText_eq_ok.mp h) with ⟨-, hr⟩ | ⟨-, -, hr⟩ | ⟨-, v, hv, hexact⟩
    · cases hr
    · cases hr
    · exact ⟨v, hv, hexact⟩
  obtain ⟨v, hv, hva⟩ := hvalue ha
  obtain ⟨w, hw, hwb⟩ := hvalue hb
  constructor
  · rintro rfl
    obtain ⟨hva⟩ | _ | _ := hva
    obtain ⟨hwb⟩ | _ | _ := hwb
    obtain rfl : v = w := mul_right_cancel₀ (by norm_num) (hva.trans hwb.symm)
    exact ⟨v, hv, hw⟩
  · rintro ⟨x, hx, hx'⟩
    obtain rfl := hv.unique hx
    obtain rfl := hw.unique hx'
    exact Except.ok.inj (hva.unique hwb)

end Amount

namespace Json

open Octet Text

theorem textRest_plain {bs : Bytes} (h : ∀ b ∈ bs, b ≠ Octet.quote ∧ b ≠ backslash ∧ ¬ b < 32) (s : Bytes) :
    textRest (bs ++ Octet.quote :: s) = .ok s := by
  induction bs with
  | nil => rfl
  | cons b bs ih =>
    obtain ⟨hq, hb, hc⟩ := h b List.mem_cons_self
    have hstep : textRest (b :: (bs ++ Octet.quote :: s)) = textRest (bs ++ Octet.quote :: s) := by
      rw [textRest.eq_def]
      split <;> simp_all
    rw [List.cons_append, hstep, ih fun x hx => h x (List.mem_cons_of_mem b hx)]

theorem skip_quoted {bs : Bytes} (h : ∀ b ∈ bs, b ≠ Octet.quote ∧ b ≠ backslash ∧ ¬ b < 32) (s : Bytes) :
    skip (Octet.quote :: (bs ++ Octet.quote :: s)) = .ok ((), s) := by
  have hrest : (liftM (textRest (bs ++ Octet.quote :: s)) : Reader Bytes) (bs ++ Octet.quote :: s) =
      .ok (s, bs ++ Octet.quote :: s) := by
    rw [textRest_plain h]
    rfl
  rw [skip_eq, skipValue, Reader.bind_ok (peekValue_cons rfl _)]
  change (do advance; skipText : Reader Unit) _ = _
  rw [Reader.bind_ok (a := ()) (t := bs ++ Octet.quote :: s) rfl, skipText,
    Reader.bind_ok (a := bs ++ Octet.quote :: s) (t := bs ++ Octet.quote :: s) rfl, Reader.bind_ok hrest]
  rfl

def quoted (t : String) : String := "\"" ++ t ++ "\""

variable {l r : String}

theorem plain_padded (h : Amount.Padding l r) (hlr : (l ++ r).toList.all (32 ≤ ·.toNat)) (a : Amount) :
    ∀ c ∈ (l ++ a.text ++ r).toList, c ≠ '"' ∧ c ≠ '\\' ∧ ¬ c.toNat < 32 := by
  intro c hc
  rw [Amount.toList_padded, List.mem_append, List.mem_append, or_right_comm, ← List.mem_append] at hc
  rcases hc with hc | hc
  · have hblank : Text.isBlank c = true :=
      (List.mem_append.mp hc).elim (List.all_eq_true.mp h.before c) (List.all_eq_true.mp h.behind c)
    rw [← String.toList_append] at hc
    have hlow : 32 ≤ c.toNat := of_decide_eq_true (List.all_eq_true.mp hlr c hc)
    refine ⟨?_, ?_, Nat.not_lt.mpr hlow⟩ <;> (rintro rfl; simp [Text.isBlank] at hblank)
  · rcases Amount.mem_chars hc with hd | rfl
    · have hd' := toNat_of_isDigit hd
      exact ⟨Decimal.ne_of_isDigit hd rfl, Decimal.ne_of_isDigit hd rfl, by omega⟩
    · decide

/-- An amount is also read between quotes, and between white space inside of them that is no control character. -/
theorem takes_quoted (h : Amount.Padding l r) (hlr : (l ++ r).toList.all (32 ≤ ·.toNat)) (a : Amount) :
    Codec.amount.Takes a (utf8 (quoted (l ++ a.text ++ r))) := by
  have hchars := plain_padded h hlr a
  have hplain : ∀ b ∈ utf8 (l ++ a.text ++ r), b ≠ Octet.quote ∧ b ≠ backslash ∧ ¬ b < 32 := by
    intro b hb
    obtain ⟨c, hc, hb⟩ := List.mem_flatMap.mp hb
    obtain ⟨hquote, hbackslash, hcontrol⟩ := hchars c hc
    exact plain_of_encodeChar hquote hbackslash hcontrol b hb
  have hutf : utf8 (quoted (l ++ a.text ++ r)) = Octet.quote :: (utf8 (l ++ a.text ++ r) ++ [Octet.quote]) := by
    rw [quoted, utf8_append, utf8_append]
    rfl
  have hstrip : strip (· == '"') (quoted (l ++ a.text ++ r)).toList = (l ++ a.text ++ r).toList := by
    rw [quoted, String.toList_append, String.toList_append]
    exact strip_between (by simp) (by simp) fun c hc => by simpa using (hchars c hc).1
  intro w s hw _
  have hskip : skip (utf8 (quoted (l ++ a.text ++ r)) ++ s) = .ok ((), s) := by
    rw [hutf, List.cons_append, List.append_assoc]
    exact skip_quoted hplain s
  refine amount_of_raw ?_ (raw_of_skip hutf rfl hskip hw)
  rw [hstrip]
  exact Amount.ofText_padded h a

end Json

open Amount Decimal Json Text

/-- An amount is written as the simplest number that is exactly its number of tokens, and there is no other one; to the
reader of documents it is a number without a sign and an exponent. The same amount is read from it, between white space,
and in a document bare or between quotes. So amounts are written alike exactly if they are the same, and exactly if the
texts that they are read from denote the same number. -/
theorem amount_canonical (a : Amount) : (∀ s, Canonical s (a.units / 10 ^ 8) ↔ s = a.text.toList) ∧
    (∃ n, literal (utf8 a.text) = .ok (n, []) ∧ n.negative = false ∧ n.exponent = none) ∧
    (∀ l r, Padding l r → ofText (l ++ a.text ++ r) = .ok a) ∧
    (∀ v w : Bytes, v.all Octet.isBlank → w.all Octet.isBlank → Codec.amount.decode (v ++ (utf8 a.text ++ w)) = .ok a ∧
      ∀ l r, Padding l r → (l ++ r).toList.all (32 ≤ ·.toNat) →
        Codec.amount.decode (v ++ (utf8 (quoted (l ++ a.text ++ r)) ++ w)) = .ok a) ∧
    ∀ b, (a.text = b.text ↔ a = b) ∧ ∀ s t, ofText s = .ok a → ofText t = .ok b →
      (a.text = b.text ↔ ∃ v, Denotes (trim s.toList) v ∧ Denotes (trim t.toList) v) := by
  have htext : a.text.toList = a.chars := String.toList_ofList
  have hcanonical : Canonical a.text.toList (a.units / 10 ^ 8) := by
    rw [htext]
    exact canonical_chars a
  have hliteral := literal_amount a ends_nil
  rw [List.append_nil] at hliteral
  refine ⟨fun s => ⟨fun hs => hs.unique hcanonical, fun hs => hs ▸ hcanonical⟩, ⟨_, hliteral, rfl, rfl⟩,
    fun l r h => ofText_padded h a, fun v w hv hw => ⟨?_, fun l r h hlr => ?_⟩, fun b => ⟨?_, fun s t ha hb => ?_⟩⟩
  · exact Codec.Takes.decode_between (reads_amount a) hv hw
  · exact (takes_quoted h hlr a).decode_between hv hw
  · exact text_injective.eq_iff
  · rw [text_injective.eq_iff]
    exact eq_iff_denotes ha hb

def smallest : Amount := ⟨1, by decide⟩

theorem amount_canonical_smallest : Codec.amount.decode (utf8 "\n\"\u3000 0.00000001\u00a0\" ") = .ok smallest ∧
    ¬ ∃ v, Denotes (trim "1e-8".toList) v ∧ Denotes (trim " .0000001 ".toList) v := by
  have hdocument : utf8 "\n\"\u3000 0.00000001\u00a0\" " =
      [10] ++ (utf8 (quoted ("\u3000 " ++ smallest.text ++ "\u00a0")) ++ [32]) := by decide +kernel
  have hpadding : Padding "\u3000 " "\u00a0" := ⟨rfl, rfl⟩
  have hone : ofText "1e-8" = .ok smallest := by decide +kernel
  have hten : ofText " .0000001 " = .ok ⟨10, by decide⟩ := by decide +kernel
  obtain ⟨-, -, -, hdecode, hsame⟩ := amount_canonical smallest
  constructor
  · rw [hdocument]
    exact (hdecode [10] [32] rfl rfl).2 _ _ hpadding rfl
  · rw [← (hsame ⟨10, by decide⟩).2 _ _ hone hten, (hsame ⟨10, by decide⟩).1]
    decide

end TokenLedger
