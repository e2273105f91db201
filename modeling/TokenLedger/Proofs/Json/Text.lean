import TokenLedger.Json.Codec
import Mathlib.Tactic

/-! Texts are read back as they were written: the octets of a character as this character, its escape
inside a text as these octets, and a whole text as itself, whatever follows it. -/

namespace TokenLedger

namespace Text

theorem isTail_of_toNat {b : UInt8} {n : Nat} (hb : b.toNat = n + 0x80) (hn : n < 0x40) :
    isTail b = true ∧ tailBits b = n := by
  have h₁ : (0x80 : UInt8) ≤ b := by rw [UInt8.le_iff_toNat_le, hb]; simp
  have h₂ : b < 0xC0 := by rw [UInt8.lt_iff_toNat_lt, hb]; simp; omega
  exact ⟨by simp [isTail, h₁, h₂], by unfold tailBits; omega⟩

theorem scalar?_eq_some (c : Char) {least n : Nat} (hn : n = c.toNat) (h : least ≤ n) :
    scalar? least n = some c := by
  subst hn
  have hv : c.toNat.isValidChar := c.valid
  rw [scalar?, dif_pos ⟨h, hv⟩]
  rfl

theorem toNat_lt (c : Char) : c.toNat < 0x110000 := by
  have hv : c.toNat.isValidChar := c.valid
  simp only [Nat.isValidChar] at hv
  omega

theorem toNat_octet {n k : Nat} (h : n + k < 256) : (UInt8.ofNat (n + k)).toNat = n + k := by
  rw [UInt8.toNat_ofNat']
  omega

theorem toNat_ofNat_of_lt {n : Nat} (h : n < 256) : (Char.ofNat n).toNat = n := by
  have hv : n.isValidChar := .inl (by omega)
  rw [Char.ofNat, dif_pos hv]
  rfl

section Forms

variable {a b d e : UInt8} {m n o p : Nat} {c : Char} (s : Bytes)

theorem chars?_one (ha : a.toNat = c.toNat) (hc : c.toNat < 0x80) :
    chars? (a :: s) = (chars? s).map (c :: ·) := by
  have h : a < 0x80 := by rw [UInt8.lt_iff_toNat_lt, ha]; simpa using hc
  rw [chars?.eq_def]
  simp only [if_pos h, ha, Char.ofNat_toNat]

theorem chars?_two (ha : a.toNat = m + 0xC0) (hm : m < 0x20) (hb : b.toNat = n + 0x80) (hn : n < 0x40)
    (hc : m * 64 + n = c.toNat) (hl : 0x80 ≤ c.toNat) :
    chars? (a :: b :: s) = (chars? s).map (c :: ·) := by
  have h₁ : ¬ a < 0x80 := by rw [UInt8.lt_iff_toNat_lt, ha]; simp
  have h₂ : ¬ a < 0xC0 := by rw [UInt8.lt_iff_toNat_lt, ha]; simp
  have h₃ : a < 0xE0 := by rw [UInt8.lt_iff_toNat_lt, ha]; simp; omega
  obtain ⟨htb, hbb⟩ := isTail_of_toNat hb hn
  rw [chars?.eq_def]
  simp only [if_neg h₁, htb, decide_eq_false h₂, hbb, ha]
  rw [if_neg (by simp), if_pos h₃, scalar?_eq_some c (by omega) (by omega)]
  cases chars? s <;> rfl

theorem chars?_three (ha : a.toNat = m + 0xE0) (hm : m < 0x10) (hb : b.toNat = n + 0x80) (hn : n < 0x40)
    (hd : d.toNat = o + 0x80) (ho : o < 0x40) (hc : (m * 64 + n) * 64 + o = c.toNat)
    (hl : 0x800 ≤ c.toNat) : chars? (a :: b :: d :: s) = (chars? s).map (c :: ·) := by
  have h₁ : ¬ a < 0x80 := by rw [UInt8.lt_iff_toNat_lt, ha]; simp
  have h₂ : ¬ a < 0xC0 := by rw [UInt8.lt_iff_toNat_lt, ha]; simp
  have h₃ : ¬ a < 0xE0 := by rw [UInt8.lt_iff_toNat_lt, ha]; simp
  have h₄ : a < 0xF0 := by rw [UInt8.lt_iff_toNat_lt, ha]; simp; omega
  obtain ⟨htb, hbb⟩ := isTail_of_toNat hb hn
  obtain ⟨htd, hbd⟩ := isTail_of_toNat hd ho
  rw [chars?.eq_def]
  simp only [if_neg h₁, htb, htd, decide_eq_false h₂, hbb, hbd, ha]
  rw [if_neg (by simp), if_neg h₃, if_neg (by simp), if_pos h₄,
    scalar?_eq_some c (by omega) (by omega)]
  cases chars? s <;> rfl

theorem chars?_four (ha : a.toNat = m + 0xF0) (hm : m < 0x08) (hb : b.toNat = n + 0x80) (hn : n < 0x40)
    (hd : d.toNat = o + 0x80) (ho : o < 0x40) (he : e.toNat = p + 0x80) (hp : p < 0x40)
    (hc : ((m * 64 + n) * 64 + o) * 64 + p = c.toNat) (hl : 0x10000 ≤ c.toNat) :
    chars? (a :: b :: d :: e :: s) = (chars? s).map (c :: ·) := by
  have h₁ : ¬ a < 0x80 := by rw [UInt8.lt_iff_toNat_lt, ha]; simp
  have h₂ : ¬ a < 0xC0 := by rw [UInt8.lt_iff_toNat_lt, ha]; simp
  have h₃ : ¬ a < 0xE0 := by rw [UInt8.lt_iff_toNat_lt, ha]; simp
  have h₄ : ¬ a < 0xF0 := by rw [UInt8.lt_iff_toNat_lt, ha]; simp
  have h₅ : ¬ 0xF8 ≤ a := by rw [UInt8.le_iff_toNat_le, ha]; simp; omega
  obtain ⟨htb, hbb⟩ := isTail_of_toNat hb hn
  obtain ⟨htd, hbd⟩ := isTail_of_toNat hd ho
  obtain ⟨hte, hbe⟩ := isTail_of_toNat he hp
  rw [chars?.eq_def]
  simp only [if_neg h₁, htb, htd, hte, decide_eq_false h₂, decide_eq_false h₅, hbb, hbd, hbe, ha]
  rw [if_neg (by simp), if_neg h₃, if_neg (by simp), if_neg h₄, if_neg (by simp),
    scalar?_eq_some c (by omega) (by omega)]
  cases chars? s <;> rfl

end Forms

/-- The octets of a character are read back as this character, whatever follows them. -/
theorem chars?_encodeChar (c : Char) (s : Bytes) :
    chars? (String.utf8EncodeChar c ++ s) = (chars? s).map (c :: ·) := by
  have hlt := toNat_lt c
  have hv : c.val.toNat = c.toNat := rfl
  simp only [String.utf8EncodeChar, hv]
  generalize hk : c.toNat = k at hlt
  split_ifs with h₁ h₂ h₃ <;> simp only [List.cons_append, List.nil_append]
  · exact chars?_one s (by rw [hk]; exact toNat_octet (k := 0) (by omega)) (by omega)
  · exact chars?_two s (toNat_octet (by omega)) (by omega) (toNat_octet (by omega)) (by omega)
      (by omega) (by omega)
  · exact chars?_three s (toNat_octet (by omega)) (by omega) (toNat_octet (by omega)) (by omega)
      (toNat_octet (by omega)) (by omega) (by omega) (by omega)
  · exact chars?_four s (toNat_octet (by omega)) (by omega) (toNat_octet (by omega)) (by omega)
      (toNat_octet (by omega)) (by omega) (toNat_octet (by omega)) (by omega) (by omega) (by omega)

theorem chars?_flatMap (cs : List Char) : chars? (cs.flatMap String.utf8EncodeChar) = some cs := by
  induction cs with
  | nil => rfl
  | cons c cs ih => rw [List.flatMap_cons, chars?_encodeChar, ih]; rfl

@[simp] theorem ofUtf8?_utf8 (s : String) : ofUtf8? (utf8 s) = some s := by
  rw [ofUtf8?, utf8, chars?_flatMap, Option.map_some, String.ofList_toList]

end Text

namespace Json

open Octet

variable {α β : Type}

/-- A reader goes on behind what its first part has taken. -/
theorem Reader.bind_ok {r : Reader α} {f : α → Reader β} {s t : Bytes} {a : α}
    (h : r s = .ok (a, t)) : (r >>= f) s = f a t := by
  change Except.bind (r s) _ = _
  rw [h]
  rfl

@[simp] theorem prepend_prepend (a b : Bytes) (r : Except Error (Bytes × Bytes)) :
    prepend a (prepend b r) = prepend (a ++ b) r := by
  cases r <;> simp [prepend, Except.map]

/-- Octets that mean nothing inside a text stand for themselves. -/
theorem content_append (bs s : Bytes) (h : ∀ b ∈ bs, b ≠ quote ∧ b ≠ backslash ∧ ¬ b < 32) :
    content (bs ++ s) = prepend bs (content s) := by
  induction bs with
  | nil => cases h : content s <;> simp [prepend, Except.map, h]
  | cons b bs ih =>
    obtain ⟨hq, hb, hc⟩ := h b (by simp)
    have ih := ih fun x hx => h x (by simp [hx])
    have hstep : content (b :: (bs ++ s)) = prepend [b] (content (bs ++ s)) := by
      rw [content.eq_def]
      split <;> simp_all
    rw [List.cons_append, hstep, ih, prepend_prepend]
    rfl

theorem plain_of_encodeChar {c : Char} (hq : c ≠ '"') (hb : c ≠ '\\') (hc : ¬ c.toNat < 32) :
    ∀ b ∈ String.utf8EncodeChar c, b ≠ quote ∧ b ≠ backslash ∧ ¬ b < 32 := by
  have hv : c.val.toNat = c.toNat := rfl
  have hlt := Text.toNat_lt c
  have hne {k : Char} (h : c ≠ k) : c.toNat ≠ k.toNat := fun h' => h (Char.toNat_inj.mp h')
  have hq := hne hq
  have hb := hne hb
  simp only [String.utf8EncodeChar, hv]
  simp only [quote, backslash, ← UInt8.toNat_inj, UInt8.lt_iff_toNat_lt, ne_eq]
  generalize c.toNat = k at hq hb hc hlt
  have hq : k ≠ 34 := hq
  have hb : k ≠ 92 := hb
  split_ifs <;> simp only [List.mem_cons, List.not_mem_nil, or_false] <;> intro b hb'
  · subst hb'
    rw [UInt8.toNat_ofNat']
    simp
    omega
  all_goals
    rcases hb' with rfl | rfl | rfl | rfl <;> rw [UInt8.toNat_ofNat'] <;> simp <;> omega

theorem hexQuad_digits {n : Nat} (h : n < 256) :
    hexQuad 48 48 (Hex.digit (n / 16)) (Hex.digit (n % 16)) = .ok n := by
  have h₁ := Hex.value_digit (n := n / 16) (by omega) 0
  have h₂ := Hex.value_digit (n := n % 16) (by omega) 0
  have h₀ : Hex.value 48 0 = .ok 0 := rfl
  simp only [hexQuad, hexDigit, h₀, h₁, h₂, bind, Except.bind, pure, Except.pure]
  congr 1
  omega

/-- The escape of a character is read as the octets of this character. -/
theorem content_escape (c : Char) (s : Bytes) :
    content (escape c ++ s) = prepend (String.utf8EncodeChar c) (content s) := by
  unfold escape
  split
  iterate 7 exact (by rw [List.cons_append, content.eq_def]; rfl)
  · rename_i hq hb _ _ _ _ _
    split
    · rename_i hc
      have hn : content (backslash :: letterU :: 48 :: 48 :: Hex.digit (c.toNat / 16) ::
          Hex.digit (c.toNat % 16) :: s) = prepend (codePoint c.toNat) (content s) := by
        have hl : isLowSurrogate c.toNat = false := by simp [isLowSurrogate]; omega
        have hh : isHighSurrogate c.toNat = false := by simp [isHighSurrogate]; omega
        rw [content.eq_def]
        change Except.bind (hexQuad 48 48 (Hex.digit (c.toNat / 16)) (Hex.digit (c.toNat % 16))) _ = _
        rw [hexQuad_digits (by omega)]
        simp only [Except.bind, hl, hh, Bool.false_eq_true, if_false]
      rw [codePoint, Char.ofNat_toNat] at hn
      exact hn
    · rename_i hc
      exact content_append _ s (plain_of_encodeChar hq hb hc)

theorem content_flatMap (cs : List Char) (s : Bytes) :
    content (cs.flatMap escape ++ quote :: s) = .ok (cs.flatMap String.utf8EncodeChar, s) := by
  induction cs with
  | nil => rw [List.flatMap_nil, List.nil_append, content.eq_def]; rfl
  | cons c cs ih =>
    rw [List.flatMap_cons, List.append_assoc, content_escape, ih]
    rfl

/-- The body of a written text is read back, behind its opening quote. -/
theorem textBody_append (t : String) (s : Bytes) :
    textBody (t.toList.flatMap escape ++ quote :: s) = .ok (t, s) := by
  have hu : Text.ofUtf8? (t.toList.flatMap String.utf8EncodeChar) = some t := Text.ofUtf8?_utf8 t
  have hc := content_flatMap t.toList s
  have hread : (liftM (content (t.toList.flatMap escape ++ quote :: s)) : Reader _)
      (t.toList.flatMap escape ++ quote :: s) =
      .ok ((t.toList.flatMap String.utf8EncodeChar, s), t.toList.flatMap escape ++ quote :: s) := by
    rw [hc]
    rfl
  rw [textBody, Reader.bind_ok (a := t.toList.flatMap escape ++ quote :: s) rfl, Reader.bind_ok hread]
  dsimp only
  rw [Reader.bind_ok (a := ()) (t := s) rfl, hu]
  rfl

theorem writeText_append (t : String) (s : Bytes) :
    writeText t ++ s = quote :: (t.toList.flatMap escape ++ quote :: s) := by
  simp [writeText]

theorem peek_blanks {w : Bytes} (hw : w.all isBlank) {b : UInt8} (hb : isBlank b = false) (s : Bytes) :
    peek (w ++ b :: s) = .ok (some b, b :: s) := by
  have h : (w ++ b :: s).dropWhile isBlank = b :: s := by
    rw [List.dropWhile_append_of_pos (by simpa using hw), List.dropWhile_cons_of_neg (by simp [hb])]
  change Except.ok (((w ++ b :: s).dropWhile isBlank).head?, (w ++ b :: s).dropWhile isBlank) = _
  rw [h]
  rfl

theorem peek_cons {b : UInt8} (hb : isBlank b = false) (s : Bytes) :
    peek (b :: s) = .ok (some b, b :: s) :=
  peek_blanks (w := []) rfl hb s

theorem peekValue_blanks {w : Bytes} (hw : w.all isBlank) {b : UInt8} (hb : isBlank b = false)
    (s : Bytes) : peekValue (w ++ b :: s) = .ok (b, b :: s) := by
  rw [peekValue, Reader.bind_ok (peek_blanks hw hb s)]
  rfl

theorem peekValue_cons {b : UInt8} (hb : isBlank b = false) (s : Bytes) :
    peekValue (b :: s) = .ok (b, b :: s) :=
  peekValue_blanks (w := []) rfl hb s

def Ends (s : Bytes) : Prop :=
  ∀ b, s.head? = some b → isDigit b = false ∧ b ≠ point ∧ isExponentMark b = false

@[simp] theorem ends_nil : Ends [] := by simp [Ends]

theorem ends_cons {b : UInt8} (s : Bytes) (h : isDigit b = false ∧ b ≠ point ∧ isExponentMark b = false) :
    Ends (b :: s) := by
  intro b' hb
  rw [List.head?_cons, Option.some.injEq] at hb
  exact hb ▸ h

@[simp] theorem ends_comma (s : Bytes) : Ends (comma :: s) := ends_cons s (by decide)
@[simp] theorem ends_objectClose (s : Bytes) : Ends (objectClose :: s) := ends_cons s (by decide)
theorem ends_blank {b : UInt8} (hb : isBlank b = true) (s : Bytes) : Ends (b :: s) := by
  have hne : b = 32 ∨ b = 10 ∨ b = 9 ∨ b = 13 := by simpa [isBlank, or_assoc] using hb
  refine ends_cons _ ?_
  rcases hne with rfl | rfl | rfl | rfl <;> decide

/-- Octets from which a value is read, behind blanks and whatever follows them. -/
def Codec.Takes (c : Codec α) (a : α) (b : Bytes) : Prop :=
  ∀ w s : Bytes, w.all isBlank → Ends s → c.read (w ++ (b ++ s)) = .ok (a, s)

def Codec.Reads (c : Codec α) (a : α) : Prop := c.Takes a (c.write a)

theorem ends_blanks {s : Bytes} (hs : s.all isBlank) : Ends s := by
  cases s with
  | nil => exact ends_nil
  | cons b s => exact ends_blank (List.all_eq_true.mp hs b List.mem_cons_self) s

theorem Codec.Takes.decode_between {c : Codec α} {a : α} {b : Bytes} (h : c.Takes a b) {v w : Bytes}
    (hv : v.all isBlank) (hw : w.all isBlank) : c.decode (v ++ (b ++ w)) = .ok a := by
  change Except.bind (c.read (v ++ (b ++ w))) _ = _
  rw [h v w hv (ends_blanks hw)]
  change (if w.all isBlank then _ else _) = _
  rw [if_pos hw]
  rfl

theorem Codec.Takes.decode {c : Codec α} {a : α} {b : Bytes} (h : c.Takes a b) : c.decode b = .ok a := by
  simpa using h.decode_between (v := []) (w := []) rfl rfl

theorem Codec.Reads.decode {c : Codec α} {a : α} (h : c.Reads a) : c.decode (c.write a) = .ok a :=
  Codec.Takes.decode h

theorem reads_text (t : String) : Codec.text.Reads t := by
  intro w s hw _
  change readText (w ++ (writeText t ++ s)) = _
  rw [writeText_append, readText, Reader.bind_ok (peekValue_blanks hw rfl _)]
  exact textBody_append t s

theorem nextKey_first {w : Bytes} (hw : w.all isBlank) (k : String) (s : Bytes) :
    nextKey true (w ++ (writeText k ++ s)) = .ok (some k, s) := by
  rw [writeText_append, nextKey, Reader.bind_ok (peek_blanks hw rfl _)]
  change ((do advance; return some (← textBody)) : Reader _) _ = _
  rw [Reader.bind_ok (a := ()) (t := k.toList.flatMap escape ++ quote :: s) rfl,
    Reader.bind_ok (textBody_append k s)]
  rfl

theorem nextKey_next {v w : Bytes} (hv : v.all isBlank) (hw : w.all isBlank) (k : String) (s : Bytes) :
    nextKey false (v ++ comma :: (w ++ (writeText k ++ s))) = .ok (some k, s) := by
  rw [writeText_append, nextKey, Reader.bind_ok (peek_blanks hv rfl _)]
  have hskip : advance (comma :: (w ++ quote :: (k.toList.flatMap escape ++ quote :: s))) =
      .ok ((), w ++ quote :: (k.toList.flatMap escape ++ quote :: s)) :=
    rfl
  refine (Reader.bind_ok hskip).trans ?_
  rw [Reader.bind_ok (peekValue_blanks hw rfl _)]
  change ((do advance; return some (← textBody)) : Reader _) _ = _
  rw [Reader.bind_ok (a := ()) (t := k.toList.flatMap escape ++ quote :: s) rfl,
    Reader.bind_ok (textBody_append k s)]
  rfl

theorem nextKey_close {w : Bytes} (hw : w.all isBlank) (first : Bool) (s : Bytes) :
    nextKey first (w ++ objectClose :: s) = .ok (none, objectClose :: s) := by
  rw [nextKey, Reader.bind_ok (peek_blanks hw rfl _)]
  rfl

theorem colonMark_colon (s : Bytes) : colonMark (colon :: s) = .ok ((), s) := by
  rw [colonMark, Reader.bind_ok (peek_cons rfl s)]
  rfl

end Json
end TokenLedger
