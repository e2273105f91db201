import TokenLedger.Proofs.Json.Number
import TokenLedger.Proofs.Json.Record

/-! Names, truth values, optional values, octets in hexadecimal digits and objects with keys of any kind are
read back as they were written. -/

namespace TokenLedger.Json

open Octet Text

variable {α : Type}

theorem reads_variant {ofName? : String → Option α} {name : α → String} (known : List String) {a : α}
    (h : ofName? (name a) = some a) : (Codec.variant ofName? known name).Reads a := by
  intro w s hw _
  change (Codec.variant ofName? known name).read (w ++ (writeText (name a) ++ s)) = _
  rw [writeText_append]
  dsimp only [Codec.variant]
  rw [Reader.bind_ok (peekValue_blanks hw rfl _)]
  have hskip : advance (Octet.quote :: ((name a).toList.flatMap escape ++ Octet.quote :: s)) =
      .ok ((), (name a).toList.flatMap escape ++ Octet.quote :: s) :=
    rfl
  refine (Reader.bind_ok hskip).trans ?_
  rw [Reader.bind_ok (textBody_append (name a) s), h]
  rfl

theorem reads_boolean (v : Bool) : Codec.boolean.Reads v := by
  have hword (ws s : Bytes) : word ws (ws ++ s) = .ok ((), s) := by
    induction ws with
    | nil => rfl
    | cons b ws ih =>
      change (if b = b then (do set (ws ++ s); word ws) else throw .expectedWord : Reader Unit) (b :: (ws ++ s)) = _
      rw [if_pos rfl, Reader.bind_ok (a := ()) (t := ws ++ s) rfl, ih]
  intro w s hw _
  dsimp only [Codec.boolean]
  cases v with
  | true =>
    rw [if_pos rfl, List.cons_append, Reader.bind_ok (peekValue_blanks hw rfl _)]
    exact Reader.bind_ok (hword [116, 114, 117, 101] s)
  | false =>
    rw [if_neg Bool.false_ne_true, List.cons_append, Reader.bind_ok (peekValue_blanks hw rfl _)]
    exact Reader.bind_ok (hword [102, 97, 108, 115, 101] s)

theorem number_zero_float {s : Bytes} (hs : Ends s) :
    number (48 :: point :: 48 :: s) = .ok (.float (.zero false), s) := by
  have hf : ∀ b ∈ [(48 : UInt8)], isDigit b = true := List.forall_mem_singleton.mpr rfl
  have hd : Numerals [48] := ⟨hf, List.cons_ne_nil 48 [], fun _ => rfl⟩
  have hl : literal (48 :: point :: 48 :: s) = .ok (⟨false, [48], some [48], none⟩, s) :=
    literal_fraction hd hf (List.cons_ne_nil 48 []) hs
  have hv : Literal.value ⟨false, [48], some [48], none⟩ = .ok (.float (.zero false)) := by rfl
  rw [number, Reader.bind_ok hl, hv]
  rfl

theorem reads_binary64_zero : Codec.binary64.Reads (.zero false) := by
  intro w s hw hs
  have hw' : Codec.binary64.write (.zero false) = [48, point, 48] := by rfl
  rw [hw']
  dsimp only [Codec.binary64]
  exact readNumber_blanks _ _ hw rfl _ (number_zero_float hs)

theorem reads_none (c : Codec α) : (Codec.optional c).Reads none := by
  intro w s hw _
  dsimp only [Codec.optional]
  rw [List.cons_append, Reader.bind_ok (peek_blanks hw rfl _)]
  rfl

/-- A value that begins with a quote or a brace, and so not like a word. -/
theorem reads_some {c : Codec α} {a : α} (h : c.Reads a) {b : UInt8} {t : Bytes} (hb : c.write a = b :: t)
    (hmark : b = Octet.quote ∨ b = objectOpen) : (Codec.optional c).Reads (some a) := by
  intro w s hw hs
  have hr := h [] s rfl hs
  rw [List.nil_append] at hr
  change (Codec.optional c).read (w ++ (c.write a ++ s)) = _
  rw [hb] at hr ⊢
  rw [List.cons_append] at hr ⊢
  have hgo : (do return some (← c.read) : Reader (Option α)) (b :: (t ++ s)) = .ok (some a, s) := by
    rw [Reader.bind_ok hr]
    rfl
  dsimp only [Codec.optional]
  rcases hmark with rfl | rfl
  · rw [Reader.bind_ok (peek_blanks hw rfl _)]
    exact hgo
  · rw [Reader.bind_ok (peek_blanks hw rfl _)]
    exact hgo

def hexChars (bs : Bytes) : List Char :=
  bs.flatMap fun b => [Nat.digitChar (b.toNat / 16), Nat.digitChar (b.toNat % 16)]

theorem digitChar_octets : ∀ n < 16, escape (Nat.digitChar n) = [Hex.digit n] ∧
    String.utf8EncodeChar (Nat.digitChar n) = [Hex.digit n] := by
  decide

theorem octets_hexChars (bs : Bytes) : (hexChars bs).flatMap escape = Hex.encode bs ∧
    (hexChars bs).flatMap String.utf8EncodeChar = Hex.encode bs := by
  induction bs with
  | nil => exact ⟨rfl, rfl⟩
  | cons b bs ih =>
    have hb := b.toNat_lt
    obtain ⟨h₁, h₂⟩ := digitChar_octets (b.toNat / 16) (by omega)
    obtain ⟨h₃, h₄⟩ := digitChar_octets (b.toNat % 16) (by omega)
    have hc : hexChars (b :: bs) =
        Nat.digitChar (b.toNat / 16) :: Nat.digitChar (b.toNat % 16) :: hexChars bs := rfl
    constructor
    · rw [hc, List.flatMap_cons, List.flatMap_cons, h₁, h₃, ih.1]
      rfl
    · rw [hc, List.flatMap_cons, List.flatMap_cons, h₂, h₄, ih.2]
      rfl

theorem reads_hex (bs : Bytes) : Codec.hex.Reads bs := by
  intro w s hw hs
  obtain ⟨h₁, h₂⟩ := octets_hexChars bs
  have hwrite : Codec.hex.write bs = writeText (String.ofList (hexChars bs)) := by
    rw [writeText, String.toList_ofList, h₁]
    rfl
  have hutf : utf8 (String.ofList (hexChars bs)) = Hex.encode bs := by
    rw [utf8, String.toList_ofList, h₂]
  have hr : readText (w ++ (writeText (String.ofList (hexChars bs)) ++ s)) =
      .ok (String.ofList (hexChars bs), s) := reads_text _ w s hw hs
  rw [hwrite]
  dsimp only [Codec.hex]
  rw [Reader.bind_ok hr, hutf, Hex.decode_encode]
  rfl

/-- Octets from which a value is read as a member of an object. -/
def Codec.TakesMember (c : Codec α) (a : α) (b : Bytes) : Prop :=
  ∀ w s : Bytes, w.all isBlank → Follows s → c.read (w ++ (b ++ s)) = .ok (a, s)

theorem Codec.Takes.member {c : Codec α} {a : α} {b : Bytes} (h : c.Takes a b) : c.TakesMember a b :=
  fun w s hw hs => h w s hw hs.ends

theorem readEntries_spread {pre mid post : Bytes} (hpre : pre.all isBlank) (hmid : mid.all isBlank)
    (hpost : post.all isBlank) {c : Codec α} {write : α → Bytes} (s : Bytes) {ms : List (String × α)}
    (hc : ∀ m ∈ ms, c.TakesMember m.2 (write m.2)) (fuel : Nat) (first : Bool) (hf : ms.length < fuel) :
    Codec.readEntries c fuel first
      (following first (spread pre mid (ms.map fun (k, a) => (k, write a))) ++ (post ++ objectClose :: s))
      = .ok (ms, s) := by
  induction ms generalizing fuel first with
  | nil =>
    cases fuel with
    | zero => omega
    | succ fuel =>
      have hk := nextKey_close hpost first s
      have he : following first (spread pre mid []) = [] := by cases first <;> rfl
      rw [List.map_nil, he, List.nil_append, Codec.readEntries, Reader.bind_ok hk]
      rfl
  | cons m ms ih =>
    obtain ⟨k, a⟩ := m
    cases fuel with
    | zero => omega
    | succ fuel =>
      have hk := nextKey_following hpre first k (colon :: (mid ++ write a))
        (spread pre mid (ms.map fun (k, a) => (k, write a))) (post ++ objectClose :: s)
      have hv := hc (k, a) (by simp) mid _ hmid
        (follows_following hpost (spread pre mid (ms.map fun (k, a) => (k, write a))) s)
      have hrest := ih (fun m hm => hc m (by simp [hm])) fuel false (by simpa using hf)
      rw [List.map_cons, spread_cons, Codec.readEntries, Reader.bind_ok hk]
      change (do
        colonMark
        let a ← c.read
        return (k, a) :: (← Codec.readEntries c fuel false) : Reader (List (String × α))) _ = _
      rw [List.cons_append, Reader.bind_ok (colonMark_colon _), List.append_assoc, Reader.bind_ok hv,
        Reader.bind_ok hrest]
      rfl

/-- Entries are read from an object, whatever blanks stand between them. -/
theorem takes_entries {c : Codec α} {write : α → Bytes} {ms : List (String × α)}
    (hc : ∀ m ∈ ms, c.TakesMember m.2 (write m.2)) (pre mid post : Bytes) (hpre : pre.all isBlank) (hmid : mid.all isBlank)
    (hpost : post.all isBlank) : (Codec.entries c).Takes ms
      (spreadObject pre mid post (ms.map fun (k, a) => (k, write a))) := by
  intro w s hw _
  have hm := readEntries_spread hpre hmid hpost s hc
  have hl : (ms.map fun (k, a) => (k, write a)).length = ms.length := List.length_map _
  generalize (ms.map fun (k, a) => (k, write a)) = vs at hm hl
  let body := Codec.separated (spread pre mid vs) ++ (post ++ objectClose :: s)
  have hlen : ms.length < body.length + 1 := by
    have h := length_le_separated pre mid vs
    simp only [body, List.length_append]
    omega
  have hbody : spreadObject pre mid post vs ++ s = objectOpen :: body := by
    simp [spreadObject, body]
  rw [hbody]
  dsimp only [Codec.entries]
  rw [Reader.bind_ok (peekValue_blanks hw rfl _)]
  change ((do
    advance
    Codec.readEntries c ((← get).length + 1) true) : Reader (List (String × α))) _ = _
  rw [Reader.bind_ok (a := ()) (t := body) rfl, Reader.bind_ok (a := body) (t := body) rfl]
  exact hm (body.length + 1) true hlen

end TokenLedger.Json
