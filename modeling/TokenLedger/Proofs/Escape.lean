import TokenLedger.Proofs.Key
import TokenLedger.Proofs.Json.Text

/-! Keys and their texts are in bijection: what is read as a key is what some key is written as, and no other key
is. Escapes can be undone on octets. Then a text is cut at the places where its escapes begin and end, and these
are always between two characters. -/

namespace TokenLedger

namespace Text

def octets (s : List Char) : Bytes := s.flatMap String.utf8EncodeChar

theorem octets_cons (c : Char) (s : List Char) : octets (c :: s) = String.utf8EncodeChar c ++ octets s :=
  List.flatMap_cons

@[simp] theorem octets_append (s t : List Char) : octets (s ++ t) = octets s ++ octets t := List.flatMap_append

def isBoundary (b : Bytes) (i : Nat) : Bool :=
  match b[i]? with
  | some o => i == 0 || !isTail o
  | none => i == b.length

def cut? (b : Bytes) (i j : Nat) : Option Bytes :=
  if i ≤ j ∧ isBoundary b i ∧ isBoundary b j then some ((b.take j).drop i) else none

theorem cut?_eq_some {b d : Bytes} {i j : Nat} : cut? b i j = some d ↔
    (i ≤ j ∧ isBoundary b i ∧ isBoundary b j) ∧ (b.take j).drop i = d := by
  rw [cut?]
  split <;> simp_all

theorem isTail_eq_false {o : UInt8} : isTail o = false ↔ o.toNat < 0x80 ∨ 0xC0 ≤ o.toNat := by
  simp only [isTail, Bool.and_eq_false_iff, decide_eq_false_iff_not, UInt8.le_iff_toNat_le, UInt8.lt_iff_toNat_lt,
    UInt8.reduceToNat]
  omega

theorem encodeChar_ascii {c : Char} (h : c.toNat < 0x80) :
    ∃ o, String.utf8EncodeChar c = [o] ∧ o.toNat = c.toNat := by
  have hv : c.val.toNat ≤ 0x7F := Nat.le_of_lt_succ h
  refine ⟨UInt8.ofNat c.toNat, ?_, UInt8.toNat_ofNat_of_lt' (show c.toNat < 256 by omega)⟩
  simp only [String.utf8EncodeChar, if_pos hv]
  rfl

/-- The octets of other characters are out of the range of these, and the first of them is no tail. -/
theorem encodeChar_cases {c : Char} (h : 0x80 ≤ c.toNat) :
    ∃ o t, String.utf8EncodeChar c = o :: t ∧ isTail o = false ∧ ∀ u ∈ o :: t, 0x80 ≤ u.toNat := by
  have hv : ¬ c.val.toNat ≤ 0x7F := Nat.not_le.mpr h
  simp only [String.utf8EncodeChar, if_neg hv]
  split_ifs
  all_goals
    refine ⟨_, _, rfl, ?_, ?_⟩
    · rw [isTail_eq_false, toNat_octet (by omega)]
      omega
    · simp only [List.forall_mem_cons, List.not_mem_nil, false_imp_iff, implies_true, and_true]
      repeat' apply And.intro
      all_goals
        rw [toNat_octet (by omega)]
        omega

/-- An octet below 128 at the beginning of a text is its first character. -/
theorem octets_eq_cons {s : List Char} {o : UInt8} {b : Bytes} (h : octets s = o :: b) (ho : o.toNat < 0x80) :
    ∃ t, s = Char.ofNat o.toNat :: t ∧ octets t = b := by
  cases s with
  | nil => cases h
  | cons c t =>
    rw [octets_cons] at h
    by_cases hc : c.toNat < 0x80
    · obtain ⟨u, hu, hn⟩ := encodeChar_ascii hc
      rw [hu, List.singleton_append, List.cons.injEq] at h
      exact ⟨t, by rw [← h.1, hn, Char.ofNat_toNat], h.2⟩
    · obtain ⟨u, r, hu, -, hall⟩ := encodeChar_cases (Nat.not_lt.mp hc)
      rw [hu, List.cons_append, List.cons.injEq] at h
      have hle := hall u (by simp)
      rw [h.1] at hle
      omega

theorem isTail_of_octets {s : List Char} {o : UInt8} {b : Bytes} (h : octets s = o :: b) : isTail o = false := by
  cases s with
  | nil => cases h
  | cons c t =>
    rw [octets_cons] at h
    by_cases hc : c.toNat < 0x80
    · obtain ⟨u, hu, hn⟩ := encodeChar_ascii hc
      rw [hu, List.singleton_append, List.cons.injEq] at h
      rw [isTail_eq_false, ← h.1, hn]
      exact .inl hc
    · obtain ⟨u, r, hu, htail, -⟩ := encodeChar_cases (Nat.not_lt.mp hc)
      rw [hu, List.cons_append, List.cons.injEq] at h
      exact h.1 ▸ htail

theorem isBoundary_append (s t : List Char) : isBoundary (octets s ++ octets t) (octets s).length = true := by
  rw [isBoundary, List.getElem?_append_right (Nat.le_refl _), Nat.sub_self]
  cases h : octets t with
  | nil => simp
  | cons o b => simp [isTail_of_octets h]

theorem cut?_append (s t u : List Char) : cut? (octets s ++ octets t ++ octets u) (octets s).length
    ((octets s).length + (octets t).length) = some (octets t) := by
  have h₁ := isBoundary_append s (t ++ u)
  have h₂ := isBoundary_append (s ++ t) u
  rw [octets_append, ← List.append_assoc] at h₁
  rw [octets_append, List.length_append] at h₂
  rw [cut?_eq_some]
  refine ⟨⟨Nat.le_add_right _ _, h₁, h₂⟩, ?_⟩
  rw [← List.length_append, List.take_left, List.drop_left]

end Text

namespace Text

/-- The text with another one in the place of each `c`. -/
def replaceAll (c : Char) (other s : List Char) : List Char := s.flatMap fun d => if d = c then other else [d]

end Text

namespace Key

theorem escape_eq_replaceAll (s : List Char) :
    escape s = Text.replaceAll '/' ['%', '2', 'F'] (Text.replaceAll '%' ['%', '2', '5'] s) := by
  rw [escape, Text.replaceAll, Text.replaceAll, List.flatMap_assoc]
  congr 1
  funext c
  unfold escapeChar
  split
  · rfl
  · rfl
  · rename_i hmark hslash
    rw [if_neg hmark, List.flatMap_singleton, if_neg hslash]

inductive Fault where
  | badEscape
  /-- A text is cut inside a character. -/
  | insideCharacter
  deriving DecidableEq, Repr

def escaped? (code : Bytes) : Option UInt8 :=
  if code = [0x32, 0x35] then some 0x25
  else if code = [0x32, 0x46] then some 0x2F
  else none

/-- Undoes escapes by cutting the octets of a text before the first mark, behind it and behind its code. -/
def unescapeOctets (b : Bytes) : Except Fault Bytes :=
  match _hi : b.findIdx? (· == 0x25) with
  | none => .ok b
  | some i =>
    match Text.cut? b 0 i with
    | none => .error .insideCharacter
    | some before =>
      match (Text.cut? b (i + 1) (i + 3)).bind escaped? with
      | none => .error .badEscape
      | some o =>
        match _hr : Text.cut? b (i + 3) b.length with
        | none => .error .insideCharacter
        | some rest => (unescapeOctets rest).map (before ++ o :: ·)
termination_by b.length
decreasing_by
  obtain ⟨hi, -⟩ := List.findIdx?_eq_some_iff_getElem.mp _hi
  obtain ⟨-, rfl⟩ := Text.cut?_eq_some.mp _hr
  simp only [List.length_drop, List.length_take]
  omega

theorem unescape?_append {p : List Char} (hp : '%' ∉ p) (s : List Char) :
    unescape? (p ++ s) = (unescape? s).map (p ++ ·) := by
  induction p with
  | nil => simp
  | cons c p ih =>
    rw [List.mem_cons, not_or] at hp
    rw [List.cons_append, unescape?_cons (Ne.symm hp.1), ih hp.2, Option.map_map]
    rfl

theorem mark_notMem_octets {s : List Char} (h : '%' ∉ s) : ∀ o ∈ Text.octets s, (o == 0x25) = false := by
  intro o ho
  obtain ⟨c, hc, ho⟩ := List.mem_flatMap.mp ho
  rw [beq_eq_false_iff_ne]
  rintro rfl
  by_cases hlt : c.toNat < 0x80
  · obtain ⟨u, hu, hn⟩ := Text.encodeChar_ascii hlt
    rw [hu, List.mem_singleton] at ho
    subst ho
    have hmark : c = '%' := by rw [← Char.ofNat_toNat c, ← hn]; rfl
    exact h (hmark ▸ hc)
  · obtain ⟨u, r, hu, -, hall⟩ := Text.encodeChar_cases (Nat.not_lt.mp hlt)
    rw [hu] at ho
    exact absurd (hall _ ho) (by decide)

theorem unescapeOctets_of_notMem {s : List Char} (h : '%' ∉ s) :
    unescapeOctets (Text.octets s) = .ok (Text.octets s) := by
  have hi := List.findIdx?_eq_none_iff.mpr (mark_notMem_octets h)
  rw [unescapeOctets]
  split
  · rfl
  · rename_i i hi'
    rw [hi] at hi'
    cases hi'

theorem length_octets_mark (p : List Char) : (Text.octets (p ++ ['%'])).length = (Text.octets p).length + 1 := by
  rw [Text.octets_append, List.length_append]
  rfl

section Mark

variable {p : List Char} (hp : '%' ∉ p) (r : List Char)

include hp

theorem findIdx?_mark : (Text.octets (p ++ '%' :: r)).findIdx? (· == 0x25) = some (Text.octets p).length := by
  have hnone := List.findIdx?_eq_none_iff.mpr (mark_notMem_octets hp)
  rw [Text.octets_append, List.findIdx?_append, hnone, Text.octets_cons]
  simp [show String.utf8EncodeChar '%' = [0x25] by decide, List.findIdx?_cons]

theorem unescapeOctets_mark {b : Bytes} (hb : b = Text.octets (p ++ '%' :: r)) {i : Nat}
    (hi : i = (Text.octets p).length) : unescapeOctets b =
      match (Text.cut? b (i + 1) (i + 3)).bind escaped? with
      | none => .error .badEscape
      | some o =>
        match Text.cut? b (i + 3) b.length with
        | none => .error .insideCharacter
        | some rest => (unescapeOctets rest).map (Text.octets p ++ o :: ·) := by
  have hmark := findIdx?_mark hp r
  have hbefore : Text.cut? b 0 i = some (Text.octets p) := by
    have h := Text.cut?_append [] p ('%' :: r)
    simpa [Text.octets, hb, hi] using h
  rw [← hb, ← hi] at hmark
  rw [unescapeOctets]
  split
  · rename_i h
    rw [h] at hmark
    cases hmark
  · rename_i j h
    obtain rfl : j = i := Option.some.inj (h.symm.trans hmark)
    simp only [hbefore]
    cases (Text.cut? b (j + 1) (j + 3)).bind escaped? with
    | none => rfl
    | some o =>
      dsimp only
      split <;> rename_i hrest <;> rw [hrest]

theorem unescapeOctets_escape {x : Char} {o : UInt8} (hx : escaped? (Text.octets ['2', x]) = some o)
    (hlength : (Text.octets ['2', x]).length = 2) : unescapeOctets (Text.octets (p ++ '%' :: '2' :: x :: r)) =
      (unescapeOctets (Text.octets r)).map (Text.octets p ++ o :: ·) := by
  have hcode := Text.cut?_append (p ++ ['%']) ['2', x] r
  have hrest := Text.cut?_append (p ++ ['%'] ++ ['2', x]) r []
  rw [← Text.octets_append, ← Text.octets_append, length_octets_mark, hlength] at hcode
  rw [← Text.octets_append, ← Text.octets_append, ← List.length_append, ← Text.octets_append,
    Text.octets_append _ ['2', x], List.length_append, length_octets_mark, hlength] at hrest
  simp only [List.append_assoc, List.cons_append, List.nil_append, List.append_nil] at hcode hrest
  rw [unescapeOctets_mark hp ('2' :: x :: r) rfl rfl, hcode, Option.bind_some, hx]
  simp only [hrest]

end Mark

theorem exists_escape {p r : List Char} {o : UInt8}
    (h : (Text.cut? (Text.octets (p ++ '%' :: r)) ((Text.octets p).length + 1) ((Text.octets p).length + 3)).bind
      escaped? = some o) : ∃ t, r = '2' :: '5' :: t ∨ r = '2' :: 'F' :: t := by
  obtain ⟨code, hcode, ho⟩ := Option.bind_eq_some_iff.mp h
  obtain ⟨-, rfl⟩ := Text.cut?_eq_some.mp hcode
  have htake : ((Text.octets (p ++ '%' :: r)).take ((Text.octets p).length + 3)).drop ((Text.octets p).length + 1) =
      (Text.octets r).take 2 := by
    rw [← List.singleton_append, ← List.append_assoc, Text.octets_append, List.drop_take, ← length_octets_mark,
      List.drop_left, length_octets_mark, show (Text.octets p).length + 3 - ((Text.octets p).length + 1) = 2 by omega]
  rw [htake] at ho
  have hspelled {y : UInt8} (hy : y.toNat < 0x80) (he : (Text.octets r).take 2 = [0x32, y]) :
      ∃ t, r = '2' :: Char.ofNat y.toNat :: t := by
    have hr := List.take_append_drop 2 (Text.octets r)
    rw [he, List.cons_append, List.singleton_append] at hr
    obtain ⟨u, rfl, hu⟩ := Text.octets_eq_cons hr.symm (by decide)
    obtain ⟨t, rfl, -⟩ := Text.octets_eq_cons hu hy
    exact ⟨t, rfl⟩
  unfold escaped? at ho
  split at ho
  · rename_i he
    obtain ⟨t, ht⟩ := hspelled (by decide) he
    exact ⟨t, .inl ht⟩
  · split at ho
    · rename_i he
      obtain ⟨t, ht⟩ := hspelled (by decide) he
      exact ⟨t, .inr ht⟩
    · cases ho

/-- Escapes are undone on octets as they are on characters, and no character is cut. -/
theorem unescapeOctets_octets (s : List Char) : unescapeOctets (Text.octets s) =
    match unescape? s with
    | some t => .ok (Text.octets t)
    | none => .error .badEscape := by
  induction hn : s.length using Nat.strong_induction_on generalizing s with
  | _ n ih =>
    subst hn
    by_cases hs : '%' ∈ s
    · obtain ⟨p, r, rfl, hp⟩ := List.eq_append_cons_of_mem hs
      rw [unescape?_append hp]
      have hlater {x c : Char} {o : UInt8} {t : List Char} (hr : r = '2' :: x :: t)
          (hx : escaped? (Text.octets ['2', x]) = some o) (hlength : (Text.octets ['2', x]).length = 2)
          (hc : String.utf8EncodeChar c = [o]) (hundo : unescape? ('%' :: r) = (unescape? t).map (c :: ·)) :
          unescapeOctets (Text.octets (p ++ '%' :: r)) = match (unescape? ('%' :: r)).map (p ++ ·) with
            | some t => .ok (Text.octets t)
            | none => .error .badEscape := by
        subst hr
        rw [unescapeOctets_escape hp t hx hlength, ih t.length (by simp; omega) t rfl, hundo]
        cases unescape? t with
        | none => rfl
        | some u => simp [Except.map, Text.octets_cons, hc]
      by_cases h : ∃ t, r = '2' :: '5' :: t ∨ r = '2' :: 'F' :: t
      · obtain ⟨t, ht | ht⟩ := h
        · exact hlater ht rfl rfl (c := '%') (by decide) (by rw [ht]; rfl)
        · exact hlater ht rfl rfl (c := '/') (by decide) (by rw [ht]; rfl)
      · have hnone : unescape? ('%' :: r) = none := by
          rw [unescape?]
          · exact fun t ht => h ⟨t, .inl ht⟩
          · exact fun t ht => h ⟨t, .inr ht⟩
        rw [unescapeOctets_mark hp r rfl rfl, hnone]
        cases hcode : (Text.cut? (Text.octets (p ++ '%' :: r)) ((Text.octets p).length + 1)
          ((Text.octets p).length + 3)).bind escaped? with
        | none => rfl
        | some o => exact absurd (exists_escape hcode) h
    · have hplain := unescape?_append hs []
      rw [List.append_nil] at hplain
      rw [unescapeOctets_of_notMem hs, hplain]
      simp [unescape?]

theorem mapM_unescapeOctets (parts : List (List Char)) : (parts.mapM fun p => unescapeOctets (Text.octets p)) =
    match parts.mapM unescape? with
    | some cs => .ok (cs.map Text.octets)
    | none => .error .badEscape := by
  induction parts with
  | nil => rfl
  | cons p parts ih =>
    rw [List.mapM_cons, List.mapM_cons, unescapeOctets_octets, ih]
    cases unescape? p with
    | none => rfl
    | some c => cases parts.mapM unescape? <;> rfl

/-- The key that a text spells, with the escapes undone on the octets of each stretch; nothing if a character is
cut or what comes out is no text. -/
def decodeOctets (s : String) : Option (Except Unreadable Key) :=
  match Text.pieces '/' s.toList with
  | [] => some (.error (.unknownNamespace s))
  | tag :: parts =>
    match Namespace.ofTag? (String.ofList tag) with
    | none => some (.error (.unknownNamespace s))
    | some ns =>
      match parts.mapM fun p => unescapeOctets (Text.octets p) with
      | .error .insideCharacter => none
      | .error .badEscape => some (.error (.badComponent s))
      | .ok cs => (cs.mapM Text.ofUtf8?).map fun cs => .ok ⟨ns, cs⟩

theorem decodeOctets_eq (s : String) : decodeOctets s = some (decode s) := by
  have htexts (cs : List (List Char)) : (cs.map Text.octets).mapM Text.ofUtf8? = some (cs.map String.ofList) := by
    induction cs with
    | nil => rfl
    | cons c cs ih =>
      have hc : Text.ofUtf8? (Text.octets c) = some (String.ofList c) := by
        rw [Text.ofUtf8?, Text.octets, Text.chars?_flatMap, Option.map_some]
      rw [List.map_cons, List.mapM_cons, hc, ih]
      rfl
  rw [decodeOctets, decode]
  cases Text.pieces '/' s.toList with
  | nil => rfl
  | cons tag parts =>
    dsimp only
    cases Namespace.ofTag? (String.ofList tag) with
    | none => rfl
    | some ns =>
      dsimp only
      rw [mapM_unescapeOctets]
      cases parts.mapM unescape? with
      | none => rfl
      | some cs =>
        dsimp only
        rw [htexts]
        rfl

end Key

namespace Account

theorem encode_key (a : Account) : a.key.encode = Namespace.balances.tag ++ "/" ++ a.text := by
  refine String.toList_inj.mp ?_
  simp [key, Key.encode, Key.encodeChars, text, chars]

theorem text_injective : Function.Injective text := by
  intro a b h
  refine key_injective (Key.encode_injective ?_)
  rw [encode_key, encode_key, h]

end Account

/-- Keys and their texts are in bijection. A key is read back from its text; what can be read at all is the text of
the key that is read, and of no other; accounts are told apart by their texts, each the text of its key but for the
namespace. Escapes are written by two replacements in turn, and undoing them in any text octet by octet comes to an
end with the same key or the same complaint, and never cuts a character. -/
theorem keys_spelled :
    (∀ k : Key, Key.decode k.encode = .ok k) ∧ (∀ s k, Key.decode s = .ok k ↔ k.encode = s) ∧
      (∀ s, (∃ k, Key.decode s = .ok k) ↔ s ∈ Set.range Key.encode) ∧ Function.Injective Key.encode ∧
      Function.Injective Account.text ∧
      (∀ a : Account, a.key.encode = Namespace.balances.tag ++ "/" ++ a.text) ∧
      (∀ s, Key.escape s = Text.replaceAll '/' ['%', '2', 'F'] (Text.replaceAll '%' ['%', '2', '5'] s)) ∧
      ∀ s, Key.decodeOctets s = some (Key.decode s) := by
  have hiff (s : String) (k : Key) : Key.decode s = .ok k ↔ k.encode = s :=
    ⟨Key.encode_of_decode, fun h => h ▸ Key.decode_encode k⟩
  exact ⟨Key.decode_encode, hiff, fun s => exists_congr (hiff s), fun _ _ => Key.encode_injective,
    Account.text_injective, Account.encode_key, Key.escape_eq_replaceAll, Key.decodeOctets_eq⟩

end TokenLedger
