import TokenLedger.Proofs.Json.Codec

/-! Values as they are written. A scan tells from the texts and the brackets that are open where a value
ends, so every value that was written is taken whole, of whatever kind it is. -/

namespace TokenLedger.Json

open Octet

namespace Extent

inductive Place where
  | value
  | text
  | escape
  deriving DecidableEq

/-- The place behind an octet, and the number of brackets that are open behind it; none if the value ends
before this octet. -/
def next : Place × Nat → UInt8 → Option (Place × Nat)
  | (.escape, d), _ => some (.text, d)
  | (.text, d), b => some (if b = quote then .value else if b = backslash then .escape else .text, d)
  | (.value, d), b =>
    if b = quote then some (.text, d)
    else if b = listOpen ∨ b = objectOpen then some (.value, d + 1)
    else match d with
      | 0 => if b = comma ∨ b = listClose ∨ b = objectClose ∨ isBlank b then none else some (.value, 0)
      | d + 1 => some (.value, if b = listClose ∨ b = objectClose then d else d + 1)

def cut : Place × Nat → Bytes → Bytes × Bytes
  | _, [] => ([], [])
  | p, b :: s =>
    match next p b with
    | none => ([], b :: s)
    | some q => (b :: (cut q s).1, (cut q s).2)

theorem cut_append {p q : Place × Nat} {v : Bytes} (h : v.foldlM next p = some q) (s : Bytes) :
    cut p (v ++ s) = (v ++ (cut q s).1, (cut q s).2) := by
  induction v generalizing p with
  | nil =>
    cases h
    rfl
  | cons b v ih =>
    rw [List.foldlM_cons, Option.bind_eq_bind, Option.bind_eq_some_iff] at h
    obtain ⟨p', hp, hv⟩ := h
    have hrest := ih hv
    rw [List.cons_append, cut, hp]
    dsimp only
    rw [hrest, List.cons_append]

/-- No value goes on behind a blank, a comma or a closing brace. -/
theorem next_eq_none {b : UInt8} (hb : isBlank b = true ∨ b = comma ∨ b = objectClose) :
    next (.value, 0) b = none := by
  have hblank : isBlank b = true → b = 32 ∨ b = 10 ∨ b = 9 ∨ b = 13 := by simp [isBlank, or_assoc]
  rcases hb with hb | rfl | rfl
  · rcases hblank hb with rfl | rfl | rfl | rfl <;> rfl
  · rfl
  · rfl

theorem cut_follows {s : Bytes} (h : Follows s) : cut (.value, 0) s = ([], s) := by
  obtain ⟨b, t, rfl, hb⟩ := h
  rw [cut, next_eq_none hb]

end Extent

def Codec.verbatim : Codec Bytes where
  read := do
    let _ ← peek
    let (v, s) := Extent.cut (.value, 0) (← get)
    set s
    return v
  write v := v

/-- Octets in which all texts and brackets that are opened are closed, whatever they stand in. -/
def Whole (v : Bytes) : Prop := ∀ d, v.foldlM Extent.next (.value, d) = some (.value, d)

/-- The same, where the octets stand between brackets and commas may separate them. -/
def WholeInside (v : Bytes) : Prop := ∀ d, v.foldlM Extent.next (.value, d + 1) = some (.value, d + 1)

theorem Whole.inside {v : Bytes} (h : Whole v) : WholeInside v := fun d => h (d + 1)

theorem wholeInside_nil : WholeInside [] := fun _ => rfl

theorem WholeInside.append {v w : Bytes} (hv : WholeInside v) (hw : WholeInside w) : WholeInside (v ++ w) := by
  intro d
  rw [List.foldlM_append, hv d]
  exact hw d

theorem wholeInside_mark {b : UInt8} (hb : b = comma ∨ b = colon) : WholeInside [b] := by
  intro d
  rcases hb with rfl | rfl <;> rfl

theorem whole_of_forall {v : Bytes} (h : ∀ b ∈ v, ∀ d, Extent.next (.value, d) b = some (.value, d)) :
    Whole v := by
  induction v with
  | nil => exact fun _ => rfl
  | cons b v ih =>
    intro d
    rw [List.foldlM_cons, h b (by simp) d]
    exact ih (fun x hx => h x (by simp [hx])) d

/-- A whole value is taken from among the members of an object. -/
theorem Whole.takesMember {v : Bytes} (h : Whole v) (hne : v ≠ []) : Codec.verbatim.TakesMember v v := by
  intro w s hw hs
  obtain ⟨b, u, rfl⟩ := List.exists_cons_of_ne_nil hne
  have hb : isBlank b = false := by
    have h0 := h 0
    rw [Bool.eq_false_iff]
    intro hb
    rw [List.foldlM_cons, Extent.next_eq_none (.inl hb)] at h0
    cases h0
  have hcut : Extent.cut (.value, 0) (b :: (u ++ s)) = (b :: u, s) := by
    rw [← List.cons_append, Extent.cut_append (h 0), Extent.cut_follows hs, List.append_nil]
  change (do
    let _ ← peek
    let (v, s) := Extent.cut (.value, 0) (← get)
    set s
    return v : Reader Bytes) _ = _
  rw [List.cons_append, Reader.bind_ok (peek_blanks hw hb _),
    Reader.bind_ok (a := b :: (u ++ s)) (t := b :: (u ++ s)) rfl, hcut]
  rfl

theorem foldlM_text {v : Bytes} (h : ∀ b ∈ v, b ≠ quote ∧ b ≠ backslash) (d : Nat) :
    v.foldlM Extent.next (.text, d) = some (.text, d) := by
  induction v with
  | nil => rfl
  | cons b v ih =>
    obtain ⟨hq, hb⟩ := h b (by simp)
    have hn : Extent.next (.text, d) b = some (.text, d) := by rw [Extent.next, if_neg hq, if_neg hb]
    rw [List.foldlM_cons, hn]
    exact ih fun x hx => h x (by simp [hx])

theorem foldlM_escape (c : Char) (d : Nat) : (escape c).foldlM Extent.next (.text, d) = some (.text, d) := by
  unfold escape
  split
  iterate 7 rfl
  · rename_i hq hb _ _ _ _ _
    split
    · rename_i hc
      have hdigit : ∀ n < 16, Hex.digit n ≠ quote ∧ Hex.digit n ≠ backslash := by decide
      have hhex : ∀ b ∈ [48, 48, Hex.digit (c.toNat / 16), Hex.digit (c.toNat % 16)],
          b ≠ quote ∧ b ≠ backslash := by
        have h₁ := hdigit (c.toNat / 16) (by omega)
        have h₂ := hdigit (c.toNat % 16) (by omega)
        have h₀ : (48 : UInt8) ≠ quote ∧ (48 : UInt8) ≠ backslash := by decide
        simp only [List.forall_mem_cons, List.not_mem_nil, false_implies, implies_true, and_true]
        exact ⟨h₀, h₀, h₁, h₂⟩
      exact foldlM_text hhex d
    · rename_i hc
      have hplain := plain_of_encodeChar hq hb hc
      exact foldlM_text (fun b hm => ⟨(hplain b hm).1, (hplain b hm).2.1⟩) d

theorem whole_text (t : String) : Whole (writeText t) := by
  intro d
  have hchars : (t.toList.flatMap escape).foldlM Extent.next (.text, d) = some (.text, d) := by
    induction t.toList with
    | nil => rfl
    | cons c cs ih =>
      rw [List.flatMap_cons, List.foldlM_append, foldlM_escape]
      exact ih
  rw [writeText, List.cons_append, List.foldlM_cons]
  change (t.toList.flatMap escape ++ [quote]).foldlM Extent.next (.text, d) = _
  rw [List.foldlM_append, hchars]
  rfl

def IsNumeric (c : Char) : Prop := c.isDigit ∨ c ∈ ['-', '+', '.', 'e']

theorem next_numeric {c : Char} (hc : IsNumeric c) (d : Nat) :
    Extent.next (.value, d) (Text.octet c) = some (.value, d) := by
  rcases hc with hc | hc
  · have hdigit := digit_cases (isDigit_octet hc)
    generalize Text.octet c = b at hdigit
    simp only [List.mem_cons, List.not_mem_nil, or_false] at hdigit
    rcases hdigit with rfl | rfl | rfl | rfl | rfl | rfl | rfl | rfl | rfl | rfl <;> cases d <;> rfl
  · simp only [List.mem_cons, List.not_mem_nil, or_false] at hc
    rcases hc with rfl | rfl | rfl | rfl <;> cases d <;> rfl

theorem utf8_numeric {cs : List Char} (h : ∀ c ∈ cs, IsNumeric c) :
    Text.utf8 (String.ofList cs) = cs.map Text.octet := by
  refine Text.utf8_ascii fun c hc => ?_
  rcases h c hc with hd | hm
  · have hd := Text.toNat_of_isDigit hd
    omega
  · simp only [List.mem_cons, List.not_mem_nil, or_false] at hm
    rcases hm with rfl | rfl | rfl | rfl <;> decide

theorem whole_numeric {cs : List Char} (h : ∀ c ∈ cs, IsNumeric c) : Whole (Text.utf8 (String.ofList cs)) := by
  rw [utf8_numeric h]
  refine whole_of_forall fun b hb => ?_
  obtain ⟨c, hc, rfl⟩ := List.mem_map.mp hb
  exact next_numeric (h c hc)

theorem numeric_toDigits (n : Nat) : ∀ c ∈ Nat.toDigits 10 n, IsNumeric c := fun _ hc =>
  .inl (Nat.isDigit_of_mem_toDigits (by omega) (by omega) hc)

theorem whole_amount (a : Amount) : Whole (Codec.amount.write a) :=
  whole_numeric fun _ hc => (Amount.mem_chars hc).imp_right (by rintro rfl; decide)

theorem whole_int64 (n : Int64) : Whole (Codec.int64.write n) := by
  change Whole (Text.utf8 (toString n.toInt))
  cases n.toInt with
  | ofNat k =>
    have h : toString (Int.ofNat k) = String.ofList (Nat.toDigits 10 k) := Nat.toString_eq_ofList_toDigits
    exact h ▸ whole_numeric (numeric_toDigits k)
  | negSucc k =>
    have h : toString (Int.negSucc k) = String.ofList ('-' :: Nat.toDigits 10 (k + 1)) := by
      change "-" ++ toString (k + 1) = _
      rw [Nat.toString_eq_ofList_toDigits]
      exact String.toList_inj.mp (by simp)
    exact h ▸ whole_numeric (List.forall_mem_cons.mpr ⟨.inr (by decide), numeric_toDigits (k + 1)⟩)

theorem numeric_zeros (n : Nat) : ∀ c ∈ Decimal.zeros n, IsNumeric c := by
  intro c hc
  obtain ⟨-, rfl⟩ := List.mem_replicate.mp hc
  exact .inl rfl

theorem numeric_shortest (tie : Decimal.Tie) (x : Binary64) : ∀ c ∈ (Decimal.shortest tie x).1, IsNumeric c := by
  intro c hc
  have hm := (List.dropWhile_sublist _).subset (List.mem_reverse.mp hc)
  exact numeric_toDigits _ c (List.mem_reverse.mp hm)

theorem numeric_zero_point : ∀ c ∈ ['0', '.'], IsNumeric c := by
  simp [IsNumeric]

theorem numeric_fixed (style : Decimal.Style) {ds : List Char} (hds : ∀ c ∈ ds, IsNumeric c) (place : Int) :
    ∀ c ∈ style.fixed ds place, IsNumeric c := by
  have hpoint : IsNumeric '.' := numeric_zero_point '.' (by simp)
  unfold Decimal.Style.fixed
  split
  · exact List.forall_mem_append.mpr ⟨List.forall_mem_append.mpr ⟨numeric_zero_point, numeric_zeros _⟩, hds⟩
  · dsimp only
    split
    · refine List.forall_mem_append.mpr ⟨List.forall_mem_append.mpr ⟨hds, numeric_zeros _⟩, ?_⟩
      intro c hc
      split at hc
      · exact numeric_zero_point c (by simpa [or_comm] using hc)
      · cases hc
    · exact List.forall_mem_append.mpr ⟨fun c hc => hds c (List.mem_of_mem_take hc),
        List.forall_mem_cons.mpr ⟨hpoint, fun c hc => hds c (List.mem_of_mem_drop hc)⟩⟩

theorem numeric_scientific {ds : List Char} (hds : ∀ c ∈ ds, IsNumeric c) (place : Int) :
    ∀ c ∈ Decimal.scientific ds place, IsNumeric c := by
  have hmark {c : Char} (hc : c ∈ ['-', '+', '.', 'e']) : IsNumeric c := .inr hc
  unfold Decimal.scientific
  have htake : ∀ c ∈ ds.take 1, IsNumeric c := fun c hc => hds c (List.mem_of_mem_take hc)
  refine List.forall_mem_append.mpr ⟨List.forall_mem_append.mpr ⟨htake, ?_⟩, ?_⟩
  · split
    · exact fun _ hc => by cases hc
    · exact List.forall_mem_cons.mpr ⟨hmark (by simp), fun c hc => hds c (List.mem_of_mem_drop hc)⟩
  · have hexponent := numeric_toDigits (place - 1).natAbs
    refine List.forall_mem_cons.mpr ⟨hmark (by simp), List.forall_mem_cons.mpr ⟨hmark ?_, hexponent⟩⟩
    split <;> simp

theorem numeric_chars (x : Binary64) : ∀ c ∈ Decimal.Style.document.chars x, IsNumeric c := by
  refine List.forall_mem_append.mpr ⟨?_, ?_⟩
  · split
    · exact List.forall_mem_singleton.mpr (.inr (by simp))
    · exact fun _ hc => by cases hc
  · have hds := numeric_shortest .toEven x
    split
    · exact List.forall_mem_cons.mpr ⟨.inl rfl, fun c hc =>
        numeric_zero_point c (by simpa [Decimal.Style.document, or_comm] using hc)⟩
    · dsimp only
      split
      · exact numeric_fixed _ hds _
      · exact numeric_scientific hds _

theorem write_binary64 (x : Binary64) : Codec.binary64.write x = (Decimal.Style.document.chars x).map Text.octet :=
  utf8_numeric (numeric_chars x)

theorem whole_binary64 (x : Binary64) : Whole (Codec.binary64.write x) := whole_numeric (numeric_chars x)

theorem whole_boolean (b : Bool) : Whole (Codec.boolean.write b) := by
  intro d
  cases b <;> cases d <;> rfl

theorem wholeInside_members {ms : List (String × Bytes)} (h : ∀ m ∈ ms, Whole m.2) :
    WholeInside (Codec.separated (spread [] [] ms)) := by
  have hmember {k : String} {v : Bytes} (hv : Whole v) : WholeInside (writeText k ++ colon :: v) :=
    (whole_text k).inside.append ((wholeInside_mark (.inr rfl)).append hv.inside)
  have hrest : ∀ ms : List (String × Bytes), (∀ m ∈ ms, Whole m.2) →
      WholeInside ((spread [] [] ms).flatMap (comma :: ·)) := by
    intro ms
    induction ms with
    | nil => exact fun _ => wholeInside_nil
    | cons m ms ih =>
      intro h
      have hm : Whole m.2 := h m (by simp)
      exact ((wholeInside_mark (.inl rfl)).append (hmember hm)).append (ih fun m hm => h m (by simp [hm]))
  cases ms with
  | nil => exact wholeInside_nil
  | cons m ms =>
    have hm : Whole m.2 := h m (by simp)
    rw [spread_cons, separated_cons]
    exact (hmember hm).append (hrest ms fun m hm => h m (by simp [hm]))

theorem whole_object {ms : List (String × Bytes)} (h : ∀ m ∈ ms, Whole m.2) :
    Whole (spreadObject [] [] [] ms) := by
  intro d
  have hopen : Extent.next (.value, d) objectOpen = some (.value, d + 1) := rfl
  rw [spreadObject, List.foldlM_cons, hopen]
  change (Codec.separated (spread [] [] ms) ++ [objectClose]).foldlM Extent.next (.value, d + 1) = _
  rw [List.foldlM_append, wholeInside_members h d]
  rfl

theorem Layout.whole {α : Type} (l : Layout α) {a : α} (h : ∀ m ∈ rowMembers l.fields (l.toRow a), Whole m.2) :
    Whole (l.codec.write a) := by
  rw [l.write_eq_spreadObject]
  exact whole_object h

/-- Entries with whole values are read as they were written. -/
theorem reads_entries_verbatim {ms : List (String × Bytes)} (h : ∀ m ∈ ms, Whole m.2 ∧ m.2 ≠ []) :
    (Codec.entries Codec.verbatim).Reads ms := by
  have hmembers : ∀ m ∈ ms, Codec.verbatim.TakesMember m.2 (id m.2) := fun m hm =>
    (h m hm).1.takesMember (h m hm).2
  have hwrite : (Codec.entries Codec.verbatim).write ms = spreadObject [] [] [] (ms.map fun m => (m.1, m.2)) := by
    change objectOpen :: Codec.separated (ms.map fun m => Codec.member m.1 m.2) ++ [objectClose] = _
    rw [spreadObject, spread, List.map_map]
    rfl
  rw [Codec.Reads, hwrite]
  exact takes_entries hmembers [] [] [] rfl rfl rfl

end TokenLedger.Json
