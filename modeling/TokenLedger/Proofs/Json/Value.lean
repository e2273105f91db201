import TokenLedger.Json.Value
import TokenLedger.Proofs.Json.Codec

/-! What a document of plain members holds: under each key the value that was written last for it. -/

namespace TokenLedger.Json.Value

open Octet

/-- Octets that are read as a value which is neither a list nor an object. -/
def Taken (v : Value) (b : Bytes) : Prop :=
  ∀ (fuel depth : Nat) (w s : Bytes), w.all isBlank → Ends s →
    read (fuel + 1) depth (w ++ (b ++ s)) = .ok (v, s)

theorem taken_text (t : String) : Taken (.text t) (writeText t) := by
  intro fuel depth w s hw _
  rw [writeText_append, read, Reader.bind_ok (peekValue_blanks hw rfl _)]
  change (do advance; return .text (← textBody) : Reader Value) _ = _
  rw [Reader.bind_ok (a := ()) (t := t.toList.flatMap escape ++ Octet.quote :: s) rfl,
    Reader.bind_ok (textBody_append t s)]
  rfl

def ofNumber : Number → Value
  | .integer n => .integer n
  | .float x => .float x

theorem read_number (fuel depth : Nat) {w : Bytes} (hw : w.all isBlank) {d : UInt8}
    (hd : startsNumber d = true) {t s : Bytes} {x : Number} (h : number (d :: t) = .ok (x, s)) :
    read (fuel + 1) depth (w ++ d :: t) = .ok (ofNumber x, s) := by
  have hgo : (do
      match ← number with
      | .integer n => return .integer n
      | .float x => return .float x : Reader Value) (d :: t) = .ok (ofNumber x, s) := by
    rw [Reader.bind_ok h]
    cases x <;> rfl
  rw [read, Reader.bind_ok (peekValue_blanks hw (isBlank_of_startsNumber hd) t)]
  rcases Bool.or_eq_true_iff.mp hd with hminus | hdigit
  · rw [beq_iff_eq] at hminus
    subst hminus
    exact hgo
  · have hdig := digit_cases hdigit
    simp only [List.mem_cons, List.not_mem_nil, or_false] at hdig
    rcases hdig with rfl | rfl | rfl | rfl | rfl | rfl | rfl | rfl | rfl | rfl <;> exact hgo

/-- Octets that begin like a number and are read as one, whatever follows them. -/
theorem taken_number {b : Bytes} {d : UInt8} {r : Bytes} (hb : b = d :: r) (hd : startsNumber d = true)
    {x : Number} (h : ∀ s, Ends s → number (b ++ s) = .ok (x, s)) : Taken (ofNumber x) b := by
  intro fuel depth w s hw hs
  have hn := h s hs
  rw [hb] at hn ⊢
  exact read_number fuel depth hw hd hn

theorem taken_amount (a : Amount) : ∃ v, Taken v (Codec.amount.write a) := by
  obtain ⟨x, hx⟩ := number_amount a
  obtain ⟨d, ds, hds, hd⟩ := starts_amount a
  exact ⟨ofNumber x, taken_number hds (startsNumber_of_isDigit hd) hx⟩

theorem taken_int64 (n : Int64) : Taken (.integer n.toInt) (Codec.int64.write n) := by
  obtain ⟨d, ds, hds, hd⟩ := starts_int64 n
  exact taken_number hds hd fun s hs => number_int64 n hs

def MembersTaken (ms : List (String × Bytes)) (vs : List (String × Value)) : Prop :=
  List.Forall₂ (fun m v => m.1 = v.1 ∧ v.1 ≠ embedded ∧ Taken v.2 m.2) ms vs

theorem membersTaken_nil : MembersTaken [] [] := .nil

theorem membersTaken_cons {k : String} (hk : k ≠ embedded) {b : Bytes} {v : Value} (hv : Taken v b)
    {ms : List (String × Bytes)} {vs : List (String × Value)} (h : MembersTaken ms vs) :
    MembersTaken ((k, b) :: ms) ((k, v) :: vs) :=
  .cons ⟨rfl, hk, hv⟩ h

theorem readMembers_spread {pre mid post : Bytes} (hpre : pre.all isBlank) (hmid : mid.all isBlank)
    (hpost : post.all isBlank) (depth : Nat) (s : Bytes) {ms : List (String × Bytes)}
    {vs : List (String × Value)} (h : MembersTaken ms vs) (fuel : Nat) (acc : List (String × Value))
    (hf : ms.length + 1 < fuel) :
    readMembers fuel depth acc (following false (spread pre mid ms) ++ (post ++ objectClose :: s))
      = .ok (vs.foldl (fun acc v => insert v.1 v.2 acc) acc, s) := by
  induction h generalizing fuel acc with
  | nil =>
    obtain ⟨fuel, rfl⟩ : ∃ n, fuel = n + 1 := ⟨fuel - 1, by omega⟩
    have hk := nextKey_close hpost false s
    rw [show following false (spread pre mid []) = [] from rfl, List.nil_append, readMembers,
      Reader.bind_ok hk]
    rfl
  | @cons m v ms vs hm h ih =>
    obtain ⟨k, b⟩ := m
    obtain ⟨hkey, -, hv⟩ := hm
    simp only [List.length_cons] at hf
    obtain ⟨fuel, rfl⟩ : ∃ n, fuel = n + 2 := ⟨fuel - 2, by omega⟩
    have hk := nextKey_following hpre false k (colon :: (mid ++ b)) (spread pre mid ms)
      (post ++ objectClose :: s)
    have hval := hv fuel depth mid _ hmid (ends_following hpost (spread pre mid ms) s)
    have hrest := ih (fuel + 1) (insert v.1 v.2 acc) (by omega)
    rw [spread_cons, readMembers, Reader.bind_ok hk]
    change (do
      colonMark
      let v ← read (fuel + 1) depth
      readMembers (fuel + 1) depth (insert k v acc) : Reader (List (String × Value))) _ = _
    rw [List.cons_append, Reader.bind_ok (colonMark_colon _), List.append_assoc, Reader.bind_ok hval,
      show k = v.1 from hkey, hrest]
    rfl

theorem readObject_spread {pre mid post : Bytes} (hpre : pre.all isBlank) (hmid : mid.all isBlank)
    (hpost : post.all isBlank) (depth : Nat) (s : Bytes) {ms : List (String × Bytes)}
    {vs : List (String × Value)} (h : MembersTaken ms vs) (fuel : Nat) (hf : ms.length + 1 < fuel) :
    readObject fuel depth (following true (spread pre mid ms) ++ (post ++ objectClose :: s))
      = .ok (.object (vs.foldl (fun acc v => insert v.1 v.2 acc) []), s) := by
  obtain ⟨fuel, rfl⟩ : ∃ n, fuel = n + 2 := ⟨fuel - 2, by omega⟩
  cases h with
  | nil =>
    have hk := nextKey_close hpost true s
    rw [show following true (spread pre mid []) = [] from rfl, List.nil_append, readObject,
      Reader.bind_ok hk]
    rfl
  | @cons m v ms vs hm h =>
    obtain ⟨k, b⟩ := m
    obtain ⟨hkey, hne, hv⟩ := hm
    have hkey : k = v.1 := hkey
    have hk := nextKey_following hpre true k (colon :: (mid ++ b)) (spread pre mid ms)
      (post ++ objectClose :: s)
    have hval := hv fuel depth mid _ hmid (ends_following hpost (spread pre mid ms) s)
    have hrest := readMembers_spread hpre hmid hpost depth s h (fuel + 1) (insert v.1 v.2 [])
      (by simpa using hf)
    rw [spread_cons, readObject, Reader.bind_ok hk]
    change (do
      colonMark
      if k = embedded then
        let v ← (read (fuel + 1) maxDepth).document (Text.utf8 (← readText))
        objectEnd
        return v
      else
        let v ← read (fuel + 1) depth
        return .object (← readMembers (fuel + 1) depth (insert k v [])) : Reader Value) _ = _
    rw [hkey, if_neg hne, List.cons_append, Reader.bind_ok (colonMark_colon _), List.append_assoc,
      Reader.bind_ok hval, Reader.bind_ok hrest]
    rfl

theorem ofBytes_spreadObject (pre mid post : Bytes) (hpre : pre.all isBlank) (hmid : mid.all isBlank)
    (hpost : post.all isBlank) (depth : Nat) (hdepth : 1 < depth) {ms : List (String × Bytes)}
    {vs : List (String × Value)} (h : MembersTaken ms vs) :
    ofBytes depth (spreadObject pre mid post ms)
      = .ok (.object (vs.foldl (fun acc v => insert v.1 v.2 acc) [])) := by
  let body := Codec.separated (spread pre mid ms) ++ (post ++ [objectClose])
  have hlen := length_le_separated pre mid ms
  have hobj := readObject_spread hpre hmid hpost (depth - 1) [] h
    (2 * (spreadObject pre mid post ms).length + 1) (by simp [spreadObject]; omega)
  have hread : read (2 * (spreadObject pre mid post ms).length + 2) depth (objectOpen :: body)
      = .ok (.object (vs.foldl (fun acc v => insert v.1 v.2 acc) []), []) := by
    rw [read, Reader.bind_ok (peekValue_cons rfl body)]
    change (do
      advance
      if depth ≤ 1 then throw .tooDeep
      readObject _ (depth - 1) : Reader Value) _ = _
    rw [if_neg (by omega)]
    exact hobj
  change Except.bind (read (2 * (spreadObject pre mid post ms).length + 2) depth (objectOpen :: body)) _ = _
  rw [hread]
  rfl

theorem lookup_cons (k j : String) (v : Value) (ms : List (String × Value)) :
    List.lookup k ((j, v) :: ms) = if k = j then some v else ms.lookup k := by
  by_cases h : k = j
  · rw [if_pos h, h, List.lookup_cons_self]
  · rw [if_neg h, List.lookup_cons, beq_false_of_ne h]

/-- A member that is put in its place is found there, and all others as before. -/
theorem lookup_insert (k j : String) (v : Value) (ms : List (String × Value)) :
    (insert j v ms).lookup k = if k = j then some v else ms.lookup k := by
  induction ms with
  | nil => rw [insert, lookup_cons]
  | cons m ms ih =>
    obtain ⟨i, w⟩ := m
    rw [insert]
    by_cases hlt : j < i
    · rw [if_pos hlt, lookup_cons]
    · rw [if_neg hlt]
      by_cases hji : j = i
      · subst hji
        rw [if_pos rfl, lookup_cons, lookup_cons]
        by_cases hk : k = j
        · rw [if_pos hk, if_pos hk]
        · rw [if_neg hk, if_neg hk, if_neg hk]
      · rw [if_neg hji, lookup_cons, lookup_cons, ih]
        by_cases hki : k = i
        · have hkj : k ≠ j := fun h => hji (h.symm.trans hki)
          rw [if_pos hki, if_neg hkj, if_pos hki]
        · rw [if_neg hki, if_neg hki]

theorem lookup_foldl (k : String) (vs acc : List (String × Value)) :
    (vs.foldl (fun acc v => insert v.1 v.2 acc) acc).lookup k = (vs.reverse ++ acc).lookup k := by
  induction vs generalizing acc with
  | nil => rfl
  | cons v vs ih =>
    rw [List.foldl_cons, ih, List.reverse_cons, List.append_assoc]
    induction vs.reverse with
    | nil => rw [List.nil_append, List.nil_append, lookup_insert, ← lookup_cons]; rfl
    | cons u us ihu =>
      rw [List.cons_append, List.cons_append]
      rw [← Prod.mk.eta (p := u), lookup_cons, lookup_cons, ihu]

end TokenLedger.Json.Value
