import TokenLedger.Json.Record
import TokenLedger.Proofs.Json.Text

/-! Records are read back as they were written, also with blanks before their members, behind the colons
and before the closing brace. -/

namespace TokenLedger.Json

open Octet

def RowTakes : (fs : List Field) → Row fs → List (String × Bytes) → Prop
  | [], _, ms => ms = []
  | f :: fs, (v, r), ms => ∃ b ms', ms = (f.name, b) :: ms' ∧ f.codec.Takes v b ∧ RowTakes fs r ms'

def rowMembers : (fs : List Field) → Row fs → List (String × Bytes)
  | [], _ => []
  | f :: fs, (v, r) => (f.name, f.codec.write v) :: rowMembers fs r

def RowReads (fs : List Field) (r : Row fs) : Prop := RowTakes fs r (rowMembers fs r)

@[simp] theorem rowReads_nil (r : Row []) : RowReads [] r := rfl

theorem rowReads_cons {f : Field} {fs : List Field} {v : f.Val} {r : Row fs} (hv : f.codec.Reads v)
    (hr : RowReads fs r) : RowReads (f :: fs) (v, r) :=
  ⟨_, _, rfl, hv, hr⟩

theorem RowTakes.length {fs : List Field} {r : Row fs} {ms : List (String × Bytes)} (h : RowTakes fs r ms) :
    ms.length = fs.length := by
  induction fs generalizing ms with
  | nil => simp [show ms = [] from h]
  | cons f fs ih =>
    obtain ⟨b, ms', rfl, -, hr⟩ := h
    simp [ih hr]

def spread (pre mid : Bytes) (ms : List (String × Bytes)) : List Bytes :=
  ms.map fun (k, b) => pre ++ (writeText k ++ colon :: (mid ++ b))

@[simp] theorem spread_cons (pre mid : Bytes) (k : String) (b : Bytes) (ms : List (String × Bytes)) :
    spread pre mid ((k, b) :: ms) =
      (pre ++ (writeText k ++ colon :: (mid ++ b))) :: spread pre mid ms := rfl

@[simp] theorem length_spread (pre mid : Bytes) (ms : List (String × Bytes)) :
    (spread pre mid ms).length = ms.length := by
  simp [spread]

theorem writeMembers_eq_spread (fs : List Field) (r : Row fs) :
    writeMembers fs r = spread [] [] (rowMembers fs r) := by
  induction fs with
  | nil => rfl
  | cons f fs ih => simp [writeMembers, rowMembers, ih, Codec.member]

theorem separated_cons (m : Bytes) (ms : List Bytes) :
    Codec.separated (m :: ms) = m ++ ms.flatMap (comma :: ·) := by
  induction ms generalizing m with
  | nil => simp [Codec.separated]
  | cons m' ms ih => simp [Codec.separated, ih]

/-- The members that follow, with a comma before the first of them unless it is the first of all. -/
def following (first : Bool) (ms : List Bytes) : Bytes :=
  if first then Codec.separated ms else ms.flatMap (comma :: ·)

/-- The blanks before a member follow the comma in front of it. -/
theorem nextKey_following {pre : Bytes} (hp : pre.all isBlank) (first : Bool) (k : String) (v : Bytes)
    (ms : List Bytes) (s : Bytes) :
    nextKey first (following first ((pre ++ (writeText k ++ v)) :: ms) ++ s)
      = .ok (some k, v ++ (following false ms ++ s)) := by
  cases first with
  | true =>
    have h := nextKey_first hp k (v ++ (following false ms ++ s))
    simpa [following, separated_cons] using h
  | false =>
    have h := nextKey_next (v := []) rfl hp k (v ++ (following false ms ++ s))
    simpa [following] using h

def Follows (s : Bytes) : Prop := ∃ b t, s = b :: t ∧ (isBlank b = true ∨ b = comma ∨ b = objectClose)

theorem Follows.ends {s : Bytes} (h : Follows s) : Ends s := by
  obtain ⟨b, t, rfl, hb | rfl | rfl⟩ := h
  · exact ends_blank hb t
  · exact ends_comma t
  · exact ends_objectClose t

theorem follows_following {post : Bytes} (hp : post.all isBlank) (ms : List Bytes) (s : Bytes) :
    Follows (following false ms ++ (post ++ objectClose :: s)) := by
  cases ms with
  | nil =>
    cases post with
    | nil => exact ⟨objectClose, s, rfl, .inr (.inr rfl)⟩
    | cons b post => exact ⟨b, post ++ objectClose :: s, rfl, .inl (List.all_eq_true.mp hp b (by simp))⟩
  | cons m ms => exact ⟨comma, m ++ following false ms ++ (post ++ objectClose :: s), rfl, .inr (.inl rfl)⟩

theorem ends_following {post : Bytes} (hp : post.all isBlank) (ms : List Bytes) (s : Bytes) :
    Ends (following false ms ++ (post ++ objectClose :: s)) :=
  (follows_following hp ms s).ends

namespace Draft

/-- The draft in which every value has been read. -/
def full : (fs : List Field) → Row fs → Draft fs
  | [], _ => ()
  | _ :: fs, (v, r) => (some v, full fs r)

@[simp] theorem finish_full (fs : List Field) (r : Row fs) : finish fs (full fs r) = .ok r := by
  induction fs with
  | nil => rfl
  | cons f fs ih => simp [finish, full, ih, bind, Except.bind, pure, Except.pure]

end Draft

/-- Reading goes through the fields in order. `put` places the draft of the fields that are left into
the draft of the whole record. -/
theorem readMembers_spread {pre mid post : Bytes} (hpre : pre.all isBlank) (hmid : mid.all isBlank)
    (hpost : post.all isBlank) (gs : List Field) (s : Bytes) :
    ∀ (fs : List Field) (r : Row fs) (ms : List (String × Bytes)) (put : Draft fs → Draft gs),
      RowTakes fs r ms → (fs.map (·.name)).Nodup →
      (∀ k ∈ fs.map (·.name), ∀ d,
        Draft.accept? k gs (put d) = (Draft.accept? k fs d).map fun q => put <$> q) →
      ∀ (fuel : Nat) (first : Bool), fs.length < fuel →
        readMembers gs fuel first (put (Draft.empty fs))
          (following first (spread pre mid ms) ++ (post ++ objectClose :: s))
          = .ok (put (Draft.full fs r), s) := by
  intro fs
  induction fs with
  | nil =>
    intro r ms put hr _ _ fuel first hf
    cases fuel with
    | zero => omega
    | succ fuel =>
      have hk := nextKey_close hpost first s
      have he : following first (spread pre mid ms) = [] := by
        rw [show ms = [] from hr]
        cases first <;> rfl
      rw [he, List.nil_append, readMembers, Reader.bind_ok hk]
      rfl
  | cons f fs ih =>
    rintro ⟨v, r⟩ _ put ⟨b, ms, rfl, hv, hr⟩ hnd hput fuel first hf
    rw [List.map_cons, List.nodup_cons] at hnd
    obtain ⟨hnew, hnd⟩ := hnd
    cases fuel with
    | zero => omega
    | succ fuel =>
      have hk := nextKey_following hpre first f.name (colon :: (mid ++ b)) (spread pre mid ms)
        (post ++ objectClose :: s)
      have hfirst : Draft.accept? f.name gs (put (Draft.empty (f :: fs))) = some (put <$> do
          colonMark
          return (some (← f.codec.read), Draft.empty fs)) := by
        rw [hput f.name (by simp)]
        simp [Draft.accept?, Draft.empty]
      have hval := hv mid _ hmid (ends_following hpost (spread pre mid ms) s)
      rw [spread_cons, readMembers, Reader.bind_ok hk]
      simp only [hfirst]
      rw [Reader.bind_ok (a := put (some v, Draft.empty fs))
        (t := following false (spread pre mid ms) ++ (post ++ objectClose :: s))]
      · refine ih r ms (fun d => put (some v, d)) hr hnd ?_ fuel false (by simpa using hf)
        intro k hk d
        have hne : f.name ≠ k := fun h => hnew (h ▸ hk)
        rw [hput k (by simp [hk])]
        simp only [Draft.accept?, if_neg hne, Option.map_map]
        congr 1
        funext q
        simp
      · simp only [List.cons_append, List.append_assoc, map_eq_pure_bind, bind_assoc]
        rw [Reader.bind_ok (colonMark_colon _), Reader.bind_ok hval]
        rfl

theorem length_le_flatMap (ms : List Bytes) : ms.length ≤ (ms.flatMap (comma :: ·)).length := by
  induction ms with
  | nil => simp
  | cons m ms ih => simp; omega

theorem length_le_separated (pre mid : Bytes) (ms : List (String × Bytes)) :
    ms.length ≤ (Codec.separated (spread pre mid ms)).length := by
  cases ms with
  | nil => simp
  | cons m ms =>
    have h := length_le_flatMap (spread pre mid ms)
    rw [length_spread] at h
    rw [spread_cons, separated_cons]
    simp [writeText] at h ⊢
    omega

/-- An object of members, with blanks before the members, behind the colons and before the closing
brace. -/
def spreadObject (pre mid post : Bytes) (ms : List (String × Bytes)) : Bytes :=
  objectOpen :: (Codec.separated (spread pre mid ms) ++ (post ++ [objectClose]))

namespace Layout

variable {α : Type}

/-- A record is read from its members in order, whatever blanks stand between them. -/
theorem takes_spread (l : Layout α) {a : α} {ms : List (String × Bytes)} (pre mid post : Bytes)
    (hpre : pre.all isBlank) (hmid : mid.all isBlank) (hpost : post.all isBlank)
    (hr : RowTakes l.fields (l.toRow a) ms) (hnd : (l.fields.map (·.name)).Nodup)
    (ha : l.ofRow (l.toRow a) = a) : l.codec.Takes a (spreadObject pre mid post ms) := by
  intro w s hw _
  let body := Codec.separated (spread pre mid ms) ++ (post ++ objectClose :: s)
  have hlen : l.fields.length < body.length + 1 := by
    have h := length_le_separated pre mid ms
    rw [hr.length] at h
    simp only [body, List.length_append]
    omega
  have hm : readMembers l.fields (body.length + 1) true (Draft.empty l.fields) body
      = .ok (Draft.full l.fields (l.toRow a), s) :=
    readMembers_spread hpre hmid hpost l.fields s l.fields (l.toRow a) ms id hr hnd
      (by simp) (body.length + 1) true hlen
  have hbody : spreadObject pre mid post ms ++ s = objectOpen :: body := by
    simp [spreadObject, body]
  rw [hbody]
  change l.read (w ++ objectOpen :: body) = _
  rw [read, Reader.bind_ok (peekValue_blanks hw rfl _)]
  change ((do
    advance
    let d ← readMembers l.fields ((← get).length + 1) true (Draft.empty l.fields)
    return l.ofRow (← Draft.finish l.fields d)) : Reader α) _ = _
  rw [Reader.bind_ok (a := ()) (t := body) rfl, Reader.bind_ok (a := body) (t := body) rfl,
    Reader.bind_ok hm]
  simp only [Draft.finish_full]
  rw [Reader.bind_ok (a := l.toRow a) (t := s) rfl, ha]
  rfl

theorem write_eq_spreadObject (l : Layout α) (a : α) :
    l.codec.write a = spreadObject [] [] [] (rowMembers l.fields (l.toRow a)) := by
  simp [codec, write, writeMembers_eq_spread, spreadObject]

theorem reads_codec (l : Layout α) {a : α} (hr : RowReads l.fields (l.toRow a))
    (hnd : (l.fields.map (·.name)).Nodup) (ha : l.ofRow (l.toRow a) = a) : l.codec.Reads a := by
  rw [Codec.Reads, write_eq_spreadObject]
  exact l.takes_spread [] [] [] rfl rfl rfl hr hnd ha

end Layout
end TokenLedger.Json
