import TokenLedger.Store.Key
import Mathlib.Tactic

/-! Keys and their texts. A key is read back from its text, so different keys have different texts, and no
other text is read as this key; the texts that a scan of a whole namespace looks at are those of its keys. -/

namespace TokenLedger

namespace Text

theorem pieces_append_sep {sep : Char} {p : List Char} (hp : sep ∉ p) (s : List Char) :
    pieces sep (p ++ sep :: s) = p :: pieces sep s := by
  induction p with
  | nil => simp [pieces]
  | cons c p ih =>
    have hc : c ≠ sep := fun h => hp (by simp [h])
    have ih := ih fun h => hp (by simp [h])
    rw [List.cons_append, pieces, if_neg hc, ih]

theorem pieces_of_notMem {sep : Char} {p : List Char} (hp : sep ∉ p) : pieces sep p = [p] := by
  induction p with
  | nil => rfl
  | cons c p ih =>
    have hc : c ≠ sep := fun h => hp (by simp [h])
    have ih := ih fun h => hp (by simp [h])
    rw [pieces, if_neg hc, ih]

/-- Stretches without the separator are found again behind it. -/
theorem pieces_flatMap {sep : Char} {p : List Char} (hp : sep ∉ p) {ps : List (List Char)}
    (hps : ∀ q ∈ ps, sep ∉ q) : pieces sep (p ++ ps.flatMap (sep :: ·)) = p :: ps := by
  induction ps generalizing p with
  | nil => simpa using pieces_of_notMem hp
  | cons q ps ih =>
    rw [List.flatMap_cons, List.cons_append, pieces_append_sep hp,
      ih (hps q (by simp)) fun r hr => hps r (by simp [hr])]

theorem pieces_flatMap_append {sep : Char} {p : List Char} (hp : sep ∉ p) {ps : List (List Char)}
    (hps : ∀ q ∈ ps, sep ∉ q) (s : List Char) :
    pieces sep (p ++ ps.flatMap (sep :: ·) ++ sep :: s) = p :: ps ++ pieces sep s := by
  induction ps generalizing p with
  | nil => simpa using pieces_append_sep hp s
  | cons q ps ih =>
    have ih := ih (hps q (by simp)) fun r hr => hps r (by simp [hr])
    rw [List.flatMap_cons, List.cons_append, List.append_assoc, List.cons_append, pieces_append_sep hp, ih]
    rfl

theorem pieces_ne_nil (sep : Char) (s : List Char) : pieces sep s ≠ [] := by
  have h := length_pieces sep s
  intro hn
  simp [hn] at h

theorem eq_of_pieces {sep : Char} {s p : List Char} {ps : List (List Char)} (h : pieces sep s = p :: ps) :
    p ++ ps.flatMap (sep :: ·) = s := by
  induction s generalizing p ps with
  | nil =>
    cases h
    rfl
  | cons c s ih =>
    rw [pieces] at h
    obtain ⟨q, qs, hq⟩ := List.exists_cons_of_ne_nil (pieces_ne_nil sep s)
    have hs := ih hq
    split at h
    · rename_i hc
      cases h
      rw [hq, List.flatMap_cons, List.nil_append, List.cons_append, hs, hc]
    · rw [hq] at h
      cases h
      rw [List.cons_append, hs]

theorem sep_notMem_of_mem_pieces {sep : Char} {s q : List Char} (h : q ∈ pieces sep s) : sep ∉ q := by
  induction s generalizing q with
  | nil =>
    rw [List.mem_singleton.mp h]
    exact List.not_mem_nil
  | cons c s ih =>
    rw [pieces] at h
    obtain ⟨p, ps, hp⟩ := List.exists_cons_of_ne_nil (pieces_ne_nil sep s)
    split at h
    · rcases List.mem_cons.mp h with rfl | h
      · exact List.not_mem_nil
      · exact ih h
    · rename_i hc
      rw [hp] at h ih
      rcases List.mem_cons.mp h with rfl | h
      · have hp := ih (q := p) (by simp)
        simp [hp, Ne.symm hc]
      · exact ih (by simp [h])

end Text

namespace Key

theorem escapeChar_of_ne {c : Char} (h₁ : c ≠ '%') (h₂ : c ≠ '/') : escapeChar c = [c] := by
  unfold escapeChar
  split <;> simp_all

theorem sep_notMem_escape (s : List Char) : '/' ∉ escape s := by
  intro h
  obtain ⟨c, -, hc⟩ := List.mem_flatMap.mp h
  by_cases h₁ : c = '%'
  · simp [h₁, escapeChar] at hc
  · by_cases h₂ : c = '/'
    · simp [h₂, escapeChar] at hc
    · rw [escapeChar_of_ne h₁ h₂, List.mem_singleton] at hc
      exact h₂ hc.symm

theorem unescape?_cons {c : Char} (hc : c ≠ '%') (s : List Char) :
    unescape? (c :: s) = (unescape? s).map (c :: ·) := by
  rw [unescape?.eq_def]
  split <;> simp_all

@[simp] theorem unescape?_escape (s : List Char) : unescape? (escape s) = some s := by
  induction s with
  | nil => rfl
  | cons c s ih =>
    rw [escape] at ih
    rw [escape, List.flatMap_cons]
    by_cases h₁ : c = '%'
    · subst h₁
      simp [escapeChar, unescape?, ih]
    · by_cases h₂ : c = '/'
      · subst h₂
        simp [escapeChar, unescape?, ih]
      · rw [escapeChar_of_ne h₁ h₂, List.singleton_append, unescape?_cons h₁, ih]
        rfl

theorem escape_injective {s t : List Char} (h : escape s = escape t) : s = t := by
  have hs := unescape?_escape s
  rw [h, unescape?_escape] at hs
  exact (Option.some.inj hs).symm

theorem sep_notMem_tag (n : Namespace) : '/' ∉ n.tag.toList := by cases n <;> decide

def stretches (k : Key) : List (List Char) := k.components.map fun c => escape c.toList

theorem encodeChars_eq (k : Key) :
    k.encodeChars = k.ns.tag.toList ++ k.stretches.flatMap ('/' :: ·) := by
  rw [encodeChars, stretches, List.flatMap_map]

theorem sep_notMem_stretches {k : Key} {q : List Char} (h : q ∈ k.stretches) : '/' ∉ q := by
  obtain ⟨c, -, rfl⟩ := List.mem_map.mp h
  exact sep_notMem_escape _

theorem pieces_encodeChars (k : Key) : Text.pieces '/' k.encodeChars = k.ns.tag.toList :: k.stretches := by
  rw [encodeChars_eq]
  exact Text.pieces_flatMap (sep_notMem_tag k.ns) fun _ h => sep_notMem_stretches h

@[simp] theorem decode_encode (k : Key) : decode k.encode = .ok k := by
  have hp : Text.pieces '/' k.encode.toList = k.ns.tag.toList :: k.stretches := by
    rw [encode, String.toList_ofList, pieces_encodeChars]
  have hm : k.stretches.mapM unescape? = some (k.components.map String.toList) := by
    rw [stretches]
    induction k.components with
    | nil => rfl
    | cons c cs ih => simp [List.mapM_cons, ih]
  have hc : (k.components.map String.toList).map String.ofList = k.components := by
    rw [List.map_map]
    simp [Function.comp_def]
  simp only [decode, hp, String.ofList_toList, Namespace.ofTag?_tag, hm, hc]

theorem escape_cons (c : Char) (s : List Char) : escape (c :: s) = escapeChar c ++ escape s := List.flatMap_cons

/-- What is read without an escape is escaped as it was. -/
theorem escape_of_unescape? {s t : List Char} (hs : '/' ∉ s) (h : unescape? s = some t) : escape t = s := by
  induction s using unescape?.induct generalizing t with
  | case1 =>
    cases h
    rfl
  | case2 s ih =>
    obtain ⟨u, hu, rfl⟩ := Option.map_eq_some_iff.mp h
    rw [escape_cons, ih (fun hm => hs (by simp [hm])) hu]
    rfl
  | case3 s ih =>
    obtain ⟨u, hu, rfl⟩ := Option.map_eq_some_iff.mp h
    rw [escape_cons, ih (fun hm => hs (by simp [hm])) hu]
    rfl
  | case4 s h₁ h₂ =>
    rw [unescape?] at h
    · cases h
    · exact h₁
    · exact h₂
  | case5 c s h₁ h₂ hp ih =>
    rw [unescape?_cons hp, Option.map_eq_some_iff] at h
    obtain ⟨u, hu, rfl⟩ := h
    have hc : c ≠ '/' := fun he => hs (by simp [he])
    rw [escape_cons, escapeChar_of_ne hp hc, ih (fun hm => hs (by simp [hm])) hu]
    rfl

theorem map_escape_of_mapM {parts cs : List (List Char)} (hs : ∀ q ∈ parts, '/' ∉ q)
    (h : parts.mapM unescape? = some cs) : cs.map escape = parts := by
  induction parts generalizing cs with
  | nil =>
    cases h
    rfl
  | cons q parts ih =>
    simp only [List.mapM_cons, Option.bind_eq_bind, Option.bind_eq_some_iff] at h
    obtain ⟨c, hc, ds, hds, he⟩ := h
    cases he
    rw [List.map_cons, escape_of_unescape? (hs q (by simp)) hc, ih (fun r hr => hs r (by simp [hr])) hds]

theorem encode_of_decode {s : String} {k : Key} (h : decode s = .ok k) : k.encode = s := by
  obtain ⟨tag, parts, hparts⟩ := List.exists_cons_of_ne_nil (Text.pieces_ne_nil '/' s.toList)
  have hsep : ∀ q ∈ parts, '/' ∉ q := fun q hq => Text.sep_notMem_of_mem_pieces (hparts ▸ List.mem_cons_of_mem _ hq)
  simp only [decode, hparts] at h
  split at h
  · cases h
  · rename_i ns hns
    split at h
    · cases h
    · rename_i cs hcs
      cases h
      have hfound := List.find?_some hns
      have htag : ns.tag.toList = tag := by rw [beq_iff_eq.mp hfound, String.toList_ofList]
      refine String.toList_inj.mp ?_
      rw [encode, String.toList_ofList, encodeChars, htag, List.flatMap_map, ← Text.eq_of_pieces hparts,
        ← map_escape_of_mapM hsep hcs, List.flatMap_map]
      simp

theorem encode_injective {j k : Key} (h : j.encode = k.encode) : j = k := by
  have hj := decode_encode j
  rw [h, decode_encode] at hj
  exact (Except.ok.inj hj).symm

@[simp] theorem encode_inj {j k : Key} : j.encode = k.encode ↔ j = k :=
  ⟨encode_injective, fun h => h ▸ rfl⟩

theorem tag_injective {m n : Namespace} (h : m.tag.toList = n.tag.toList) : m = n := by
  have hm := Namespace.ofTag?_tag m
  rw [String.toList_inj.mp h, Namespace.ofTag?_tag] at hm
  exact (Option.some.inj hm).symm

/-- The text of a key begins like a scan exactly if the key extends what is scanned. -/
theorem isPrefixOf_scanPrefix (j k : Key) : (scanPrefix j).toList.isPrefixOf k.encode.toList = true ↔
    k.ns = j.ns ∧ ∃ cs, cs ≠ [] ∧ k.components = j.components ++ cs := by
  rw [List.isPrefixOf_iff_prefix, scanPrefix, encode, String.toList_ofList, String.toList_ofList]
  constructor
  · rintro ⟨s, hs⟩
    have hp := pieces_encodeChars k
    rw [← hs, List.append_assoc, List.singleton_append, encodeChars_eq,
      Text.pieces_flatMap_append (sep_notMem_tag j.ns) fun _ h => sep_notMem_stretches h,
      List.cons_append, List.cons.injEq] at hp
    obtain ⟨htag, hrest⟩ := hp
    obtain ⟨cs, ds, hcs, hj, hd⟩ := List.map_eq_append_iff.mp (show k.stretches = _ from hrest.symm)
    have hinj : Function.Injective fun c : String => escape c.toList := fun a b h =>
      String.toList_inj.mp (escape_injective h)
    refine ⟨(tag_injective htag).symm, ds, ?_, ?_⟩
    · rintro rfl
      exact Text.pieces_ne_nil '/' s hd.symm
    · rw [hcs, List.map_injective_iff.mpr hinj hj]
  · rintro ⟨hns, cs, hne, hcs⟩
    obtain ⟨c, cs, rfl⟩ := List.exists_cons_of_ne_nil hne
    refine ⟨escape c.toList ++ cs.flatMap fun c => '/' :: escape c.toList, ?_⟩
    simp [encodeChars, hns, hcs]

/-- A scan of a whole namespace looks at the keys of this namespace. -/
theorem isPrefixOf_namespace (ns : Namespace) (k : Key) :
    (scanPrefix ⟨ns, []⟩).toList.isPrefixOf k.encode.toList = true ↔ k.ns = ns ∧ k.components ≠ [] := by
  rw [isPrefixOf_scanPrefix]
  constructor
  · rintro ⟨hns, cs, hne, hcs⟩
    exact ⟨hns, by rwa [hcs]⟩
  · rintro ⟨hns, hne⟩
    exact ⟨hns, k.components, hne, rfl⟩

end Key

theorem Account.key_injective {a b : Account} (h : a.key = b.key) : a = b := by
  have ha := Account.ofKey?_key a
  rw [h, Account.ofKey?_key] at ha
  exact (Option.some.inj ha).symm

end TokenLedger
