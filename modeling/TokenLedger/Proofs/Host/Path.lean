import Mathlib.Data.List.TakeWhile
import TokenLedger.Host.Folder
import TokenLedger.Proofs.Key

/-! Names of files. A file of that name is in the directory itself, and so is what is written beside it, but
for a few names. -/

namespace TokenLedger

namespace Path

structure IsName (p : Path) : Prop where
  nonempty : p.text ≠ ""
  noSlash : '/' ∉ p.chars
  noNull : '\x00' ∉ p.chars
  notPoints : p.text ≠ "." ∧ p.text ≠ ".."

/-- A name that a file can have. -/
structure IsFileName (p : Path) : Prop extends p.IsName where
  short : (Text.utf8 p.text).length ≤ Folder.maxName

instance (p : Path) : Decidable p.IsFileName :=
  decidable_of_iff (p.text ≠ "" ∧ '/' ∉ p.chars ∧ '\x00' ∉ p.chars ∧ (p.text ≠ "." ∧ p.text ≠ "..") ∧
      (Text.utf8 p.text).length ≤ Folder.maxName)
    ⟨fun ⟨h₁, h₂, h₃, h₄, h₅⟩ => ⟨⟨h₁, h₂, h₃, h₄⟩, h₅⟩, fun ⟨⟨h₁, h₂, h₃, h₄⟩, h₅⟩ => ⟨h₁, h₂, h₃, h₄, h₅⟩⟩

theorem mem_stem {name : List Char} {c : Char} (hc : c ∈ stem name) : c ∈ name := by
  rw [stem] at hc
  split at hc
  · exact hc
  · have hdropped := List.mem_of_mem_drop (List.mem_reverse.mp hc)
    exact List.mem_reverse.mp ((List.dropWhile_sublist _).mem hdropped)

namespace IsName

variable {p : Path} (h : p.IsName)

include h

theorem chars_ne_nil : p.chars ≠ [] := by
  intro hc
  exact h.nonempty (String.toList_eq_nil_iff.mp hc)

theorem names : p.names = [p.text] := by
  have hne : p.chars.isEmpty = false := by simpa using h.chars_ne_nil
  rw [Path.names, Text.pieces_of_notMem h.noSlash, List.filter_cons, hne]
  simp [chars]

theorem endsWithPoints : p.endsWithPoints = false := by
  rw [Path.endsWithPoints, h.names]
  simp [h.notPoints]

theorem isDirectoryOnly : p.isDirectoryOnly = false := by
  rw [Path.isDirectoryOnly, beq_eq_false_iff_ne]
  intro hlast
  exact h.noSlash (List.mem_of_getLast? hlast)

theorem dropTrailing_reverse : dropTrailing p.chars.reverse = p.chars.reverse := by
  have hs : '/' ∉ p.chars.reverse := by simpa using h.noSlash
  unfold dropTrailing
  split
  · simp_all
  · simp_all
  · rfl

theorem reverse_parts : p.chars.reverse.takeWhile (· != '/') = p.chars.reverse ∧
    p.chars.reverse.dropWhile (· != '/') = [] := by
  have hall : ∀ c ∈ p.chars.reverse, (c != '/') = true := by
    intro c hc
    rw [bne_iff_ne]
    rintro rfl
    exact h.noSlash (List.mem_reverse.mp hc)
  exact ⟨List.takeWhile_eq_self_iff.mpr hall, List.dropWhile_eq_nil_iff.mpr hall⟩

theorem parent_isEmpty : p.parent.text.isEmpty := by
  rw [parent]
  dsimp only
  rw [h.dropTrailing_reverse, h.reverse_parts.2]
  rfl

/-- What is written beside a file has a name too, unless only the points of its own name are left. -/
theorem beside_cases : (p.withExtension "tmp").text = ".." ∨ (p.withExtension "tmp").IsName := by
  obtain ⟨htake, hdrop⟩ := h.reverse_parts
  rw [withExtension, h.dropTrailing_reverse, htake, hdrop, List.reverse_reverse]
  split_ifs with hnone hpoints
  · exact .inr h
  · exact .inl rfl
  · right
    have htext : (String.ofList (([] : List Char).reverse ++ stem p.chars) ++ "." ++ "tmp").toList =
        stem p.chars ++ ['.', 't', 'm', 'p'] := by simp
    have hother {s : String} (hs : s.toList.length < 4) :
        String.ofList (([] : List Char).reverse ++ stem p.chars) ++ "." ++ "tmp" ≠ s := by
      rintro rfl
      rw [htext, List.length_append] at hs
      exact absurd hs (by simp)
    have hnotMem {c : Char} (hc : c ∉ p.chars) (hext : c ∉ ['.', 't', 'm', 'p']) :
        c ∉ stem p.chars ++ ['.', 't', 'm', 'p'] := by
      rw [List.mem_append, not_or]
      exact ⟨fun hs => hc (mem_stem hs), hext⟩
    exact {
      nonempty := hother (by decide)
      noSlash := by
        rw [chars, htext]
        exact hnotMem h.noSlash (by decide)
      noNull := by
        rw [chars, htext]
        exact hnotMem h.noNull (by decide)
      notPoints := ⟨hother (by decide), hother (by decide)⟩ }

/-- What is written beside a file without a point in its name has a longer name. -/
theorem beside_text (hpoint : '.' ∉ p.chars) :
    (p.withExtension "tmp").text = p.text ++ ".tmp" := by
  obtain ⟨htake, hdrop⟩ := h.reverse_parts
  have hstem : stem p.chars = p.chars := by
    have hall : ∀ c ∈ p.chars.reverse, (c != '.') = true := by
      intro c hc
      rw [bne_iff_ne]
      rintro rfl
      exact hpoint (List.mem_reverse.mp hc)
    rw [stem, List.dropWhile_eq_nil_iff.mpr hall]
    rfl
  have hne (s : List Char) : p.chars ≠ '.' :: s := by
    intro hc
    exact hpoint (by simp [hc])
  rw [withExtension, h.dropTrailing_reverse, htake, hdrop, List.reverse_reverse, hstem,
    if_neg (by simp [hne, h.chars_ne_nil]), if_neg (by simp [hne])]
  simp [chars, String.append_assoc]

end IsName

theorem length_letters (n : Nat) : (Text.utf8 (String.ofList (List.replicate n 'a'))).length = n := by
  have hsize : 'a'.utf8Size = 1 := by decide
  simp [Text.utf8, List.length_flatMap, hsize]

variable {n : Nat} (h : 0 < n ∧ n ≤ Folder.maxName)

include h

theorem isFileName_letters : (⟨String.ofList (List.replicate n 'a')⟩ : Path).IsFileName where
  nonempty := by simp; omega
  noSlash := by simp [chars]
  noNull := by simp [chars]
  notPoints := by
    have hne {s : String} (hs : 'a' ∉ s.toList) : String.ofList (List.replicate n 'a') ≠ s := by
      rintro rfl
      simp at hs
      omega
    exact ⟨hne (by decide), hne (by decide)⟩
  short := by simpa only [length_letters] using h.2

theorem beside_letters (hb : ((⟨String.ofList (List.replicate n 'a')⟩ : Path).withExtension "tmp").IsFileName) :
    n + 4 ≤ Folder.maxName := by
  have hshort := hb.short
  have hpoint : '.' ∉ (⟨String.ofList (List.replicate n 'a')⟩ : Path).chars := by simp [chars]
  rwa [(isFileName_letters h).beside_text hpoint, Text.utf8_append, List.length_append, length_letters,
    show (Text.utf8 ".tmp").length = 4 by decide] at hshort

end Path

end TokenLedger
