/-! Texts in stretches between separators. -/

namespace TokenLedger.Text

def pieces (sep : Char) : List Char → List (List Char)
  | [] => [[]]
  | c :: s =>
    if c = sep then [] :: pieces sep s
    else match pieces sep s with
      | [] => [[c]]
      | p :: ps => (c :: p) :: ps

theorem length_pieces (sep : Char) (s : List Char) : (pieces sep s).length = s.count sep + 1 := by
  induction s with
  | nil => rfl
  | cons c s ih =>
    rw [pieces]
    split
    · next h => simp [h, ih]
    · next h =>
      have hc : (c == sep) = false := by simpa using h
      cases hp : pieces sep s with
      | nil => rw [hp] at ih; simp at ih
      | cons p ps => rw [hp] at ih; simpa [hc, List.count_cons] using ih

end TokenLedger.Text
