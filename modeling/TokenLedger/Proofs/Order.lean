import TokenLedger.Text.Utf8
import Mathlib.Tactic

/-! The order of texts is the order of their octets: a character with a larger code begins with larger octets,
however many there are. So no character begins another one, and texts begin each other where their octets do. -/

namespace TokenLedger.Text

theorem cons_lt_cons {a b : Nat} (ha : a < 256) (hb : b < 256) {s t : Bytes} :
    UInt8.ofNat a :: s < UInt8.ofNat b :: t ↔ a < b ∨ a = b ∧ s < t := by
  rw [List.cons_lt_cons_iff, UInt8.lt_iff_toNat_lt, ← UInt8.toNat_inj, UInt8.toNat_ofNat_of_lt' ha,
    UInt8.toNat_ofNat_of_lt' hb]

theorem eq_groups {n : Nat} (h : n < 0x110000) :
    n = 262144 * (n / 262144 % 8) + 4096 * (n / 4096 % 64) + 64 * (n / 64 % 64) + n % 64 := by
  omega

theorem encodeChar_append_lt {c d : Char} (h : c < d) (s t : Bytes) :
    String.utf8EncodeChar c ++ s < String.utf8EncodeChar d ++ t := by
  have hlt : c.val.toNat < d.val.toNat := h
  have hd : d.val.toNat < 0x110000 := by
    rcases d.valid with hv | ⟨-, hv⟩
    · exact Nat.lt_trans hv (by decide)
    · exact hv
  simp only [String.utf8EncodeChar]
  generalize c.val.toNat = m at *
  generalize d.val.toNat = n at *
  -- the first octet tells the number of octets, and more of them come with larger codes
  split_ifs
  all_goals try (exfalso; omega)
  all_goals
    simp (disch := omega) only [List.cons_append, List.nil_append, cons_lt_cons]
    try omega
  have hm := eq_groups (hlt.trans hd)
  have hn := eq_groups hd
  have hmod (k : Nat) : k % 64 < 64 := Nat.mod_lt k (by decide)
  have hm₁ := hmod (m / 4096)
  have hm₂ := hmod (m / 64)
  have hm₃ := hmod m
  have hn₁ := hmod (n / 4096)
  have hn₂ := hmod (n / 64)
  have hn₃ := hmod n
  generalize m / 262144 % 8 = m₀ at *
  generalize m / 4096 % 64 = m₁ at *
  generalize m / 64 % 64 = m₂ at *
  generalize m % 64 = m₃ at *
  generalize n / 262144 % 8 = n₀ at *
  generalize n / 4096 % 64 = n₁ at *
  generalize n / 64 % 64 = n₂ at *
  generalize n % 64 = n₃ at *
  omega

/-- The octets of one character do not begin those of another, whatever comes behind them. -/
theorem encodeChar_append_inj {c d : Char} {s t : Bytes}
    (h : String.utf8EncodeChar c ++ s = String.utf8EncodeChar d ++ t) : c = d ∧ s = t := by
  rcases Std.lt_trichotomy c d with hlt | rfl | hgt
  · have hne := encodeChar_append_lt hlt s t
    rw [h] at hne
    exact absurd hne (List.lt_irrefl _)
  · exact ⟨rfl, List.append_cancel_left h⟩
  · have hne := encodeChar_append_lt hgt t s
    rw [h] at hne
    exact absurd hne (List.lt_irrefl _)

theorem flatMap_encodeChar_prefix_iff {cs ds : List Char} :
    cs.flatMap String.utf8EncodeChar <+: ds.flatMap String.utf8EncodeChar ↔ cs <+: ds := by
  constructor
  · intro h
    induction cs generalizing ds with
    | nil => exact List.nil_prefix
    | cons c cs ih =>
      rw [List.flatMap_cons] at h
      cases ds with
      | nil => exact absurd (List.append_eq_nil_iff.mp (List.prefix_nil.mp h)).1 String.utf8EncodeChar_ne_nil
      | cons d ds =>
        obtain ⟨r, hr⟩ := h
        rw [List.flatMap_cons, List.append_assoc] at hr
        obtain ⟨rfl, hrest⟩ := encodeChar_append_inj hr
        exact List.cons_prefix_cons.mpr ⟨rfl, ih ⟨r, hrest⟩⟩
  · rintro ⟨r, rfl⟩
    rw [List.flatMap_append]
    exact List.prefix_append _ _

/-- The octets of a text begin with those of another one exactly if its characters do. -/
theorem utf8_prefix_utf8 {s t : String} : utf8 s <+: utf8 t ↔ s.toList <+: t.toList :=
  flatMap_encodeChar_prefix_iff

theorem flatMap_encodeChar_lt {cs ds : List Char} (h : cs < ds) :
    cs.flatMap String.utf8EncodeChar < ds.flatMap String.utf8EncodeChar := by
  induction h with
  | nil =>
    rename_i d ds
    rw [List.flatMap_nil, List.flatMap_cons]
    cases he : String.utf8EncodeChar d ++ ds.flatMap String.utf8EncodeChar with
    | nil => exact absurd (List.append_eq_nil_iff.mp he).1 String.utf8EncodeChar_ne_nil
    | cons b bs => exact .nil
  | rel hcd => exact encodeChar_append_lt hcd _ _
  | cons _ ih => exact List.append_left_lt ih

theorem utf8_lt_utf8 {s t : String} : utf8 s < utf8 t ↔ s < t := by
  have hlt {s t : String} (h : s < t) : utf8 s < utf8 t := by
    simpa [utf8] using flatMap_encodeChar_lt (String.lt_iff.mp h)
  refine ⟨fun h => ?_, hlt⟩
  rcases Std.lt_trichotomy s t with hst | rfl | hts
  · exact hst
  · exact absurd h (List.lt_irrefl _)
  · exact absurd (hlt hts) (List.lt_asymm h)

theorem utf8_le_utf8 {s t : String} : utf8 s ≤ utf8 t ↔ s ≤ t := by
  rw [← List.not_lt, ← String.not_lt, utf8_lt_utf8]

theorem compare_eq_lt {s t : String} : compare s t = .lt ↔ s < t := compareOfLessAndEq_eq_lt

end TokenLedger.Text
