import TokenLedger.Proofs.Overlay

/-! The keys under a prefix. Octet by octet the text of a key begins with the prefix of a scan exactly if the key
extends what is scanned. In the order of texts these keys are one run, which starts at the first key that is not
before the prefix; so a walk from there may stop at the first key that begins otherwise. -/

namespace TokenLedger

namespace Key

def Extends (k j : Key) : Prop := k.ns = j.ns ∧ j.components <+: k.components ∧ j.components ≠ k.components

instance (k j : Key) : Decidable (k.Extends j) := inferInstanceAs (Decidable (_ ∧ _ ∧ _))

theorem extends_iff {k j : Key} :
    k.Extends j ↔ k.ns = j.ns ∧ ∃ cs, cs ≠ [] ∧ k.components = j.components ++ cs := by
  refine and_congr_right fun _ => ⟨?_, ?_⟩
  · rintro ⟨⟨cs, hcs⟩, hne⟩
    refine ⟨cs, ?_, hcs.symm⟩
    rintro rfl
    exact hne (by rw [← hcs, List.append_nil])
  · rintro ⟨cs, hne, hcs⟩
    rw [hcs]
    exact ⟨List.prefix_append _ _, fun h => hne (List.self_eq_append_right.mp h)⟩

theorem utf8_scanPrefix_prefix_iff {j k : Key} :
    Text.utf8 j.scanPrefix <+: Text.utf8 k.encode ↔ k.Extends j := by
  rw [Text.utf8_prefix_utf8, ← List.isPrefixOf_iff_prefix, isPrefixOf_scanPrefix, extends_iff]

theorem encode_concat_empty (j : Key) : encode ⟨j.ns, j.components ++ [""]⟩ = j.scanPrefix := by
  simp [encode, scanPrefix, encodeChars, escape]

theorem Extends.le {j k : Key} (h : k.Extends j) : Text.utf8 j.scanPrefix ≤ Text.utf8 k.encode :=
  List.not_lt.mp (Text.not_lt_of_prefix (utf8_scanPrefix_prefix_iff.mpr h))

theorem Extends.of_between {i j k : Key} (h : k.Extends j) (hi : Text.utf8 j.scanPrefix ≤ Text.utf8 i.encode)
    (hik : Text.utf8 i.encode ≤ Text.utf8 k.encode) : i.Extends j := by
  rw [← utf8_scanPrefix_prefix_iff] at h ⊢
  rcases List.le_iff_lt_or_eq.mp hik with hlt | heq
  · exact Text.prefix_of_between (List.not_lt.mpr hi) hlt h
  · rwa [heq]

theorem filter_extends (j : Key) {ks : List Key}
    (h : ks.Pairwise fun a b => Text.utf8 a.encode < Text.utf8 b.encode) :
    ks.filter (fun k => k.Extends j) =
      (ks.dropWhile fun k => Text.utf8 k.encode < Text.utf8 j.scanPrefix).takeWhile
        fun k => Text.utf8 j.scanPrefix <+: Text.utf8 k.encode := by
  simp only [utf8_scanPrefix_prefix_iff]
  refine Text.filter_eq_run (fun k hk hext => ?_) (h.imp fun {a b} hab => ⟨fun hb => ?_, fun hb => ?_⟩)
  · rw [decide_eq_true_eq] at hk hext
    exact List.not_lt.mpr hext.le hk
  · rw [decide_eq_true_eq] at hb ⊢
    exact List.lt_trans hab hb
  · rw [decide_eq_true_eq] at hb
    rw [decide_eq_true_eq, decide_eq_true_eq, or_iff_not_imp_left]
    exact fun ha => hb.of_between (List.not_lt.mp ha) (List.le_of_lt hab)

end Key

/-- Prefixes of texts are prefixes of lists of components. The octets of a text begin with the prefix of a scan
exactly if its key is of the namespace and has more components than those that are scanned, these first. In the
order of octets no key under the prefix comes before it, and between it and one of them there is no other key; the
first of all keys that do not come before the prefix has the prefix as its text. So of any keys in this order those
under the prefix are one run, from the first that does not come before it up to the first that begins otherwise. -/
theorem prefixes_coincide (ns : Namespace) (components : List String) :
    let start := Text.utf8 (Key.scanPrefix ⟨ns, components⟩)
    (∀ k : Key, start <+: Text.utf8 k.encode ↔
      k.ns = ns ∧ components <+: k.components ∧ components ≠ k.components) ∧
    (∀ k : Key, start <+: Text.utf8 k.encode → start ≤ Text.utf8 k.encode ∧
      ∀ i : Key, start ≤ Text.utf8 i.encode → Text.utf8 i.encode ≤ Text.utf8 k.encode →
        start <+: Text.utf8 i.encode) ∧
    Text.utf8 (Key.encode ⟨ns, components ++ [""]⟩) = start ∧
    ∀ ks : List Key, ks.Pairwise (fun a b => Text.utf8 a.encode < Text.utf8 b.encode) →
      ks.filter (fun k => start <+: Text.utf8 k.encode) =
        (ks.dropWhile fun k => Text.utf8 k.encode < start).takeWhile fun k => start <+: Text.utf8 k.encode := by
  intro start
  have hiff (k : Key) : start <+: Text.utf8 k.encode ↔ k.Extends ⟨ns, components⟩ :=
    Key.utf8_scanPrefix_prefix_iff
  refine ⟨hiff, fun k hk => ?_, ?_, fun ks hks => ?_⟩
  · have hk := (hiff k).mp hk
    exact ⟨hk.le, fun i hi hik => (hiff i).mpr (hk.of_between hi hik)⟩
  · exact congrArg Text.utf8 (Key.encode_concat_empty ⟨ns, components⟩)
  · rw [← Key.filter_extends ⟨ns, components⟩ hks]
    simp only [hiff]

/-- Keys of an address, of another one that it begins, and of one with a slash behind it. -/
def neighbours : List Key :=
  [⟨.balances, ["alice"]⟩, ⟨.balances, ["alice/x", "PRV"]⟩, ⟨.balances, ["alice", ""]⟩,
    ⟨.balances, ["alice", "PRV"]⟩, ⟨.balances, ["alice2", "PRV"]⟩, ⟨.wallets, ["alice", "PRV"]⟩]

theorem prefixes_coincide_neighbours :
    let start := Text.utf8 (Key.scanPrefix ⟨.balances, ["alice"]⟩)
    neighbours.Pairwise (fun a b => Text.utf8 a.encode < Text.utf8 b.encode) ∧
      (neighbours.dropWhile fun k => Text.utf8 k.encode < start).takeWhile
        (fun k => start <+: Text.utf8 k.encode) =
          [⟨.balances, ["alice", ""]⟩, ⟨.balances, ["alice", "PRV"]⟩] := by
  intro start
  have hordered : neighbours.Pairwise fun a b => Text.utf8 a.encode < Text.utf8 b.encode := by decide +kernel
  obtain ⟨hiff, -, -, hrun⟩ := prefixes_coincide .balances ["alice"]
  refine ⟨hordered, ?_⟩
  rw [← hrun neighbours hordered]
  simp only [hiff]
  decide +kernel

end TokenLedger
