import TokenLedger.Store.Snapshot
import TokenLedger.Proofs.Json.Codec

/-! A snapshot holds its store: whatever store is saved, reading the snapshot gives it back. -/

namespace TokenLedger

open Json Octet

/-- A table is given back by the list of its entries. -/
theorem Table.ofList_toList {α : Type} (t : Table α) : (Std.ExtTreeMap.ofList t.toList : Table α) = t := by
  have hd := Std.ExtTreeMap.distinct_keys_toList (t := t)
  refine Std.ExtTreeMap.ext_getElem? fun k => ?_
  cases hk : t[k]? with
  | some v =>
    have hm : (k, v) ∈ t.toList := Std.ExtTreeMap.mem_toList_iff_getElem?_eq_some.mpr hk
    exact Std.ExtTreeMap.getElem?_ofList_of_mem Std.ReflCmp.compare_self hd hm
  | none =>
    refine Std.ExtTreeMap.getElem?_ofList_of_contains_eq_false ?_
    rw [Bool.eq_false_iff]
    intro h
    obtain ⟨p, hp, hk'⟩ := List.mem_map.mp (List.contains_iff_mem.mp h)
    have hp' := Std.ExtTreeMap.mem_toList_iff_getElem?_eq_some.mp (show (p.1, p.2) ∈ t.toList from hp)
    rw [hk', hk] at hp'
    cases hp'

namespace Snapshot

theorem line_isBlank (depth : Nat) : (line depth).all isBlank := by
  simp [line, isBlank]

theorem block_eq_spreadObject (depth : Nat) (ms : List (String × Bytes)) (h : ms ≠ []) :
    block depth (ms.map fun (k, b) => member k b) =
      spreadObject (line (depth + 1)) [32] (line depth) ms := by
  have hne : (ms.map fun (k, b) => member k b).isEmpty = false := by simpa using h
  rw [block, hne, List.map_map]
  simp [spreadObject, spread, member, Function.comp_def]

theorem takes_writeEntry (e : Entry) : Entry.layout.codec.Takes e (writeEntry e) := by
  have hv : (Codec.optional Codec.hex).Reads e.value := by
    cases e.value with
    | none => exact reads_none _
    | some b => exact reads_some (reads_hex b) rfl (.inl rfl)
  have hr : RowReads Entry.layout.fields (Entry.layout.toRow e) :=
    rowReads_cons (reads_uint64 e.version) (rowReads_cons hv (rowReads_nil _))
  have hw := block_eq_spreadObject 2 (rowMembers Entry.layout.fields (Entry.layout.toRow e))
    (List.cons_ne_nil _ _)
  have h := Entry.layout.takes_spread (line 3) [32] (line 2) (line_isBlank 3) rfl (line_isBlank 2) hr
    (by decide) rfl
  rw [← hw] at h
  exact h

theorem takes_entries (es : List (String × Entry)) : (Codec.entries Entry.layout.codec).Takes es
    (block 1 (es.map fun (k, e) => member k (writeEntry e))) := by
  have hes : ∀ e ∈ es, Entry.layout.codec.TakesMember e.2 (writeEntry e.2) := fun e _ => (takes_writeEntry e.2).member
  cases es with
  | nil => exact Json.takes_entries hes [] [] [] rfl rfl rfl
  | cons e es =>
    have h := Json.takes_entries hes (line 2) [32] (line 1) (line_isBlank 2) rfl (line_isBlank 1)
    have hb := block_eq_spreadObject 1 ((e :: es).map fun (k, e) => (k, writeEntry e))
      (List.cons_ne_nil _ _)
    rw [List.map_map] at hb
    rw [← hb] at h
    exact h

def members (s : Store) : List (String × Bytes) :=
  [("height", Codec.uint64.write s.height),
    ("entries", block 1 (s.entries.toList.map fun (k, e) => member k (writeEntry e)))]

theorem save_eq_spreadObject (s : Store) : save s = spreadObject (line 1) [32] (line 0) (members s) :=
  block_eq_spreadObject 0 (members s) (List.cons_ne_nil _ _)

theorem takes_members (s : Store) : RowTakes layout.fields (layout.toRow s) (members s) :=
  ⟨_, _, rfl, reads_uint64 s.height, _, _, rfl, takes_entries s.entries.toList, rfl⟩

theorem takes_save (s : Store) : layout.codec.Takes s (save s) := by
  have ha : layout.ofRow (layout.toRow s) = s := by
    change (⟨s.height, .ofList s.entries.toList⟩ : Store) = s
    rw [Table.ofList_toList]
  rw [save_eq_spreadObject]
  exact layout.takes_spread (line 1) [32] (line 0) (line_isBlank 1) rfl (line_isBlank 0) (takes_members s)
    (by decide) ha

@[simp] theorem load_save (s : Store) : load (save s) = .ok s := (takes_save s).decode

end Snapshot
end TokenLedger
