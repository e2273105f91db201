import TokenLedger.Proofs.Scan

/-! What deeds on the store meet. A transaction takes no picture of the store: each of its deeds meets the
store as it is by then. If it can be committed, nothing that it has read was rewritten since, and its deeds
can be done again on the store as it is at the commit. Scans may then find more: nothing is read under a text
without an entry, so others may have put a value there. -/

namespace TokenLedger

def Deed.onStore : Deed → Bool
  | .get _ | .put _ _ | .scan _ _ | .select _ => true
  | .invoke _ _ _ | .call _ => false

def Answer.among (p : String → Bool) : Answer → Answer
  | .hits hs => .hits (hs.filter fun hit => p hit.1.encode)
  | a => a

def Transaction.knows (s : Store) (t : Transaction) (k : String) : Bool :=
  s.entries.contains k || t.writes.contains k

/-- A deed and what it answered, with the store and the transaction that it met. -/
structure Encounter where
  store : Store
  transaction : Transaction
  deed : Deed
  answer : Except Failure Answer

namespace Encounter

/-- An answer to the deed done again. It is the same, but there may be hits under texts that the transaction
did not know. -/
def Agrees (e : Encounter) (a : Except Failure Answer) : Prop :=
  e.answer = a.map (Answer.among (e.transaction.knows e.store))

end Encounter

namespace Store

def Untaken (s : Store) (top : Nat) : Prop := ∀ k, s.version k ≤ s.height ∨ top < (s.version k).toNat

/-- Commits have led from a store to another one, up to some height. They have rewritten entries under texts
of keys with versions of their own and left the others as they were. -/
structure Before (top : Nat) (r s : Store) : Prop where
  untaken : r.Untaken top
  height : r.height ≤ s.height
  entries : ∀ k : String, s.entries[k]? = r.entries[k]? ∨
    r.height < s.version k ∧ (s.version k).toNat ≤ top ∧ ∃ key : Key, key.encode = k

variable {top : Nat} {r s s' : Store}

theorem Untaken.before (h : s.Untaken top) : s.Before top s := ⟨h, UInt64.le_refl _, fun _ => .inl rfl⟩

theorem Before.trans {u : Store} (h : r.Before top s) (hu : s.Before top u) : r.Before top u where
  untaken := h.untaken
  height := UInt64.le_trans h.height hu.height
  entries k := by
    rcases hu.entries k with he | ⟨hv, hle, hk⟩
    · rw [he, version, he]
      exact h.entries k
    · exact .inr ⟨UInt64.lt_of_le_of_lt h.height hv, hle, hk⟩

/-- An entry that has the version that was once read is the one that was there all the time. -/
theorem Before.entry_eq (h : r.Before top s) {k : String} {v : UInt64} (hv : v ≤ r.height ∨ top < v.toNat)
    (hs : s.version k = v) : s.entries[k]? = r.entries[k]? := by
  rcases h.entries k with he | ⟨hnew, hle, -⟩
  · exact he
  · rw [hs] at hnew hle
    rcases hv with hv | hv
    · exact absurd hnew (UInt64.not_lt.mpr hv)
    · omega

/-- A text under which there is an entry at last but was none at first is the text of a key. -/
theorem Before.exists_key (h : r.Before top s) {k : String} (hr : r.entries[k]? = none) (hs : s.entries[k]? ≠ none) :
    ∃ key : Key, key.encode = k := by
  rcases h.entries k with he | ⟨-, -, hk⟩
  · exact absurd (he.trans hr) hs
  · exact hk

section Commit

variable {t : Transaction} (h : s.Untaken top) (hcommit : t.commit s = .ok s')
  (hheight : s.height.toNat + 1 ≤ top) (htop : top < UInt64.size)

include h hcommit hheight htop

theorem Untaken.commit : s'.Untaken top := by
  intro k
  have hle := Transaction.height_le_commit hcommit (by omega)
  rcases Transaction.version_commit_cases hcommit k with ⟨-, he⟩ | ⟨-, he⟩
  · exact .inl (he ▸ UInt64.le_refl _)
  · rw [he]
    exact (h k).imp_left fun hk => UInt64.le_trans hk hle

theorem Untaken.before_commit (hkeys : ∀ k ∈ t.writes, ∃ key : Key, key.encode = k) : s.Before top s' where
  untaken := h
  height := Transaction.height_le_commit hcommit (by omega)
  entries k := by
    rcases Transaction.version_commit_cases hcommit k with ⟨hk, he⟩ | ⟨hk, -⟩
    · have hnext := Transaction.height_lt_commit hcommit (by omega) hk
      exact .inr ⟨he ▸ hnext, he ▸ (Transaction.toNat_height_commit_le hcommit).trans hheight, hkeys k hk⟩
    · left
      rw [Transaction.getElem?_entries_commit hcommit, Std.ExtTreeMap.getElem?_eq_none hk]

end Commit
end Store

section Again

variable {c : Contract} {top : Nat} {r s : Store} {t u : Transaction}

/-- Where a transaction has read, the values under a beginning are the same on a later store, but for those
under texts that were not known. -/
theorem under_view (hw : u.writes = t.writes) (p : String)
    (hread : ∀ k ∈ r.entries, p.toList.isPrefixOf k.toList → s.entries[k]? = r.entries[k]?) :
    Store.under p (t.view r) = (Store.under p (u.view s)).filter fun k _ => t.knows r k := by
  refine Std.ExtTreeMap.ext_getElem? fun k => ?_
  have hknows : t.knows r k = (r.entries[k]?.isSome || t.writes[k]?.isSome) := by
    rw [Transaction.knows, Std.ExtTreeMap.contains_eq_isSome_getElem?, Std.ExtTreeMap.contains_eq_isSome_getElem?]
  rw [Std.ExtTreeMap.getElem?_filter', Store.getElem?_under, Store.getElem?_under]
  by_cases hp : p.toList.isPrefixOf k.toList
  · rw [if_pos hp, if_pos hp]
    cases ht : t.writes[k]? with
    | some w =>
      rw [Transaction.getElem?_view_of_some ht, Transaction.getElem?_view_of_some (hw ▸ ht)]
      cases w <;> simp [Option.filter, hknows, ht]
    | none =>
      rw [Transaction.getElem?_view_of_none ht, Transaction.getElem?_view_of_none (hw ▸ ht), Store.value?_eq,
        Store.value?_eq]
      cases hr : r.entries[k]? with
      | some e =>
        have hk : k ∈ r.entries := Std.ExtTreeMap.mem_iff_isSome_getElem?.mpr (by rw [hr]; rfl)
        rw [hread k hk hp, hr]
        cases hv : e.value <;> simp [Option.filter, hknows, hr, hv]
      | none =>
        cases s.entries[k]?.bind (·.value) <;> simp [Option.filter, hknows, hr, ht]
  · rw [if_neg hp, if_neg hp]
    rfl

theorem exists_key_of_not_knows (h : r.Before top s) (hw : u.writes = t.writes) {p : String}
    {hit : String × Bytes} (hhit : hit ∈ (Store.under p (u.view s)).toList)
    (hknows : t.knows r hit.1 = false) : ∃ k : Key, k.encode = hit.1 := by
  simp only [Transaction.knows, Std.ExtTreeMap.contains_eq_isSome_getElem?, Bool.or_eq_false_iff,
    Option.isSome_eq_false_iff, Option.isNone_iff_eq_none] at hknows
  obtain ⟨hr, ht⟩ := hknows
  have hv := Std.ExtTreeMap.mem_toList_iff_getElem?_eq_some.mp hhit
  rw [Store.getElem?_under] at hv
  split at hv
  · rw [Transaction.getElem?_view_of_none (hw ▸ ht), Store.value?_eq] at hv
    refine h.exists_key hr fun hs => ?_
    rw [hs] at hv
    cases hv
  · cases hv

theorem eval_get_again (hw : u.writes = t.writes) (k : Key)
    (hread : ∀ j ∈ ((Query.get k).run r t).2.reads, s.entries[j]? = r.entries[j]?) :
    (Query.get k).eval (t.view r) = (Query.get k).eval (u.view s) := by
  rw [Query.eval_get, Query.eval_get]
  cases ht : t.writes[k.encode]? with
  | some w => rw [Transaction.getElem?_view_of_some ht, Transaction.getElem?_view_of_some (hw ▸ ht)]
  | none =>
    have hk : k.encode ∈ ((Query.get k).run r t).2.reads := Query.mem_reads_of_looks (.inl rfl) ht
    rw [Transaction.getElem?_view_of_none ht, Transaction.getElem?_view_of_none (hw ▸ ht), Store.value?_eq,
      Store.value?_eq, hread _ hk]

theorem eval_scan_again (h : r.Before top s) (hw : u.writes = t.writes) (ns : Namespace) (components : List String)
    (hread : ∀ k ∈ r.entries, (Key.scanPrefix ⟨ns, components⟩).toList.isPrefixOf k.toList →
      s.entries[k]? = r.entries[k]?) :
    (Query.scan ns components).eval (t.view r) = ((Query.scan ns components).eval (u.view s)).map fun hits =>
      hits.filter fun hit => t.knows r hit.1.encode := by
  rw [Live.eval_scan, Live.eval_scan, under_view hw _ hread, Std.ExtTreeMap.toList_filter]
  exact Live.spelled_filter fun hit hhit hknows => exists_key_of_not_knows h hw hhit hknows

theorem Deed.again {d : Deed} (hd : d.onStore) (h : r.Before top s) (hw : u.writes = t.writes)
    (hread : ∀ k ∈ (d.perform c r t).2.reads, s.entries[k]? = r.entries[k]?) :
    (d.perform c s u).2.writes = (d.perform c r t).2.writes ∧
      Encounter.Agrees ⟨r, t, d, (d.perform c r t).1⟩ (d.perform c s u).1 := by
  have hwrites {α : Type} (q : Query α) : (q.run s u).2.writes = (q.run r t).2.writes := by
    rw [Query.writes_run, Query.writes_run, hw]
  cases d with
  | invoke | call => cases hd
  | put k v =>
    refine ⟨?_, rfl⟩
    simp [perform, Transaction.put, hw]
  | get k =>
    refine ⟨hwrites (Query.get k), ?_⟩
    simp only [Encounter.Agrees, perform, Query.run_fst, eval_get_again hw k hread]
    rfl
  | scan ns components =>
    refine ⟨hwrites (Query.scan ns components), ?_⟩
    have hsame := eval_scan_again h hw ns components fun k hk hp =>
      hread k (Query.mem_reads_of_ranges (q := Query.scan ns components) (.inl rfl) hp hk)
    simp only [Encounter.Agrees, perform, Query.run_fst, hsame]
    cases (Query.scan ns components).eval (u.view s) <;> rfl
  | select sel =>
    refine ⟨hwrites (Query.select sel), ?_⟩
    have hsame := eval_scan_again h hw sel.ns [] fun k hk hp =>
      hread k (Query.mem_reads_of_ranges (q := Query.select sel) (.inl rfl) hp hk)
    simp only [Encounter.Agrees, perform, Query.run_fst, Live.eval_select, hsame]
    cases (Query.scan sel.ns []).eval (u.view s) with
    | error f => rfl
    | ok hits => simp [Except.map, Answer.among, List.filter_filter, Bool.and_comm]

end Again

theorem Deed.writes_cases {c : Contract} {s : Store} {t : Transaction} {d : Deed} (hd : d.onStore) :
    (d.perform c s t).2.writes = t.writes ∨
      ∃ (k : Key) (v : Option Bytes), (d.perform c s t).2.writes = t.writes.insert k.encode v := by
  cases d with
  | invoke | call => cases hd
  | put k v => exact .inr ⟨k, v, rfl⟩
  | get k => exact .inl ((Query.get k).writes_run s t)
  | scan ns components => exact .inl ((Query.scan ns components).writes_run s t)
  | select sel => exact .inl ((Query.select sel).writes_run s t)

inductive Traced (c : Contract) (top : Nat) : List Encounter → Transaction → Prop
  | nil : Traced c top [] .empty
  | snoc {es : List Encounter} {s : Store} {t : Transaction} {d : Deed} (h : Traced c top es t) (hd : d.onStore)
      (hs : s.Untaken top) (earlier : ∀ e ∈ es, e.store.Before top s) :
      Traced c top (es ++ [⟨s, t, d, (d.perform c s t).1⟩]) (d.perform c s t).2

namespace Traced

variable {c : Contract} {top : Nat} {es : List Encounter} {s s' : Store} {t : Transaction}

theorem exists_key (h : Traced c top es t) : ∀ k ∈ t.writes, ∃ key : Key, key.encode = k := by
  induction h with
  | nil => exact fun k hk => absurd hk Std.ExtTreeMap.not_mem_empty
  | snoc h hd hs earlier ih =>
    intro k hk
    rcases Deed.writes_cases hd with hw | ⟨key, v, hw⟩
    · exact ih k (hw ▸ hk)
    · rw [hw, Std.ExtTreeMap.mem_insert, Std.compare_eq_iff_eq] at hk
      exact hk.elim (fun he => ⟨key, he⟩) (ih k)

theorem untaken (h : Traced c top es t) (hs : ∀ e ∈ es, e.store.Before top s) {k : String} {v : UInt64}
    (hv : t.reads[k]? = some v) : v ≤ s.height ∨ top < v.toNat := by
  induction h with
  | nil => simp [Transaction.empty] at hv
  | @snoc es r t d h hd hr earlier ih =>
    rcases Deed.reads_perform_cases hv with hv | rfl
    · exact ih (fun e he => hs e (by simp [he])) hv
    · exact (hr k).imp_left fun hle => UInt64.le_trans hle (hs ⟨r, t, d, (d.perform c r t).1⟩ (by simp)).height

theorem again (h : Traced c top es t) (hs : ∀ e ∈ es, e.store.Before top s) (hcurrent : t.stale? s = none) :
    (c.performAll s .empty (es.map Encounter.deed)).2.writes = t.writes ∧
      List.Forall₂ Encounter.Agrees es (c.performAll s .empty (es.map Encounter.deed)).1 := by
  induction h with
  | nil => exact ⟨rfl, .nil⟩
  | @snoc es r t d h hd hr earlier ih =>
    have hlast : r.Before top s := hs ⟨r, t, d, (d.perform c r t).1⟩ (by simp)
    have hread : ∀ k ∈ (d.perform c r t).2.reads, s.entries[k]? = r.entries[k]? := by
      intro k hk
      obtain ⟨v, hv⟩ := Option.isSome_iff_exists.mp (Std.ExtTreeMap.mem_iff_isSome_getElem?.mp hk)
      have hmet : ∀ e ∈ es ++ [⟨r, t, d, (d.perform c r t).1⟩], e.store.Before top r := by
        intro e he
        rcases List.mem_append.mp he with he | he
        · exact earlier e he
        · rw [List.mem_singleton.mp he]
          exact hr.before
      refine hlast.entry_eq ((h.snoc hd hr earlier).untaken hmet hv) ?_
      exact Transaction.stale?_eq_none.mp hcurrent k v hv
    obtain ⟨hw, hanswers⟩ := ih (fun e he => hs e (by simp [he])) (Deed.stale?_of_perform hcurrent)
    obtain ⟨hw, hanswer⟩ := Deed.again hd hlast hw hread
    rw [List.map_append, List.map_singleton, Contract.performAll_append]
    exact ⟨hw, List.rel_append hanswers (.cons hanswer .nil)⟩

theorem commit_again (h : Traced c top es t) (hs : ∀ e ∈ es, e.store.Before top s)
    (hcommit : t.commit s = .ok s') :
    (c.performAll s .empty (es.map Encounter.deed)).2.commit s = .ok s' ∧
      List.Forall₂ Encounter.Agrees es (c.performAll s .empty (es.map Encounter.deed)).1 := by
  obtain ⟨hw, hanswers⟩ := h.again hs (Transaction.commit_eq_ok.mp hcommit).1
  refine ⟨Transaction.commit_congr ?_ hw hcommit, hanswers⟩
  exact c.stale?_performAll _ (Transaction.stale?_empty s)

end Traced
end TokenLedger
