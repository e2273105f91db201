import TokenLedger.Proofs.Journal

/-! Commits. A transaction is committed if each entry that it has read still has the version that it had,
and then the store shows to everyone what the transaction saw. -/

namespace TokenLedger

namespace Store

def live (s : Store) : Table Bytes := Transaction.empty.view s

@[simp] theorem getElem?_live (s : Store) (k : String) : s.live[k]? = s.value? k :=
  Transaction.getElem?_view_empty s k

@[simp] theorem live_empty : Store.empty.live = ∅ := by
  refine Std.ExtTreeMap.ext_getElem? fun k => ?_
  simp [value?_eq, empty]

/-- The version of a commit is new, unless the heights are used up. -/
theorem lt_next {s : Store} (hh : s.height.toNat + 1 < UInt64.size) {v : UInt64} (hv : v ≤ s.height) :
    v < s.height + 1 := by
  have hv := UInt64.le_iff_toNat_le.mp hv
  have hsucc : (s.height + 1).toNat = s.height.toNat + 1 := by
    rw [UInt64.toNat_add]
    exact Nat.mod_eq_of_lt hh
  exact UInt64.lt_iff_toNat_lt.mpr (by omega)

end Store

namespace Transaction

variable {s s' : Store} {t u : Transaction}

theorem stale?_eq_none : t.stale? s = none ↔ ∀ k v, t.reads[k]? = some v → s.version k = v := by
  rw [stale?, Option.map_eq_none_iff, List.find?_eq_none]
  constructor
  · intro h k v hv
    simpa using h (k, v) (Std.ExtTreeMap.mem_toList_iff_getElem?_eq_some.mpr hv)
  · rintro h ⟨k, v⟩ hp
    simpa using h k v (Std.ExtTreeMap.mem_toList_iff_getElem?_eq_some.mp hp)

theorem commit_eq_ok : t.commit s = .ok s' ↔ t.stale? s = none ∧
    s' = if t.writes.isEmpty then s
      else ⟨s.height + 1, s.entries ∪ t.writes.map fun _ v => ⟨s.height + 1, v⟩⟩ := by
  rw [commit]
  cases t.stale? s with
  | some k => simp
  | none =>
    simp only [true_and]
    split
    · rw [Except.ok.injEq, eq_comm]
    · rw [Except.ok.injEq, eq_comm]

theorem commit_congr (hu : u.stale? s = none) (hw : u.writes = t.writes) (h : t.commit s = .ok s') :
    u.commit s = .ok s' := by
  rw [commit_eq_ok] at h ⊢
  rw [hw]
  exact ⟨hu, h.2⟩

theorem isEmpty_writes {k : String} (hk : k ∈ t.writes) : t.writes.isEmpty = false := by
  rw [Std.ExtTreeMap.isEmpty_eq_false_iff]
  intro he
  rw [he] at hk
  exact Std.ExtTreeMap.not_mem_empty hk

section Commit

variable (h : t.commit s = .ok s')

include h

theorem height_commit : s'.height = if t.writes.isEmpty then s.height else s.height + 1 := by
  rw [(commit_eq_ok.mp h).2]
  split <;> rfl

theorem toNat_height_commit_le : s'.height.toNat ≤ s.height.toNat + 1 := by
  rw [height_commit h]
  split
  · exact Nat.le_succ _
  · rw [UInt64.toNat_add]
    exact Nat.mod_le _ _

theorem getElem?_entries_commit (k : String) : s'.entries[k]? =
    match t.writes[k]? with
    | some v => some ⟨s.height + 1, v⟩
    | none => s.entries[k]? := by
  rw [(commit_eq_ok.mp h).2]
  split
  · rename_i he
    have hk : t.writes[k]? = none := by
      rw [Std.ExtTreeMap.isEmpty_iff.mp he]
      exact Std.ExtTreeMap.getElem?_empty
    rw [hk]
  · rw [Std.ExtTreeMap.getElem?_union, Std.ExtTreeMap.getElem?_map]
    cases t.writes[k]? <;> rfl

theorem live_commit : s'.live = t.view s := by
  refine Std.ExtTreeMap.ext_getElem? fun k => ?_
  rw [Store.getElem?_live, Store.value?_eq, getElem?_entries_commit h, getElem?_view]
  cases t.writes[k]? <;> rfl

theorem version_commit (k : String) :
    s'.version k = if k ∈ t.writes then s.height + 1 else s.version k := by
  have hk := Std.ExtTreeMap.mem_iff_isSome_getElem? (t := t.writes) (a := k)
  rw [Store.version, getElem?_entries_commit h]
  cases hw : t.writes[k]? with
  | some v => rw [if_pos (hk.mpr (by rw [hw]; rfl))]
  | none =>
    rw [if_neg fun hm => by simpa [hw] using hk.mp hm]
    rfl

/-- What is written has the height of the store as its version, and nothing else has a new one. -/
theorem version_commit_cases (k : String) :
    k ∈ t.writes ∧ s'.version k = s'.height ∨ k ∉ t.writes ∧ s'.version k = s.version k := by
  rw [version_commit h, height_commit h]
  by_cases hk : k ∈ t.writes
  · simp [hk, isEmpty_writes hk]
  · simp [hk]

variable (hh : s.height.toNat + 1 < UInt64.size)

include hh

theorem height_le_commit : s.height ≤ s'.height := by
  rw [height_commit h]
  split
  · exact UInt64.le_refl _
  · exact UInt64.le_of_lt (Store.lt_next hh (UInt64.le_refl _))

theorem height_lt_commit {k : String} (hk : k ∈ t.writes) : s.height < s'.height := by
  rw [height_commit h, isEmpty_writes hk]
  exact Store.lt_next hh (UInt64.le_refl _)

end Commit

theorem writes_applyAll_congr (h : u.writes = t.writes) (cs : List Change) :
    (u.applyAll cs).writes = (t.applyAll cs).writes := by
  induction cs generalizing t u with
  | nil => exact h
  | cons c cs ih =>
    rw [applyAll_cons, applyAll_cons]
    refine ih ?_
    rw [apply, apply, put, put, h]

theorem getElem?_writes_applyAll {cs : List Change} {k : String} (hk : ∀ c ∈ cs, c.key.encode ≠ k) :
    (t.applyAll cs).writes[k]? = t.writes[k]? := by
  induction cs generalizing t with
  | nil => rfl
  | cons c cs ih =>
    have hc : ¬ c.key.encode = k := hk c (by simp)
    rw [applyAll_cons, ih fun d hd => hk d (by simp [hd])]
    change (t.writes.insert c.key.encode c.document)[k]? = _
    rw [Std.ExtTreeMap.getElem?_insert, if_neg (by simpa using hc)]

end Transaction

theorem eq_ok_of_isOk {α β : Type} {p : Except Failure α × β} (h : p.1.isOk) : ∃ a, p = (.ok a, p.2) := by
  obtain ⟨r, t⟩ := p
  cases r with
  | ok a => exact ⟨a, rfl⟩
  | error f => cases h

namespace Query

variable {α : Type} (q : Query (Effect α)) (s : Store) (t : Transaction)

theorem perform_eq : q.perform s t =
    match q.eval (t.view s) with
    | .ok e => (.ok e.answer, (q.run s t).2.applyAll e.changes)
    | .error f => (.error f, (q.run s t).2) := by
  rw [perform, ← run_fst]
  cases h : q.run s t with
  | mk r t' => cases r <;> rfl

theorem answer_perform_empty : (q.perform s .empty).1 = (q.eval s.live).map Effect.answer := by
  rw [perform_eq]
  change (match q.eval s.live with | .ok e => _ | .error f => _ : Except Failure α × Transaction).1 = _
  cases q.eval s.live <;> rfl

theorem perform_eq_error {f : Failure} : (q.perform s t).1 = .error f ↔ q.eval (t.view s) = .error f := by
  rw [perform_eq]
  cases q.eval (t.view s) <;> simp

theorem view_perform (r : Store) : (q.perform s t).2.view r =
    match q.eval (t.view s) with
    | .ok e => Live.applyAll (t.view r) e.changes
    | .error _ => t.view r := by
  have hv : (q.run s t).2.view r = t.view r := Transaction.view_congr (writes_run q s t)
  rw [perform_eq]
  cases q.eval (t.view s) with
  | ok e => rw [← hv, Live.view_applyAll]
  | error f => exact hv

@[simp] theorem reads_perform : (q.perform s t).2.reads = (q.run s t).2.reads := by
  rw [perform_eq]
  cases q.eval (t.view s) with
  | ok e => exact Transaction.reads_applyAll _ _
  | error f => rfl

variable {q s t}

/-- What an operation that succeeds answers, and what it leaves pending. -/
theorem perform_eq_ok {a : α} {u : Transaction} (h : q.perform s t = (.ok a, u)) : ∃ e,
    q.eval (t.view s) = .ok e ∧ e.answer = a ∧ u.writes = (t.applyAll e.changes).writes ∧
      u.view s = Live.applyAll (t.view s) e.changes := by
  rw [perform_eq] at h
  cases he : q.eval (t.view s) with
  | error f =>
    rw [he] at h
    cases h
  | ok e =>
    rw [he] at h
    obtain ⟨hanswer, rfl⟩ := Prod.mk.inj h
    have hwrites := Transaction.writes_applyAll_congr (writes_run q s t) e.changes
    refine ⟨e, rfl, Except.ok.inj hanswer, hwrites, ?_⟩
    rw [Transaction.view_congr hwrites, Live.view_applyAll]

/-- What a new transaction has read is still there when it is committed at once. -/
theorem stale?_of_reads {r : Query α} (h : t.reads = (r.run s .empty).2.reads) : t.stale? s = none := by
  refine Transaction.stale?_eq_none.mpr fun k v hv => ?_
  rw [h] at hv
  rcases r.reads_run_cases hv with hv | hv
  · cases Std.ExtTreeMap.getElem?_empty.symm.trans hv
  · exact hv.symm

theorem commit_perform_empty {e : Effect α} (he : q.eval s.live = .ok e) :
    ∃ s', (q.perform s .empty).2.commit s = .ok s' ∧ s'.live = Live.applyAll s.live e.changes := by
  have hfresh : (q.perform s .empty).2.stale? s = none := stale?_of_reads (reads_perform q s .empty)
  have hcommit := Transaction.commit_eq_ok.mpr ⟨hfresh, rfl⟩
  refine ⟨_, hcommit, ?_⟩
  rw [Transaction.live_commit hcommit, view_perform, show q.eval (Transaction.empty.view s) = .ok e from he]
  rfl

/-- What an operation answers and writes depends on what it answers to what is seen. -/
theorem perform_map {β : Type} {p : Query (Effect β)} {f : α → β} {r : Store} {u : Transaction}
    (he : p.eval (u.view r) = (q.eval (t.view s)).map (Effect.map f)) (hw : u.writes = t.writes) :
    (p.perform r u).1 = (q.perform s t).1.map f ∧ (p.perform r u).2.writes = (q.perform s t).2.writes := by
  have hr : (p.run r u).2.writes = (q.run s t).2.writes := by rw [writes_run, writes_run, hw]
  rw [perform_eq, perform_eq, he]
  cases q.eval (t.view s) with
  | ok e => exact ⟨rfl, Transaction.writes_applyAll_congr hr e.changes⟩
  | error f => exact ⟨rfl, hr⟩

theorem perform_congr {r : Store} {u : Transaction} (he : q.eval (u.view r) = q.eval (t.view s))
    (hw : u.writes = t.writes) :
    (q.perform r u).1 = (q.perform s t).1 ∧ (q.perform r u).2.writes = (q.perform s t).2.writes := by
  have hid {β : Type} (x : Except Failure β) : x.map id = x := by cases x <;> rfl
  have hmap := perform_map (f := id) (he.trans (hid _).symm) hw
  rwa [hid] at hmap

end Query

section WritesLast

variable {α : Type} {a : Action α} (h : a.WritesLast) (s : Store) (t : Transaction)

include h

theorem Action.WritesLast.answer_perform_empty : (a.perform s .empty).1 = (a.plan.eval s.live).map Effect.answer := by
  rw [h.perform_eq, Query.answer_perform_empty]

theorem Action.WritesLast.perform_eq_error {f : Failure} :
    (a.perform s t).1 = .error f ↔ a.plan.eval (t.view s) = .error f := by
  rw [h.perform_eq, Query.perform_eq_error]

end WritesLast

end TokenLedger
