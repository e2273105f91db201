import TokenLedger.Proofs.Commit

/-! What a deed within a transaction keeps of the store and what it depends on. It keeps versions of the
store and never another one for a key that was read before; its answer and its writes depend on the store and
the pending writes, and not on what was read. -/

namespace TokenLedger

namespace Transaction

theorem note_note (t : Transaction) (v w : Table UInt64) : (t.note v).note w = t.note (w ∪ v) := by
  have h : w ∪ (v ∪ t.reads) = w ∪ v ∪ t.reads := by
    refine Std.ExtTreeMap.ext_getElem? fun k => ?_
    simp only [Std.ExtTreeMap.getElem?_union, Option.or_assoc]
  simp only [note, h]

theorem note_empty (t : Transaction) : t.note ∅ = t := by
  have h : (∅ : Table UInt64) ∪ t.reads = t.reads := by
    refine Std.ExtTreeMap.ext_getElem? fun k => ?_
    simp [Std.ExtTreeMap.getElem?_union]
  simp only [note, h]

end Transaction

namespace Query

variable {α : Type}

/-- The versions that a question keeps under some pending writes, if nothing was read before it. -/
def kept (s : Store) (writes : Table (Option Bytes)) : Query α → Table UInt64
  | .answer _ => ∅
  | .fail _ => ∅
  | .look k next =>
    match writes[k]? with
    | some w => (next w).kept s writes
    | none => (next (s.value? k)).kept s writes ∪ (∅ : Table UInt64).insert k (s.version k)
  | .range p next =>
    (next (Store.under p (Transaction.view s ⟨∅, writes⟩)).toList).kept s writes ∪
      (Store.under p s.entries).map fun _ e => e.version

theorem run_snd (q : Query α) (s : Store) (t : Transaction) :
    (q.run s t).2 = t.note (q.kept s t.writes) := by
  induction q generalizing t with
  | answer a => exact t.note_empty.symm
  | fail f => exact t.note_empty.symm
  | look k next ih =>
    rw [run, kept]
    cases hw : t.writes[k]? with
    | some w => exact ih w t
    | none =>
      dsimp only
      rw [ih, Transaction.note_note]
      rfl
  | range p next ih =>
    rw [run, kept, ih, Transaction.note_note]
    rfl

theorem kept_eq_some {q : Query α} {s : Store} {writes : Table (Option Bytes)} {k : String} {v : UInt64}
    (h : (q.kept s writes)[k]? = some v) : v = s.version k := by
  have hrun := run_snd q s ⟨∅, writes⟩
  have hk : (q.run s ⟨∅, writes⟩).2.reads[k]? = some v := by
    rw [hrun, Transaction.getElem?_reads_note]
    simpa using h
  simpa using reads_run_cases q hk

end Query

namespace Deed

def kept (c : Contract) (s : Store) (writes : Table (Option Bytes)) : Deed → Table UInt64
  | .invoke role name args => (c.request role name args).plan.kept s writes
  | .call d => d.action.plan.kept s writes
  | .get k => (Query.get k).kept s writes
  | .put _ _ => ∅
  | .scan ns components => (Query.scan ns components).kept s writes
  | .select sel => (Query.select sel).kept s writes

section Perform

variable {c : Contract} {s : Store} {t u : Transaction} {d : Deed} {k : String} {v : UInt64}

theorem getElem?_reads_perform (k : String) :
    (d.perform c s t).2.reads[k]? = t.reads[k]?.or (d.kept c s t.writes)[k]? := by
  have hp {α : Type} (q : Query (Effect α)) :
      (q.perform s t).2.reads[k]? = t.reads[k]?.or (q.kept s t.writes)[k]? := by
    rw [Query.reads_perform, Query.run_snd, Transaction.getElem?_reads_note]
  have hr {α : Type} (q : Query α) :
      (q.run s t).2.reads[k]? = t.reads[k]?.or (q.kept s t.writes)[k]? := by
    rw [Query.run_snd, Transaction.getElem?_reads_note]
  cases d with
  | invoke role name args =>
    rw [perform_invoke]
    exact hp (c.request role name args).plan
  | call d =>
    rw [perform_call]
    exact hp d.action.plan
  | get j => exact hr (Query.get j)
  | put j v => simp [perform, kept, Transaction.put]
  | scan ns components => exact hr (Query.scan ns components)
  | select sel => exact hr (Query.select sel)

theorem kept_eq_some {writes : Table (Option Bytes)} (h : (d.kept c s writes)[k]? = some v) : v = s.version k := by
  cases d with
  | put j w => simp [kept] at h
  | invoke | call | get | scan | select => exact Query.kept_eq_some h

theorem perform_congr (h : u.writes = t.writes) :
    (d.perform c s u).1 = (d.perform c s t).1 ∧ (d.perform c s u).2.writes = (d.perform c s t).2.writes := by
  have hview := Transaction.view_congr (s := s) h
  have hp {α : Type} (q : Query (Effect α)) : (q.perform s u).1 = (q.perform s t).1 ∧
      (q.perform s u).2.writes = (q.perform s t).2.writes :=
    Query.perform_congr (by rw [hview]) h
  have hr {α : Type} (q : Query α) (f : α → Answer) : (q.run s u).1.map f = (q.run s t).1.map f ∧
      (q.run s u).2.writes = (q.run s t).2.writes := by
    rw [Query.run_fst, Query.run_fst, hview, Query.writes_run, Query.writes_run, h]
    exact ⟨rfl, rfl⟩
  cases d with
  | invoke role name args =>
    rw [perform_invoke, perform_invoke]
    obtain ⟨hanswer, hwrites⟩ := hp (c.request role name args).plan
    exact ⟨congrArg (Except.map Answer.payload) hanswer, hwrites⟩
  | call d =>
    rw [perform_call, perform_call]
    exact hp d.action.plan
  | get j => exact hr (Query.get j) .value
  | put j v => exact ⟨rfl, by simp [perform, Transaction.put, h]⟩
  | scan ns components => exact hr (Query.scan ns components) .hits
  | select sel => exact hr (Query.select sel) .hits

theorem reads_perform_of_reads (h : t.reads[k]? = some v) : (d.perform c s t).2.reads[k]? = some v := by
  rw [getElem?_reads_perform, h, Option.some_or]

theorem reads_perform_cases (h : (d.perform c s t).2.reads[k]? = some v) :
    t.reads[k]? = some v ∨ v = s.version k := by
  rw [getElem?_reads_perform, Option.or_eq_some_iff] at h
  rcases h with h | ⟨-, h⟩
  · exact .inl h
  · exact .inr (kept_eq_some h)

theorem stale?_of_perform {r : Store} (h : (d.perform c s t).2.stale? r = none) : t.stale? r = none := by
  rw [Transaction.stale?_eq_none] at h ⊢
  exact fun k v hv => h k v (reads_perform_of_reads hv)

end Perform
end Deed

theorem Contract.stale?_performAll (c : Contract) {s : Store} {t : Transaction} (ds : List Deed)
    (h : t.stale? s = none) : (c.performAll s t ds).2.stale? s = none := by
  induction ds generalizing t with
  | nil => exact h
  | cons d ds ih =>
    rw [performAll_cons]
    refine ih ?_
    rw [Transaction.stale?_eq_none] at h ⊢
    intro k v hv
    rcases Deed.reads_perform_cases hv with hv | rfl
    · exact h k v hv
    · rfl

theorem Transaction.stale?_empty (s : Store) : Transaction.empty.stale? s = none := by
  rw [stale?_eq_none]
  intro k v hv
  simp [empty] at hv

def Live.after {α : Type} (q : Query (Effect α)) (l : Table Bytes) : Table Bytes :=
  match q.eval l with
  | .ok e => applyAll l e.changes
  | .error _ => l

namespace Contract

variable {c : Contract} {s : Store} {role : Option Role} {name : String} {args : List String}

theorem execute_cases (c : Contract) (s : Store) (role : Option Role) (name : String) (args : List String) :
    (∃ f, c.execute s role name args = (.error f, s)) ∨
      ∃ (b : Bytes) (t : Transaction) (s' : Store),
        c.execute s role name args = (.ok b, s') ∧ t.commit s = .ok s' := by
  rw [execute]
  rcases c.invoke s .empty role name args with ⟨r, t⟩
  cases r with
  | error f => exact .inl ⟨f, rfl⟩
  | ok b =>
    dsimp only
    cases ht : t.commit s with
    | error f => exact .inl ⟨f, rfl⟩
    | ok s' => exact .inr ⟨b, t, s', rfl, ht⟩

/-- An execution answers and changes what the request does on the live values of the store. -/
theorem execute_eq_ok {e : Effect Bytes} (he : (c.request role name args).plan.eval s.live = .ok e) :
    ∃ s', c.execute s role name args = (.ok e.answer, s') ∧ s'.live = Live.applyAll s.live e.changes := by
  obtain ⟨s', hcommit, hlive⟩ := Query.commit_perform_empty he
  have hanswer := Query.answer_perform_empty (c.request role name args).plan s
  rw [he] at hanswer
  rw [execute, invoke_eq]
  generalize (c.request role name args).plan.perform s .empty = p at hcommit hanswer
  obtain ⟨r, t⟩ := p
  cases hanswer
  dsimp only at hcommit ⊢
  rw [hcommit]
  exact ⟨s', rfl, hlive⟩

/-- An execution answers what the request does, and leaves what it leaves of the live values. -/
theorem execute_eq (c : Contract) (s : Store) (role : Option Role) (name : String) (args : List String) :
    (c.execute s role name args).1 = ((c.request role name args).plan.eval s.live).map Effect.answer ∧
      (c.execute s role name args).2.live = Live.after (c.request role name args).plan s.live := by
  have hlive : (c.request role name args).plan.eval (Transaction.empty.view s) =
      (c.request role name args).plan.eval s.live := rfl
  rw [Live.after]
  cases he : (c.request role name args).plan.eval s.live with
  | error f =>
    rw [execute, invoke_eq, Query.perform_eq, hlive, he]
    exact ⟨rfl, rfl⟩
  | ok e =>
    obtain ⟨s', hs', hlive⟩ := execute_eq_ok he
    rw [hs']
    exact ⟨rfl, hlive⟩

end Contract

end TokenLedger
