import TokenLedger.Proofs.Commit
import TokenLedger.Proofs.Conservation
import TokenLedger.Proofs.Snapshot

/-! What a transaction sees is coherent, even if it is stale by then: stores and pending writes are made of
the same changes. -/

namespace TokenLedger

open Live

/-- A coherent store under coherent writes. Writes are looked at over an empty store. -/
theorem Transaction.coherent_view {s : Store} {t : Transaction} (hs : Coherent s.live)
    (ht : Coherent (t.view .empty)) : Coherent (t.view s) := by
  intro k b hb
  cases hw : t.writes[k]? with
  | some w =>
    refine ht k b ?_
    rw [getElem?_view_of_some hw] at hb ⊢
    exact hb
  | none =>
    refine hs k b ?_
    rw [getElem?_view_of_none hw] at hb
    rw [Store.getElem?_live, hb]

theorem Transaction.coherent_empty : Coherent (Transaction.empty.view .empty) := by
  rw [show Transaction.empty.view .empty = Store.empty.live from rfl, Store.live_empty]
  exact Live.coherent_empty

theorem coherent_perform {c : Contract} {s : Store} {t : Transaction} {d : Deed} (hd : d.isInvocation)
    (hs : Coherent s.live) (ht : Coherent (t.view .empty)) : Coherent ((d.perform c s t).2.view .empty) := by
  obtain ⟨role, name, args, rfl⟩ := Deed.invocation_cases hd
  have hview := Transaction.coherent_view hs ht
  rw [Deed.perform_invoke, Query.view_perform]
  cases he : (c.request role name args).plan.eval (t.view s) with
  | error f => exact ht
  | ok e =>
    obtain ⟨op, -, -, hc⟩ := hview.carried_request he
    exact ht.changes (hc.plain hview)

structure Session.Coherent (x : Session) : Prop where
  store : Live.Coherent x.store.live
  opened : ∀ tx, Live.Coherent ((x.transaction tx).view .empty)

namespace Session.Coherent

variable {c : Contract} {x : Session} (h : x.Coherent)

include h

theorem view (tx : String) : Live.Coherent ((x.transaction tx).view x.store) :=
  Transaction.coherent_view h.store (h.opened tx)

theorem insert (tx : String) {t : Transaction} (ht : Live.Coherent (t.view .empty)) :
    Coherent { x with opened := x.opened.insert tx t } where
  store := h.store
  opened y := by
    rw [Session.transaction, Std.ExtTreeMap.getElem?_insert]
    split
    · exact ht
    · exact h.opened y

theorem erase (tx : String) : Coherent { x with opened := x.opened.erase tx } where
  store := h.store
  opened y := by
    rw [Session.transaction, Std.ExtTreeMap.getElem?_erase]
    split
    · exact Transaction.coherent_empty
    · exact h.opened y

theorem commit {t : Transaction} (ht : Live.Coherent (t.view .empty)) {s : Store}
    (hs : t.commit x.store = .ok s) : Coherent { x with store := s } where
  store := by
    change Live.Coherent s.live
    rw [Transaction.live_commit hs]
    exact Transaction.coherent_view h.store ht
  opened := h.opened

theorem step {a : Step} (ha : a.interleaves) : (x.step c a).2.Coherent := by
  cases a with
  | begin tx => exact h.insert tx Transaction.coherent_empty
  | drop tx => exact h.erase tx
  | committed | save => exact h
  | reload | load => cases ha
  | commit tx =>
    rw [Session.step]
    cases hs : (x.transaction tx).commit x.store with
    | error f => exact h.erase tx
    | ok s => exact (h.commit (h.opened tx) hs).erase tx
  | run tx d =>
    cases tx with
    | some tx => exact h.insert tx (coherent_perform ha h.store (h.opened tx))
    | none =>
      rw [Session.step]
      rcases x.alone_cases c d with ⟨a, s, -, hs, he⟩ | ⟨f, he⟩
      · rw [he]
        exact h.commit (coherent_perform ha h.store Transaction.coherent_empty) hs
      · rw [he]
        exact h

end Session.Coherent

theorem Session.coherent_store {s : Store} (hs : Live.Coherent s.live) : Session.Coherent ⟨s, ∅⟩ where
  store := hs
  opened tx := by
    rw [show Session.transaction ⟨s, ∅⟩ tx = .empty by simp [Session.transaction]]
    exact Transaction.coherent_empty

/-- Sessions with a contract are coherent at all times. -/
theorem Contractual.coherent {c : Contract} {as : List Step} (h : Contractual c as) :
    (Session.run c .empty as).2.Coherent := by
  have hempty : Live.Coherent Store.empty.live := by
    rw [Store.live_empty]
    exact coherent_empty
  induction h with
  | nil => exact Session.coherent_store hempty
  | step h ha ih =>
    rw [Session.run_append]
    exact ih.step ha
  | reload h ih =>
    rw [Session.run_append]
    simp only [Session.run, Session.step, Session.load, Snapshot.load_save]
    exact Session.coherent_store ih.store
  | restart h path ih =>
    rw [Session.run_append]
    exact Session.coherent_store hempty
  | load h hb earlier path ih ihb =>
    rw [Session.run_append]
    simp only [Session.run, Session.step, Session.load, Snapshot.load_save]
    exact Session.coherent_store ihb.store

theorem Contract.Reaches.coherent {c : Contract} {x : Session} (h : c.Reaches x) : x.Coherent := by
  obtain ⟨as, has, rfl⟩ := h
  exact has.coherent

end TokenLedger
