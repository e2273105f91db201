import TokenLedger.Proofs.Interleaving

/-! Properties of live values that every operation keeps. An operation works on what its transaction sees,
which may be stale by the time of the commit, but then the commit is refused: a transaction that is
committed could have been carried out on the store as it is. So what operations keep is true of every store
that a session with the contract comes to. -/

namespace TokenLedger

open Live

def Live.Preserved (c : Contract) (P : Table Bytes → Prop) : Prop :=
  ∀ ⦃l : Table Bytes⦄ ⦃op : Operation⦄ ⦃args : List String⦄ ⦃cs : List Change⦄, Coherent l → P l →
    Carried c l op args cs → P (applyAll l cs)

namespace Live.Preserved

variable {c : Contract} {P : Table Bytes → Prop} (hP : Preserved c P)

include hP

section Transaction

variable {s s' : Store} {t : Transaction}

theorem perform {d : Deed} (hd : d.isInvocation) (h : Coherent (t.view s)) (hl : P (t.view s)) :
    P ((d.perform c s t).2.view s) := by
  obtain ⟨role, name, args, rfl⟩ := Deed.invocation_cases hd
  rw [Deed.perform_invoke, Query.view_perform]
  cases he : (c.request role name args).plan.eval (t.view s) with
  | error f => exact hl
  | ok e =>
    obtain ⟨op, -, -, hc⟩ := h.carried_request he
    exact hP h hl hc

theorem performAll {ds : List Deed} (hds : ∀ d ∈ ds, d.isInvocation) (h : Coherent (t.view s))
    (hl : P (t.view s)) : P ((c.performAll s t ds).2.view s) := by
  induction ds generalizing t with
  | nil => exact hl
  | cons d ds ih =>
    have hd := hds d (by simp)
    rw [Contract.performAll_cons]
    exact ih (fun e he => hds e (by simp [he])) (perform_keeps hd h).coherent (hP.perform hd h hl)

theorem commit {es : List Exchange} (hs : s.Sound) (ht : Tracked c s t es) (hcommit : t.commit s = .ok s')
    (hl : P s.live) : P s'.live := by
  rw [Transaction.live_commit (ht.commit_again hs hcommit).1]
  exact hP.performAll ht.deeds hs.coherent hl

end Transaction

theorem step {n : Nat} {x : Session} {j : Journal} (h : Followed c n x j) {a : Step} (ha : a.interleaves)
    (hl : P x.store.live) : P (x.step c a).2.store.live := by
  rcases h.step_cases ha with ⟨hs, -⟩ | ⟨t, es, ht, hs, -⟩
  · rw [hs]
    exact hl
  · exact hP.commit h.sound ht hs hl

/-- So does a session that goes on from a store which has it, with the transactions that are open there. -/
theorem continue_run {as bs : List Step} (h : Contractual c as) (hbs : ∀ b ∈ bs, b.interleaves ∨ b = .reload)
    (hn : (Journal.run c .empty .empty (as ++ bs)).committed.length < UInt64.size)
    (hl : P (Session.run c .empty as).2.store.live) : P (Session.run c .empty (as ++ bs)).2.store.live := by
  induction bs generalizing as with
  | nil => rwa [List.append_nil]
  | cons b bs ih =>
    have hrest : ∀ b ∈ bs, b.interleaves ∨ b = .reload := fun b hb => hbs b (by simp [hb])
    have hshort := Journal.committed_lt_of_earlier (List.prefix_append as (b :: bs)) hn
    rw [List.append_cons] at hn ⊢
    rcases hbs b (by simp) with hb | rfl
    · refine ih (h.step hb) hrest hn ?_
      rw [Session.run_append]
      exact hP.step (h.followed hshort) hb hl
    · refine ih h.reload hrest hn ?_
      rw [Session.run_append]
      simp only [Session.run, Session.step, Session.load, Snapshot.load_save]
      exact hl

end Live.Preserved

/-- A property of live values that is there from the beginning and that every operation keeps. -/
structure Live.Kept (c : Contract) (P : Table Bytes → Prop) : Prop where
  empty : P ∅
  carried : ∀ {l : Table Bytes} {op : Operation} {args : List String} {cs : List Change}, Coherent l → P l →
    Carried c l op args cs → P (applyAll l cs)

namespace Live.Kept

variable {c : Contract} {P : Table Bytes → Prop} (hP : Kept c P)

include hP

theorem preserved : Preserved c P := fun _ _ _ _ h hl hc => hP.carried h hl hc

theorem run {as : List Step} (h : Contractual c as)
    (hn : (Journal.run c .empty .empty as).committed.length < UInt64.size) :
    P (Session.run c .empty as).2.store.live := by
  have hempty : P Store.empty.live := by
    rw [Store.live_empty]
    exact hP.empty
  induction h with
  | nil => exact hempty
  | @step as a h ha ih =>
    have hn := Journal.committed_lt_of_earlier (List.prefix_append as [a]) hn
    rw [Session.run_append]
    exact hP.preserved.step (h.followed hn) ha (ih hn)
  | @reload as h ih =>
    rw [Session.run_append]
    simp only [Session.run, Session.step, Session.load, Snapshot.load_save]
    exact ih (Journal.committed_lt_of_earlier (List.prefix_append as _) hn)
  | @restart as h path ih =>
    rw [Session.run_append]
    exact hempty
  | @load as bs h hb earlier path ih ihb =>
    rw [Session.run_append]
    simp only [Session.run, Session.step, Session.load, Snapshot.load_save]
    exact ihb (Journal.committed_lt_of_earlier (earlier.trans (List.prefix_append as _)) hn)

end Live.Kept
end TokenLedger
