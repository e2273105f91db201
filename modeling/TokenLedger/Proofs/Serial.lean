import TokenLedger.Proofs.Conservation
import TokenLedger.Proofs.Deed

/-! Why transactions that invoke the contract can be repeated. Listing a token and describing it anew go
through all balances, and versions are kept only of balances that are there. That nobody has come to hold
the token since then follows from the record of the token, whose version is kept as well: as long as it is
not rewritten, the same amount circulates. -/

namespace TokenLedger

open Live

structure Store.Sound (s : Store) : Prop where
  coherent : Coherent s.live
  conserved : Conserved s.live
  versions : ∀ k, s.version k ≤ s.height

theorem Store.sound_empty : Store.empty.Sound where
  coherent := by
    rw [Store.live_empty]
    exact coherent_empty
  conserved := by
    rw [Store.live_empty]
    exact conserved_empty
  versions k := by simp [Store.version, Store.empty]

namespace Transaction

theorem mem_writes_applyAll {t : Transaction} {cs : List Change} {k : String} :
    k ∈ (t.applyAll cs).writes ↔ k ∈ t.writes ∨ ∃ ch ∈ cs, ch.key.encode = k := by
  induction cs generalizing t with
  | nil => simp
  | cons ch cs ih =>
    rw [applyAll_cons, ih]
    simp [apply, put, or_assoc, or_left_comm]

theorem mem_reads_perform {α : Type} (q : Query (Effect α)) (s : Store) {t : Transaction} {k : String}
    (hk : k ∈ t.reads) : k ∈ (q.perform s t).2.reads := by
  rw [Query.reads_perform]
  exact Query.mem_reads_run q hk

end Transaction

structure Live.Keeps (l m : Table Bytes) (writes : Table (Option Bytes)) : Prop where
  coherent : Coherent m
  conserved : Conserved l → Conserved m
  /-- What circulates of a token changes only with its record. -/
  steady : ∀ symbol, (Key.token symbol).encode ∉ writes → total m symbol = total l symbol

section Perform

variable {c : Contract} {s : Store} {t : Transaction} {d : Deed}

theorem mem_writes_perform (hd : d.isInvocation) {k : String} (hk : k ∈ t.writes) :
    k ∈ (d.perform c s t).2.writes := by
  obtain ⟨role, name, args, rfl⟩ := Deed.invocation_cases hd
  rw [Deed.perform_invoke]
  have hw := Query.writes_run (c.request role name args).plan s t
  rw [Query.perform_eq]
  cases (c.request role name args).plan.eval (t.view s) with
  | ok e => exact Transaction.mem_writes_applyAll.mpr (.inl (hw ▸ hk))
  | error f => exact hw ▸ hk

theorem perform_keeps (hd : d.isInvocation) (h : Coherent (t.view s)) :
    Keeps (t.view s) ((d.perform c s t).2.view s) (d.perform c s t).2.writes := by
  obtain ⟨role, name, args, rfl⟩ := Deed.invocation_cases hd
  rw [Deed.perform_invoke, Query.view_perform, Query.perform_eq]
  cases he : (c.request role name args).plan.eval (t.view s) with
  | error f => exact ⟨h, id, fun _ _ => rfl⟩
  | ok e =>
    obtain ⟨op, -, -, hc⟩ := h.carried_request he
    refine ⟨h.changes (hc.plain h), fun hl => hc.conserved h hl, fun symbol hk => ?_⟩
    refine hc.steady h fun ch hch hkey => hk ?_
    exact Transaction.mem_writes_applyAll.mpr (.inr ⟨ch, hch, by rw [hkey]⟩)

theorem mem_writes_performAll {ds : List Deed} (hds : ∀ d ∈ ds, d.isInvocation) {k : String}
    (hk : k ∈ t.writes) : k ∈ (c.performAll s t ds).2.writes := by
  induction ds generalizing t with
  | nil => exact hk
  | cons d ds ih =>
    rw [Contract.performAll_cons]
    exact ih (fun e he => hds e (by simp [he])) (mem_writes_perform (hds d (by simp)) hk)

theorem performAll_keeps {ds : List Deed} (hds : ∀ d ∈ ds, d.isInvocation) (h : Coherent (t.view s)) :
    Keeps (t.view s) ((c.performAll s t ds).2.view s) (c.performAll s t ds).2.writes := by
  induction ds generalizing t with
  | nil => exact ⟨h, id, fun _ _ => rfl⟩
  | cons d ds ih =>
    have hd := hds d (by simp)
    have hrest : ∀ e ∈ ds, e.isInvocation := fun e he => hds e (by simp [he])
    have hfirst := perform_keeps (c := c) hd h
    have hlater := ih hrest hfirst.coherent
    rw [Contract.performAll_cons]
    refine ⟨hlater.coherent, fun hl => hlater.conserved (hfirst.conserved hl), fun symbol hk => ?_⟩
    rw [hlater.steady symbol hk, hfirst.steady symbol fun hm => hk (mem_writes_performAll hrest hm)]

end Perform

namespace Transaction

structure Sealed (t : Transaction) (s : Store) (symbol : String) : Prop where
  token : (Key.token symbol).encode ∈ t.reads
  unheld : ∀ a : Account, a.token = symbol → a.key.encode ∉ t.reads → held s.live a = 0

/-- Another store has the same values where the transaction has read, and no other holders of the tokens
whose holders are all known. -/
structure Resembles (t : Transaction) (s r : Store) : Prop where
  values : ∀ k ∈ t.reads, r.value? k = s.value? k
  sealed : ∀ symbol, t.Sealed s symbol → t.Sealed r symbol

theorem Resembles.refl (t : Transaction) (s : Store) : t.Resembles s s := ⟨fun _ _ => rfl, fun _ h => h⟩

theorem Resembles.held_eq {t : Transaction} {s r : Store} (h : t.Resembles s r) {a : Account}
    (ha : a.key.encode ∈ t.reads) : held r.live a = held s.live a :=
  held_congr (by rw [Store.getElem?_live, Store.getElem?_live, h.values _ ha])

theorem Resembles.anti {t u : Transaction} {s r : Store} (hreads : ∀ k ∈ t.reads, k ∈ u.reads)
    (h : u.Resembles s r) : t.Resembles s r where
  values k hk := h.values k (hreads k hk)
  sealed symbol hs := by
    have hu : u.Sealed s symbol := ⟨hreads _ hs.token, fun a ha hk => hs.unheld a ha fun hm => hk (hreads _ hm)⟩
    refine ⟨hs.token, fun a ha hk => ?_⟩
    by_cases hm : a.key.encode ∈ u.reads
    · rw [h.held_eq hm, hs.unheld a ha hk]
    · exact (h.sealed symbol hu).unheld a ha hm

theorem held_view {t : Transaction} {s : Store} {a : Account} (ha : t.writes[a.key.encode]? = none) :
    held (t.view s) a = held s.live a :=
  held_congr (by rw [getElem?_view_of_none ha, Store.getElem?_live])

section Alike

variable {α : Type} {q : Query α} {s r : Store} {t u : Transaction}

/-- If a question has gone through all balances, the holders of the tokens that it has looked at are
known. -/
theorem sealed_run (htokens : ∀ symbol, (Key.token symbol).encode ∈ t.writes → (Key.token symbol).encode ∈ t.reads)
    (hr : q.Ranges (t.view s) balancesPrefix) {symbol : String}
    (hs : q.Looks (t.view s) (Key.token symbol).encode) : (q.run s t).2.Sealed s symbol where
  token := by
    by_cases hw : (Key.token symbol).encode ∈ t.writes
    · exact Query.mem_reads_run q (htokens symbol hw)
    · exact Query.mem_reads_of_looks hs (Std.ExtTreeMap.getElem?_eq_none hw)
  unheld a _ hk := by
    have he : a.key.encode ∉ s.entries := fun he => hk (Query.mem_reads_of_ranges hr (prefix_key a) he)
    have hv : s.live[a.key.encode]? = none := by
      rw [Store.getElem?_live, Store.value?_eq, Std.ExtTreeMap.getElem?_eq_none he]
      rfl
    rw [held, balance, balance?, hv]
    rfl

/-- The same is shown to a question within a transaction, and within another with the same pending writes
on a store that resembles the first. -/
theorem Resembles.alike (h : (q.run s t).2.Resembles s r) (hw : u.writes = t.writes)
    (htokens : ∀ symbol, (Key.token symbol).encode ∈ t.writes → (Key.token symbol).encode ∈ t.reads)
    (hs : Coherent (t.view s)) (hr : Coherent (u.view r)) : q.Alike (t.view s) (u.view r) where
  looks k hk := by
    cases ht : t.writes[k]? with
    | some w => rw [getElem?_view_of_some ht, getElem?_view_of_some (hw ▸ ht)]
    | none =>
      rw [getElem?_view_of_none ht, getElem?_view_of_none (hw ▸ ht)]
      exact h.values k (Query.mem_reads_of_looks hk ht)
  held hrange symbol hlook := by
    have hsealed := sealed_run htokens hrange hlook
    refine nonzero_congr hs hr fun a ha => ?_
    cases ht : t.writes[a.key.encode]? with
    | some w => exact .inl (by rw [getElem?_view_of_some ht, getElem?_view_of_some (hw ▸ ht)])
    | none =>
      by_cases hk : a.key.encode ∈ (q.run s t).2.reads
      · left
        rw [getElem?_view_of_none ht, getElem?_view_of_none (hw ▸ ht), h.values _ hk]
      · right
        rw [held_view ht, held_view (hw ▸ ht)]
        exact ⟨hsealed.unheld a ha hk, (h.sealed symbol hsealed).unheld a ha hk⟩

end Alike

end Transaction

/-- An answer to a deed that is carried out again. What is enumerated may have changed. -/
def Exchange.Agrees (e : Exchange) (a : Except Failure Answer) : Prop := e.1.enumerates = false → a = e.2

/-- On every store that resembles the one it has read, what was done within a transaction can be done
again, with the same answers and the same writes. -/
structure Repeatable (c : Contract) (s : Store) (t : Transaction) (es : List Exchange) : Prop where
  tokens : ∀ symbol, (Key.token symbol).encode ∈ t.writes → (Key.token symbol).encode ∈ t.reads
  again : ∀ r : Store, Coherent r.live → t.Resembles s r →
    (c.performAll r .empty (es.map Prod.fst)).2.writes = t.writes ∧
      List.Forall₂ Exchange.Agrees es (c.performAll r .empty (es.map Prod.fst)).1

structure Tracked (c : Contract) (s : Store) (t : Transaction) (es : List Exchange) : Prop where
  invocations : ∀ e ∈ es, e.1.isInvocation
  versions : ∀ (k : String) (v : UInt64), t.reads[k]? = some v → v ≤ s.height
  repeatable : t.stale? s = none → Repeatable c s t es

theorem tracked_empty (c : Contract) (s : Store) : Tracked c s .empty [] where
  invocations e he := by cases he
  versions k v hv := by simp [Transaction.empty] at hv
  repeatable _ := ⟨fun symbol hk => by simp [Transaction.empty] at hk, fun r _ _ => ⟨rfl, .nil⟩⟩

section Tracked

variable {c : Contract} {s : Store} {t : Transaction} {es : List Exchange} {d : Deed}

theorem Tracked.deeds (h : Tracked c s t es) : ∀ d ∈ es.map Prod.fst, d.isInvocation := by
  intro d hd
  obtain ⟨e, he, rfl⟩ := List.mem_map.mp hd
  exact h.invocations e he

theorem Repeatable.coherent (h : Repeatable c s t es) (hes : ∀ d ∈ es.map Prod.fst, d.isInvocation)
    {r : Store} (hr : Coherent r.live) (hsame : t.Resembles s r) : Coherent (t.view r) := by
  have hk := (performAll_keeps (c := c) (s := r) (t := .empty) hes hr).coherent
  rwa [Transaction.view_congr (h.again r hr hsame).1] at hk

theorem writes_perform_of_enumerates (hd : d.isInvocation) (hname : d.enumerates = true)
    (h : Coherent (t.view s)) : (d.perform c s t).2.writes = t.writes := by
  obtain ⟨role, name, args, rfl⟩ := Deed.invocation_cases hd
  have hw := Query.writes_run (c.request role name args).plan s t
  rw [Deed.perform_invoke, Query.perform_eq]
  cases he : (c.request role name args).plan.eval (t.view s) with
  | ok e =>
    dsimp only
    rw [h.changes_of_enumerates hname he]
    exact hw
  | error f => exact hw

theorem tokens_perform (hd : d.isInvocation) (h : Coherent (t.view s))
    (htokens : ∀ symbol, (Key.token symbol).encode ∈ t.writes → (Key.token symbol).encode ∈ t.reads)
    {symbol : String} (hk : (Key.token symbol).encode ∈ (d.perform c s t).2.writes) :
    (Key.token symbol).encode ∈ (d.perform c s t).2.reads := by
  obtain ⟨role, name, args, rfl⟩ := Deed.invocation_cases hd
  rw [Deed.perform_invoke] at hk ⊢
  by_cases hw : (Key.token symbol).encode ∈ t.writes
  · exact Transaction.mem_reads_perform _ s (htokens symbol hw)
  · have hrun := Query.writes_run (c.request role name args).plan s t
    rw [Query.reads_perform]
    rw [Query.perform_eq] at hk
    cases he : (c.request role name args).plan.eval (t.view s) with
    | error f =>
      simp only [he, hrun] at hk
      exact absurd hk hw
    | ok e =>
      simp only [he, Transaction.mem_writes_applyAll, hrun] at hk
      rcases hk with hk | ⟨ch, hch, hkey⟩
      · exact absurd hk hw
      · have hlook := h.request_looks he hch (Key.encode_injective hkey)
        exact Query.mem_reads_of_looks hlook (Std.ExtTreeMap.getElem?_eq_none hw)

theorem Repeatable.perform (hs : s.Sound) (h : Repeatable c s t es)
    (hes : ∀ d ∈ es.map Prod.fst, d.isInvocation) (hd : d.isInvocation) :
    Repeatable c s (d.perform c s t).2 (es ++ [(d, (d.perform c s t).1)]) where
  tokens symbol hk := tokens_perform hd (h.coherent hes hs.coherent (.refl t s)) h.tokens hk
  again r hr hsame := by
    have hview := h.coherent hes hs.coherent (.refl t s)
    obtain ⟨role, name, args, rfl⟩ := Deed.invocation_cases hd
    have hrun : ((c.request role name args).plan.run s t).2.Resembles s r :=
      hsame.anti fun k hk => by rwa [Deed.perform_invoke, Query.reads_perform]
    obtain ⟨hw, hanswers⟩ := h.again r hr (hrun.anti fun k hk => Query.mem_reads_run _ hk)
    have hserial := (performAll_keeps (c := c) (s := r) (t := .empty) hes hr).coherent
    rw [List.map_append, List.map_singleton, Contract.performAll_append]
    generalize c.performAll r .empty (es.map Prod.fst) = p at hw hanswers hserial
    obtain ⟨as, u⟩ := p
    cases hname : (Deed.invoke role name args).enumerates with
    | true =>
      refine ⟨?_, List.rel_append hanswers (.cons (fun hn => ?_) .nil)⟩
      · rw [writes_perform_of_enumerates hd hname hserial, writes_perform_of_enumerates hd hname hview, hw]
      · rw [hname] at hn
        cases hn
    | false =>
      have heval := hview.request_congr hserial hname (hrun.alike hw h.tokens hview hserial)
      obtain ⟨h₁, h₂⟩ := Query.perform_congr heval hw
      simp only [Deed.perform_invoke]
      refine ⟨h₂, List.rel_append hanswers (.cons (fun _ => ?_) .nil)⟩
      exact congrArg (Except.map Answer.payload) h₁

theorem Tracked.perform (hs : s.Sound) (h : Tracked c s t es) (hd : d.isInvocation) :
    Tracked c s (d.perform c s t).2 (es ++ [(d, (d.perform c s t).1)]) where
  invocations e he := by
    rcases List.mem_append.mp he with he | he
    · exact h.invocations e he
    · rw [List.mem_singleton.mp he]
      exact hd
  versions k v hv := by
    rcases Deed.reads_perform_cases hv with hv | rfl
    · exact h.versions k v hv
    · exact hs.versions k
  repeatable hnew := (h.repeatable (Deed.stale?_of_perform hnew)).perform hs h.deeds hd

end Tracked

section Commit

variable {c : Contract} {s s' : Store} {t : Transaction} {es : List Exchange}
  (hs : s.Sound) (h : Tracked c s t es) (hcommit : t.commit s = .ok s')

include hs h hcommit

/-- A transaction that is committed could have been carried out in one go, on the store as it is. -/
theorem Tracked.commit_again : (c.performAll s .empty (es.map Prod.fst)).2.commit s = .ok s' ∧
    List.Forall₂ Exchange.Agrees es (c.performAll s .empty (es.map Prod.fst)).1 := by
  have hstale := (Transaction.commit_eq_ok.mp hcommit).1
  obtain ⟨hw, hanswers⟩ := (h.repeatable hstale).again s hs.coherent (.refl t s)
  refine ⟨Transaction.commit_congr ?_ hw hcommit, hanswers⟩
  exact c.stale?_performAll _ (Transaction.stale?_empty s)

theorem Tracked.commit_keeps : Keeps s.live s'.live t.writes := by
  have hstale := (Transaction.commit_eq_ok.mp hcommit).1
  have hw := ((h.repeatable hstale).again s hs.coherent (.refl t s)).1
  have hkeeps := performAll_keeps (c := c) (s := s) (t := .empty) h.deeds hs.coherent
  rw [hw, Transaction.view_congr hw] at hkeeps
  rw [Transaction.live_commit hcommit]
  exact hkeeps

variable (hh : s.height.toNat + 1 < UInt64.size)

include hh

theorem Tracked.commit_sound : s'.Sound where
  coherent := (h.commit_keeps hs hcommit).coherent
  conserved := (h.commit_keeps hs hcommit).conserved hs.conserved
  versions k := by
    rcases Transaction.version_commit_cases hcommit k with ⟨-, he⟩ | ⟨-, he⟩
    · exact he ▸ UInt64.le_refl _
    · exact he ▸ UInt64.le_trans (hs.versions k) (Transaction.height_le_commit hcommit hh)

variable {u : Transaction} {fs : List Exchange} (hu : Tracked c s u fs) (hnew : u.stale? s' = none)

include hu hnew

omit hs h in
/-- What another transaction has read was not written if that one is still current, since it would have a
new version. -/
theorem Tracked.notMem_writes {k : String} (hk : k ∈ u.reads) : k ∉ t.writes := by
  intro hw
  obtain ⟨v, hv⟩ := Option.isSome_iff_exists.mp (Std.ExtTreeMap.mem_iff_isSome_getElem?.mp hk)
  have hlt := Store.lt_next hh (hu.versions k v hv)
  have hversion := Transaction.stale?_eq_none.mp hnew k v hv
  rw [Transaction.version_commit hcommit, if_pos hw] at hversion
  rw [hversion] at hlt
  exact UInt64.lt_irrefl _ hlt

omit hs h in
theorem Tracked.value?_commit {k : String} (hk : k ∈ u.reads) : s'.value? k = s.value? k := by
  rw [← Store.getElem?_live, Transaction.live_commit hcommit]
  exact Transaction.getElem?_view_of_none
    (Std.ExtTreeMap.getElem?_eq_none (hu.notMem_writes hcommit hh hnew hk))

omit hs h in
theorem Tracked.stale?_before : u.stale? s = none := by
  rw [Transaction.stale?_eq_none] at hnew ⊢
  intro k v hv
  have hk : k ∈ u.reads := Std.ExtTreeMap.mem_iff_isSome_getElem?.mpr (by rw [hv]; rfl)
  have hw := hu.notMem_writes hcommit hh (Transaction.stale?_eq_none.mpr hnew) hk
  rw [← hnew k v hv, Transaction.version_commit hcommit, if_neg hw]

/-- Nobody has come to hold a token either whose record and whose holders the other one has read. -/
theorem Tracked.sealed_commit {symbol : String} (hseal : u.Sealed s symbol) : u.Sealed s' symbol := by
  refine ⟨hseal.token, fun a ha hk => ?_⟩
  have hin (b : Account) (_ : b.token = symbol) (hb : b.key.encode ∈ u.reads) :
      held s'.live b = held s.live b :=
    held_congr (by rw [Store.getElem?_live, Store.getElem?_live, hu.value?_commit hcommit hh hnew hb])
  have htotal : total s'.live symbol = total s.live symbol :=
    (h.commit_keeps hs hcommit).steady symbol (hu.notMem_writes hcommit hh hnew hseal.token)
  exact hs.coherent.held_eq_zero_of_total_eq hin hseal.unheld htotal ha hk

omit hnew in
theorem Tracked.commit_other : Tracked c s' u fs where
  invocations := hu.invocations
  versions k v hv := UInt64.le_trans (hu.versions k v hv) (Transaction.height_le_commit hcommit hh)
  repeatable hnew := by
    have hrep := hu.repeatable (hu.stale?_before hcommit hh hnew)
    refine ⟨hrep.tokens, fun r hr hsame => hrep.again r hr ⟨fun k hk => ?_, fun symbol hseal => ?_⟩⟩
    · rw [hsame.values k hk, hu.value?_commit hcommit hh hnew hk]
    · exact hsame.sealed symbol (h.sealed_commit hs hcommit hh hu hnew hseal)

end Commit

end TokenLedger
