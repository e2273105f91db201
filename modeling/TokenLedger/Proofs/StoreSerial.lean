import TokenLedger.Proofs.Encounter

/-! Sessions of transactions on the store itself, in any order. Those that were committed can be replayed one
after the other and leave the same store. They answer the same as well, up to hits that were not there when a
scan was made: nothing is read where there is no entry, and a commit does not look for new ones. -/

namespace TokenLedger

/-- Steps that keep one store, with transactions that work on it. -/
def Step.onStore : Step → Bool
  | .begin _ | .commit _ | .drop _ | .committed _ | .save => true
  | .run _ d => d.onStore
  | .reload | .load _ _ => false

structure Log where
  /-- Within the transactions that are open. -/
  opened : Table (List Encounter)
  /-- Within those that were committed. -/
  committed : List (List Encounter)

namespace Log

def empty : Log := ⟨∅, []⟩

def met (l : Log) (tx : String) : List Encounter := l.opened[tx]?.getD []

def note (x : Session) (l : Log) : Step → Except Failure Answer → Log
  | .begin tx, _ => { l with opened := l.opened.insert tx [] }
  | .commit tx, .ok _ => ⟨l.opened.erase tx, l.committed ++ [l.met tx]⟩
  | .commit tx, .error _ => { l with opened := l.opened.erase tx }
  | .drop tx, _ => { l with opened := l.opened.erase tx }
  | .run (some tx) d, r =>
    { l with opened := l.opened.insert tx (l.met tx ++ [⟨x.store, x.transaction tx, d, r⟩]) }
  | .run none d, .ok a => { l with committed := l.committed ++ [[⟨x.store, .empty, d, .ok a⟩]] }
  | .reload, .ok _ | .load _ _, .ok _ => { l with opened := ∅ }
  | _, _ => l

def run (c : Contract) (x : Session) (l : Log) : List Step → Log
  | [] => l
  | a :: as => run c (x.step c a).2 (l.note x a (x.step c a).1) as

theorem committed_note (x : Session) (l : Log) (a : Step) (r : Except Failure Answer) :
    l.committed.length ≤ (l.note x a r).committed.length := by
  unfold note
  split <;> simp

theorem committed_run (c : Contract) (x : Session) (l : Log) (as : List Step) :
    l.committed.length ≤ (run c x l as).committed.length := by
  induction as generalizing x l with
  | nil => exact Nat.le_refl _
  | cons a as ih => exact (l.committed_note x a _).trans (ih _ _)

end Log

structure Pending (c : Contract) (top : Nat) (s : Store) (t : Transaction) (es : List Encounter) : Prop where
  traced : Traced c top es t
  before : ∀ e ∈ es, e.store.Before top s

section Pending

variable {c : Contract} {top : Nat} {s s' : Store} {t : Transaction} {es : List Encounter} {d : Deed}

theorem pending_empty (c : Contract) (top : Nat) (s : Store) : Pending c top s .empty [] :=
  ⟨.nil, fun e he => by cases he⟩

theorem Pending.perform (h : Pending c top s t es) (hs : s.Untaken top) (hd : d.onStore) :
    Pending c top s (d.perform c s t).2 (es ++ [⟨s, t, d, (d.perform c s t).1⟩]) where
  traced := h.traced.snoc hd hs h.before
  before e he := by
    rcases List.mem_append.mp he with he | he
    · exact h.before e he
    · rw [List.mem_singleton.mp he]
      exact hs.before

theorem Pending.later (h : Pending c top s t es) (hs : s.Before top s') : Pending c top s' t es where
  traced := h.traced
  before e he := (h.before e he).trans hs

end Pending

structure Logged (c : Contract) (start top : Nat) (x : Session) (l : Log) : Prop where
  untaken : x.store.Untaken top
  height : x.store.height.toNat ≤ start + l.committed.length
  pending : ∀ tx, Pending c top x.store (x.transaction tx) (l.met tx)

section Steps

variable {c : Contract} {start top : Nat} {x : Session} {l : Log} (h : Logged c start top x l)
  (htop : top < UInt64.size)

include h

theorem Logged.insert (tx : String) {t : Transaction} {es : List Encounter} (ht : Pending c top x.store t es) :
    Logged c start top { x with opened := x.opened.insert tx t } { l with opened := l.opened.insert tx es } where
  untaken := h.untaken
  height := h.height
  pending := Table.related_insert (R := Pending c top x.store) h.pending tx ht

theorem Logged.erase (tx : String) :
    Logged c start top { x with opened := x.opened.erase tx } { l with opened := l.opened.erase tx } where
  untaken := h.untaken
  height := h.height
  pending := Table.related_erase (R := Pending c top x.store) h.pending tx (pending_empty c top x.store)

include htop

theorem Logged.commit {t : Transaction} {es : List Encounter} (ht : Pending c top x.store t es) {s : Store}
    (hs : t.commit x.store = .ok s) (hn : start + l.committed.length + 1 ≤ top) :
    Logged c start top { x with store := s } { l with committed := l.committed ++ [es] } := by
  have hh := h.height
  have hnext : x.store.height.toNat + 1 ≤ top := by omega
  have hbefore := h.untaken.before_commit hs hnext htop ht.traced.exists_key
  refine ⟨h.untaken.commit hs hnext htop, ?_, fun tx => (h.pending tx).later hbefore⟩
  have hle := Transaction.toNat_height_commit_le hs
  change s.height.toNat ≤ start + (l.committed ++ [es]).length
  rw [List.length_append, List.length_singleton]
  omega

theorem Logged.step {a : Step} (ha : a.onStore)
    (hn : start + (l.note x a (x.step c a).1).committed.length ≤ top) :
    Logged c start top (x.step c a).2 (l.note x a (x.step c a).1) := by
  cases a with
  | begin tx => exact h.insert tx (pending_empty c top x.store)
  | drop tx => exact h.erase tx
  | committed k => exact h
  | save => exact h
  | reload => cases ha
  | load path b => cases ha
  | commit tx =>
    rw [Session.step] at hn ⊢
    cases hs : (x.transaction tx).commit x.store with
    | error f => exact h.erase tx
    | ok s =>
      simp only [hs, Log.note, List.length_append, List.length_singleton] at hn
      exact (h.commit htop (h.pending tx) hs (by omega)).erase tx
  | run tx d =>
    cases tx with
    | some tx => exact h.insert tx ((h.pending tx).perform h.untaken ha)
    | none =>
      rw [Session.step] at hn ⊢
      rcases x.alone_cases c d with ⟨a, s, hr, hs, he⟩ | ⟨f, he⟩
      · have ht := (pending_empty c top x.store).perform h.untaken ha
        rw [hr] at ht
        rw [he] at hn ⊢
        simp only [Log.note, List.length_append, List.length_singleton] at hn
        exact h.commit htop ht hs (by omega)
      · rw [he]
        exact h

omit htop in
/-- A step leaves the store as it is, or commits one transaction. -/
theorem Logged.step_cases {a : Step} (ha : a.onStore) :
    (x.step c a).2.store = x.store ∧ (l.note x a (x.step c a).1).committed = l.committed ∨
      ∃ t es, Pending c top x.store t es ∧ t.commit x.store = .ok (x.step c a).2.store ∧
        (l.note x a (x.step c a).1).committed = l.committed ++ [es] := by
  cases a with
  | begin tx | drop tx | committed k | save => exact .inl ⟨rfl, rfl⟩
  | reload | load => cases ha
  | commit tx =>
    rw [Session.step]
    cases hs : (x.transaction tx).commit x.store with
    | error f => exact .inl ⟨rfl, rfl⟩
    | ok s => exact .inr ⟨x.transaction tx, l.met tx, h.pending tx, hs, rfl⟩
  | run tx d =>
    cases tx with
    | some tx => exact .inl ⟨rfl, rfl⟩
    | none =>
      rw [Session.step]
      rcases x.alone_cases c d with ⟨a, s, hr, hs, he⟩ | ⟨f, he⟩
      · have ht := (pending_empty c top x.store).perform h.untaken ha
        rw [hr] at ht
        rw [he]
        exact .inr ⟨_, _, ht, hs, rfl⟩
      · rw [he]
        exact .inl ⟨rfl, rfl⟩

omit h htop in
def Log.Replays (c : Contract) (s : Store) (l : Log) (s' : Store) : Prop :=
  ∃ rss, c.replay s (l.committed.map (·.map Encounter.deed)) = .ok (rss, s') ∧
    List.Forall₂ (List.Forall₂ Encounter.Agrees) l.committed rss

omit htop in
theorem Logged.replays {a : Step} (ha : a.onStore) {s : Store} (hr : l.Replays c s x.store) :
    (l.note x a (x.step c a).1).Replays c s (x.step c a).2.store := by
  rcases h.step_cases ha with ⟨hs, hl⟩ | ⟨t, es, ht, hs, hl⟩
  · rw [Log.Replays, hs, hl]
    exact hr
  · obtain ⟨rss, hreplay, hagree⟩ := hr
    obtain ⟨hagain, hanswers⟩ := ht.traced.commit_again ht.before hs
    rw [Log.Replays, hl, List.map_append, List.map_singleton]
    exact ⟨_, Contract.replay_append hreplay hagain, List.rel_append hagree (.cons hanswers .nil)⟩

end Steps

theorem Logged.run {c : Contract} {start top : Nat} {x : Session} {l : Log} (h : Logged c start top x l)
    (htop : top < UInt64.size) {as : List Step} (has : ∀ a ∈ as, a.onStore)
    (hn : start + (Log.run c x l as).committed.length ≤ top) {s : Store} (hr : l.Replays c s x.store) :
    (Log.run c x l as).Replays c s (Session.run c x as).2.store := by
  induction as generalizing x l with
  | nil => exact hr
  | cons a as ih =>
    have ha := has a (by simp)
    have hle := Log.committed_run c (x.step c a).2 (l.note x a (x.step c a).1) as
    rw [Log.run] at hn ⊢
    exact ih (h.step htop ha (by omega)) (fun b hb => has b (by simp [hb])) hn (h.replays ha hr)

/-- No entry has a version that one of the next commits will take. Versions are never above the height
unless a snapshot says so. -/
def Store.Fresh (s : Store) (commits : Nat) : Prop :=
  s.height.toNat + commits < UInt64.size ∧ s.Untaken (s.height.toNat + commits)

theorem Store.fresh_of_le {s : Store} (h : ∀ k, s.version k ≤ s.height) {commits : Nat}
    (hn : s.height.toNat + commits < UInt64.size) : s.Fresh commits :=
  ⟨hn, fun k => .inl (h k)⟩

/-- Transactions on the store are serialisable in the order of their commits, up to hits that nobody could
know of. If those that were committed are carried out one after the other on the store that all began with,
they are committed again and leave the same store, and each deed answers the same but for hits under texts
where it met neither an entry nor a pending write. -/
theorem store_serialisable (c : Contract) {s : Store} {as : List Step} (has : ∀ a ∈ as, a.onStore) :
    let x := (Session.run c ⟨s, ∅⟩ as).2
    let l := Log.run c ⟨s, ∅⟩ .empty as
    s.Fresh l.committed.length →
      ∃ rss, c.replay s (l.committed.map (·.map Encounter.deed)) = .ok (rss, x.store) ∧
        List.Forall₂ (List.Forall₂ Encounter.Agrees) l.committed rss := by
  intro x l hfresh
  have hstart : Logged c s.height.toNat (s.height.toNat + l.committed.length) ⟨s, ∅⟩ .empty := by
    refine ⟨hfresh.2, Nat.le_refl _, fun tx => ?_⟩
    have hx : Session.transaction ⟨s, ∅⟩ tx = .empty := by simp [Session.transaction]
    have hl : Log.met .empty tx = [] := by simp [Log.met, Log.empty]
    rw [hx, hl]
    exact pending_empty c _ s
  exact hstart.run hfresh.1 has (Nat.le_refl _) ⟨[], rfl, .nil⟩

/-- While a transaction that has listed the tokens is open, another one adds a token. -/
def overlooked : List Step :=
  [.begin "t", .run (some "t") (.scan .tokens []),
   .begin "u", .run (some "u") (.put (.token "A") (some [49])), .commit "u",
   .run (some "t") (.put (.token "B") (some [50])), .commit "t"]

theorem store_serialisable_overlooked :
    let x := (Session.run .signing ⟨.empty, ∅⟩ overlooked).2
    let l := Log.run .signing ⟨.empty, ∅⟩ .empty overlooked
    ∃ rss, Contract.signing.replay .empty (l.committed.map (·.map Encounter.deed)) = .ok (rss, x.store) ∧
      List.Forall₂ (List.Forall₂ Encounter.Agrees) l.committed rss := by
  refine store_serialisable .signing (by decide) (Store.fresh_of_le (fun k => ?_) ?_)
  · simp [Store.version, Store.empty]
  · decide +kernel

/-- A store with an entry from a height that it has not reached. -/
def ahead : Store := ⟨0, (∅ : Table Entry).insert (Key.token "A").encode ⟨1, some [48]⟩⟩

/-- While a transaction that has read a token is open, another one writes it. -/
def overwritten : List Step :=
  [.begin "t", .run (some "t") (.get (.token "A")),
   .begin "u", .run (some "u") (.put (.token "A") (some [49])), .commit "u",
   .run (some "t") (.put (.token "B") (some [50])), .commit "t"]

/-- The scan that overlooked a token finds it when it is done again. A read of one value answers otherwise only
if the commit in between took the version that was there: then nothing is noticed. -/
theorem not_serialisable_overlooked :
    let l := Log.run .signing ⟨.empty, ∅⟩ .empty overlooked
    let m := Log.run .signing ⟨ahead, ∅⟩ .empty overwritten
    l.committed.map (·.map Encounter.answer) = [[.ok .done], [.ok (.hits []), .ok .done]] ∧
      (Contract.signing.replay .empty (l.committed.map (·.map Encounter.deed))).map Prod.fst =
        .ok [[.ok .done], [.ok (.hits [(.token "A", [49])]), .ok .done]] ∧
      m.committed.map (·.map Encounter.answer) = [[.ok .done], [.ok (.value (some [48])), .ok .done]] ∧
      (Contract.signing.replay ahead (m.committed.map (·.map Encounter.deed))).map Prod.fst =
        .ok [[.ok .done], [.ok (.value (some [49])), .ok .done]] := by
  decide +kernel

end TokenLedger
