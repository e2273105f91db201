import TokenLedger.Session
import TokenLedger.Proofs.Dependence
import TokenLedger.Proofs.Snapshot

/-! Journals of sessions: what was done within each transaction and what it answered, and which
transactions were committed, in this order. A journal can be replayed, one transaction after the other. -/

namespace TokenLedger

def Deed.isInvocation : Deed → Bool
  | .invoke .. => true
  | _ => false

def Deed.enumerates : Deed → Bool
  | .invoke _ name _ => Live.enumerates name
  | _ => false

theorem Deed.invocation_cases {d : Deed} (h : d.isInvocation) :
    ∃ role name args, d = .invoke role name args := by
  cases d with
  | invoke role name args => exact ⟨role, name, args, rfl⟩
  | _ => cases h

theorem Deed.perform_invoke (c : Contract) (s : Store) (t : Transaction) (role : Option Role) (name : String)
    (args : List String) : (Deed.invoke role name args).perform c s t =
      (((c.request role name args).plan.perform s t).1.map .payload, ((c.request role name args).plan.perform s t).2) := by
  rw [perform, c.invoke_eq]

theorem Call.writesLast (d : Call) : d.action.WritesLast := by
  cases d with
  | balance | token | addressExists => exact Action.writesLast_liftM_bind _ fun _ => Action.writesLast_pure _
  | initialiseBalance address symbol =>
    exact (writesLast_initialiseBalance address symbol).bind fun _ => Action.settled_pure _
  | wallet address type =>
    exact Action.writesLast_except_bind _ fun _ => Action.writesLast_liftM_bind _ fun _ => Action.writesLast_pure _
  | transfer t => exact (writesLast_transfer t).bind fun _ => Action.settled_pure _
  | saveBalance b => exact (Action.settled_saved ..).writesLast

theorem Deed.perform_call (c : Contract) (s : Store) (t : Transaction) (d : Call) :
    (Deed.call d).perform c s t = d.action.plan.perform s t :=
  d.writesLast.perform_eq s t

/-- A deed and what it answered. -/
abbrev Exchange := Deed × Except Failure Answer

namespace Contract

def performAll (c : Contract) (s : Store) : Transaction → List Deed → List (Except Failure Answer) × Transaction
  | t, [] => ([], t)
  | t, d :: ds =>
    let (r, t) := d.perform c s t
    let (rs, t) := c.performAll s t ds
    (r :: rs, t)

/-- Whole transactions one after the other, all of which must be committed. -/
def replay (c : Contract) : Store → List (List Deed) →
    Except Failure (List (List (Except Failure Answer)) × Store)
  | s, [] => .ok ([], s)
  | s, ds :: rest =>
    let (rs, t) := c.performAll s .empty ds
    match t.commit s with
    | .error f => .error f
    | .ok s => (c.replay s rest).map fun (rss, s) => (rs :: rss, s)

theorem performAll_cons (c : Contract) (s : Store) (t : Transaction) (d : Deed) (ds : List Deed) :
    c.performAll s t (d :: ds) =
      ((d.perform c s t).1 :: (c.performAll s (d.perform c s t).2 ds).1,
        (c.performAll s (d.perform c s t).2 ds).2) :=
  rfl

theorem performAll_append (c : Contract) (s : Store) (t : Transaction) (ds : List Deed) (d : Deed) :
    c.performAll s t (ds ++ [d]) =
      ((c.performAll s t ds).1 ++ [(d.perform c s (c.performAll s t ds).2).1],
        (d.perform c s (c.performAll s t ds).2).2) := by
  induction ds generalizing t with
  | nil => rfl
  | cons e ds ih => rw [List.cons_append, performAll_cons, ih, performAll_cons, List.cons_append]

theorem replay_cons (c : Contract) (s : Store) (ds : List Deed) (rest : List (List Deed)) :
    c.replay s (ds :: rest) =
      ((c.performAll s .empty ds).2.commit s).bind fun s' =>
        (c.replay s' rest).map fun p => ((c.performAll s .empty ds).1 :: p.1, p.2) := by
  rw [replay]
  dsimp only
  cases (c.performAll s .empty ds).2.commit s <;> rfl

/-- Another transaction is replayed after the others. -/
theorem replay_append {c : Contract} {s s₁ s₂ : Store} {dss : List (List Deed)} {ds : List Deed}
    {rss : List (List (Except Failure Answer))} (h : c.replay s dss = .ok (rss, s₁))
    (hcommit : (c.performAll s₁ .empty ds).2.commit s₁ = .ok s₂) :
    c.replay s (dss ++ [ds]) = .ok (rss ++ [(c.performAll s₁ .empty ds).1], s₂) := by
  induction dss generalizing s rss with
  | nil =>
    cases h
    rw [List.nil_append, replay_cons, hcommit]
    rfl
  | cons es dss ih =>
    rw [replay_cons, Query.bind_eq_ok] at h
    obtain ⟨s', hs', h⟩ := h
    rw [List.cons_append, replay_cons, hs', Except.bind]
    cases hrest : c.replay s' dss with
    | error f => simp [hrest, Except.map] at h
    | ok p =>
      rw [hrest] at h
      cases h
      rw [ih hrest]
      rfl

end Contract

structure Journal where
  /-- What was done within the transactions that are open. -/
  opened : Table (List Exchange)
  /-- What was done within those that were committed. -/
  committed : List (List Exchange)

namespace Table

variable {α β : Type} {R : α → β → Prop} {l : Table α} {m : Table β} {a a₀ : α} {b b₀ : β}

/-- Two tables are related at every text. They stay so if related values are put under one. -/
theorem related_insert (h : ∀ y : String, R (l[y]?.getD a₀) (m[y]?.getD b₀)) (x : String) (hab : R a b)
    (y : String) : R ((l.insert x a)[y]?.getD a₀) ((m.insert x b)[y]?.getD b₀) := by
  rw [Std.ExtTreeMap.getElem?_insert, Std.ExtTreeMap.getElem?_insert]
  split
  · exact hab
  · exact h y

theorem related_erase (h : ∀ y : String, R (l[y]?.getD a₀) (m[y]?.getD b₀)) (x : String) (hab : R a₀ b₀)
    (y : String) : R ((l.erase x)[y]?.getD a₀) ((m.erase x)[y]?.getD b₀) := by
  rw [Std.ExtTreeMap.getElem?_erase, Std.ExtTreeMap.getElem?_erase]
  split
  · exact hab
  · exact h y

end Table

namespace Journal

def empty : Journal := ⟨∅, []⟩

def exchanges (j : Journal) (tx : String) : List Exchange := j.opened[tx]?.getD []

def note (j : Journal) : Step → Except Failure Answer → Journal
  | .begin tx, _ => { j with opened := j.opened.insert tx [] }
  | .commit tx, .ok _ => ⟨j.opened.erase tx, j.committed ++ [j.exchanges tx]⟩
  | .commit tx, .error _ => { j with opened := j.opened.erase tx }
  | .drop tx, _ => { j with opened := j.opened.erase tx }
  | .run (some tx) d, r => { j with opened := j.opened.insert tx (j.exchanges tx ++ [(d, r)]) }
  | .run none d, .ok a => { j with committed := j.committed ++ [[(d, .ok a)]] }
  | .reload, .ok _ | .load _ _, .ok _ => { j with opened := ∅ }
  | _, _ => j

/-- The journal after a list of steps. -/
def run (c : Contract) (x : Session) (j : Journal) : List Step → Journal
  | [] => j
  | a :: as => run c (x.step c a).2 (j.note a (x.step c a).1) as

theorem committed_note (j : Journal) (a : Step) (r : Except Failure Answer) :
    j.committed.length ≤ (j.note a r).committed.length := by
  unfold note
  split <;> simp

theorem committed_run (c : Contract) (x : Session) (j : Journal) (as : List Step) :
    j.committed.length ≤ (run c x j as).committed.length := by
  induction as generalizing x j with
  | nil => exact Nat.le_refl _
  | cons a as ih => exact (j.committed_note a _).trans (ih _ _)

/-- Each step commits one transaction at most. -/
theorem committed_run_le (c : Contract) (x : Session) (j : Journal) (as : List Step) :
    (run c x j as).committed.length ≤ j.committed.length + as.length := by
  induction as generalizing x j with
  | nil => exact Nat.le_refl _
  | cons a as ih =>
    have hnote : (j.note a (x.step c a).1).committed.length ≤ j.committed.length + 1 := by
      unfold note
      split <;> simp
    have hrest := ih (x.step c a).2 (j.note a (x.step c a).1)
    rw [run, List.length_cons]
    omega

theorem run_append (c : Contract) (x : Session) (j : Journal) (as bs : List Step) :
    run c x j (as ++ bs) = run c (Session.run c x as).2 (run c x j as) bs := by
  induction as generalizing x j with
  | nil => rfl
  | cons a as ih => exact ih _ _

theorem committed_prefix (c : Contract) (x : Session) (j : Journal) {as bs : List Step} (h : bs <+: as) :
    (run c x j bs).committed.length ≤ (run c x j as).committed.length := by
  obtain ⟨cs, rfl⟩ := h
  rw [run_append]
  exact committed_run _ _ _ _

theorem committed_lt_of_earlier {c : Contract} {x : Session} {j : Journal} {as bs : List Step} {n : Nat}
    (h : bs <+: as) (hn : (run c x j as).committed.length < n) : (run c x j bs).committed.length < n :=
  lt_of_le_of_lt (Journal.committed_prefix c x j h) hn

end Journal

theorem Session.run_append (c : Contract) (x : Session) (as bs : List Step) :
    (run c x (as ++ bs)).2 = (run c (run c x as).2 bs).2 := by
  induction as generalizing x with
  | nil => rfl
  | cons a as ih => exact ih _

/-- A deed in a transaction of its own is committed, or nothing has happened. -/
theorem Session.alone_cases (c : Contract) (x : Session) (d : Deed) :
    (∃ a s, (d.perform c x.store .empty).1 = .ok a ∧ (d.perform c x.store .empty).2.commit x.store = .ok s ∧
      x.alone c d = (.ok a, { x with store := s })) ∨ ∃ f, x.alone c d = (.error f, x) := by
  rw [alone]
  rcases d.perform c x.store .empty with ⟨r, t⟩
  cases r with
  | error f => exact .inr ⟨f, rfl⟩
  | ok a =>
    dsimp only
    cases hs : t.commit x.store with
    | error f => exact .inr ⟨f, rfl⟩
    | ok s => exact .inl ⟨a, s, rfl, rfl, rfl⟩

/-- An invocation in a transaction of its own is one that the contract executes. -/
theorem Session.alone_invoke (c : Contract) (x : Session) (role : Option Role) (name : String)
    (args : List String) : x.alone c (.invoke role name args) =
      ((c.execute x.store role name args).1.map .payload,
        { x with store := (c.execute x.store role name args).2 }) := by
  rw [alone, Contract.execute, Deed.perform]
  rcases c.invoke x.store .empty role name args with ⟨r, t⟩
  cases r with
  | error f => rfl
  | ok b =>
    dsimp only [Except.map]
    cases t.commit x.store <;> rfl

/-- The steps by which transactions that invoke the contract, and nothing else, follow each other. -/
def Step.interleaves : Step → Bool
  | .begin _ | .commit _ | .drop _ | .committed _ | .save => true
  | .run _ d => d.isInvocation
  | .reload | .load _ _ => false

/-- Steps from an empty session that invoke the contract, and go on from snapshots that were saved
before. -/
inductive Contractual (c : Contract) : List Step → Prop
  | nil : Contractual c []
  | step {as : List Step} {a : Step} (h : Contractual c as) (ha : a.interleaves) : Contractual c (as ++ [a])
  | reload {as : List Step} (h : Contractual c as) : Contractual c (as ++ [.reload])
  | restart {as : List Step} (h : Contractual c as) (path : String) : Contractual c (as ++ [.load path none])
  | load {as bs : List Step} (h : Contractual c as) (hb : Contractual c bs) (earlier : bs <+: as)
      (path : String) :
      Contractual c (as ++ [.load path (some (Snapshot.save (Session.run c .empty bs).2.store))])

theorem Contractual.of_prefix {c : Contract} {as bs : List Step} (h : Contractual c as) (hb : bs <+: as) :
    Contractual c bs := by
  induction h with
  | nil => exact List.prefix_nil.mp hb ▸ .nil
  | step h ha ih =>
    rcases List.prefix_concat_iff.mp hb with rfl | hb
    · exact .step h ha
    · exact ih hb
  | reload h ih =>
    rcases List.prefix_concat_iff.mp hb with rfl | hb
    · exact .reload h
    · exact ih hb
  | restart h path ih =>
    rcases List.prefix_concat_iff.mp hb with rfl | hb
    · exact .restart h path
    · exact ih hb
  | load h hb' earlier path ih =>
    rcases List.prefix_concat_iff.mp hb with rfl | hb
    · exact .load h hb' earlier path
    · exact ih hb

theorem Contractual.append {c : Contract} {as bs : List Step} (h : Contractual c as)
    (hb : ∀ b ∈ bs, b.interleaves ∨ b = .reload) : Contractual c (as ++ bs) := by
  induction bs using List.reverseRecOn with
  | nil => rwa [List.append_nil]
  | append_singleton bs b ih =>
    have hbs := ih fun b hb' => hb b (by simp [hb'])
    rw [← List.append_assoc]
    rcases hb b (by simp) with hb | rfl
    · exact hbs.step hb
    · exact hbs.reload

theorem Contractual.of_interleaves (c : Contract) {as : List Step} (h : ∀ a ∈ as, a.interleaves) :
    Contractual c as := Contractual.nil.append fun a ha => .inl (h a ha)

/-- The sessions that such steps lead to. -/
def Contract.Reaches (c : Contract) (x : Session) : Prop :=
  ∃ as, Contractual c as ∧ (Session.run c .empty as).2 = x

namespace Journal

structure Law (c : Contract) (T : Transaction → List Exchange → Prop) (S : Store → List Exchange → Prop) : Prop where
  empty : T .empty []
  perform : ∀ {s : Store} {t : Transaction} {es : List Exchange} {d : Deed}, T t es → d.isInvocation →
    T (d.perform c s t).2 (es ++ [(d, (d.perform c s t).1)])
  commit : ∀ {s s' : Store} {t : Transaction} {es told : List Exchange}, T t es → S s told → t.commit s = .ok s' →
    S s' (told ++ es)

structure Law.Holds (T : Transaction → List Exchange → Prop) (S : Store → List Exchange → Prop) (x : Session)
    (j : Journal) : Prop where
  store : S x.store j.committed.flatten
  opened : ∀ tx : String, T (x.opened[tx]?.getD .empty) (j.opened[tx]?.getD [])

namespace Law

variable {c : Contract} {T : Transaction → List Exchange → Prop} {S : Store → List Exchange → Prop} {x : Session}
  {j : Journal}

theorem Holds.insert (h : Holds T S x j) (tx : String) {t : Transaction} {es : List Exchange} (ht : T t es) :
    Holds T S { x with opened := x.opened.insert tx t } { j with opened := j.opened.insert tx es } :=
  ⟨h.store, Table.related_insert h.opened tx ht⟩

variable (hlaw : Law c T S) (h : Holds T S x j)

include hlaw

theorem holds_empty {s : Store} (hs : S s []) : Holds T S ⟨s, ∅⟩ .empty :=
  ⟨hs, fun tx => by simpa [Journal.empty] using hlaw.empty⟩

include h

theorem holds_erase (tx : String) :
    Holds T S { x with opened := x.opened.erase tx } { j with opened := j.opened.erase tx } :=
  ⟨h.store, Table.related_erase h.opened tx hlaw.empty⟩

theorem holds_commit {t : Transaction} {es : List Exchange} (ht : T t es) {s : Store} (hs : t.commit x.store = .ok s) :
    Holds T S { x with store := s } { j with committed := j.committed ++ [es] } := by
  refine ⟨?_, h.opened⟩
  rw [List.flatten_append, List.flatten_singleton]
  exact hlaw.commit ht h.store hs

theorem holds_step {a : Step} (ha : a.interleaves ∨ a = .reload) :
    Holds T S (x.step c a).2 (j.note a (x.step c a).1) := by
  rcases ha with ha | rfl
  · cases a with
    | begin tx => exact h.insert tx hlaw.empty
    | drop tx => exact hlaw.holds_erase h tx
    | committed k => exact h
    | save => exact h
    | reload => cases ha
    | load path b => cases ha
    | commit tx =>
      rw [Session.step]
      cases hs : (x.transaction tx).commit x.store with
      | error f => exact hlaw.holds_erase h tx
      | ok s => exact hlaw.holds_erase (hlaw.holds_commit h (h.opened tx) hs) tx
    | run tx d =>
      cases tx with
      | some tx => exact h.insert tx (hlaw.perform (h.opened tx) ha)
      | none =>
        rw [Session.step]
        rcases x.alone_cases c d with ⟨a, s, hr, hs, he⟩ | ⟨f, he⟩
        · have ht := hlaw.perform (s := x.store) hlaw.empty ha
          rw [hr] at ht
          rw [he]
          exact hlaw.holds_commit h ht hs
        · rw [he]
          exact h
  · have hload : x.step c .reload = (.ok .done, ⟨x.store, ∅⟩) := by
      rw [Session.step, Session.load, Snapshot.load_save]
    rw [hload]
    exact ⟨h.store, fun tx => by simpa [Journal.note] using hlaw.empty⟩

theorem holds_run {as : List Step} (has : ∀ a ∈ as, a.interleaves ∨ a = .reload) :
    Holds T S (Session.run c x as).2 (Journal.run c x j as) := by
  induction as generalizing x j with
  | nil => exact h
  | cons a as ih => exact ih (hlaw.holds_step h (has a (by simp))) fun b hb => has b (by simp [hb])

end Law
end Journal

/-- A contract that checks signatures and knows no actors. -/
def Contract.signing : Contract := ⟨ed25519Verifier, fun _ => .ok false⟩

def listing : List Step :=
  [.run none (.invoke (some .admin) "registerToken"
    ["\x7b\"TokenType\":\"CRYPTO\",\"Symbol\":\"GLD\",\"Supply\":5\x7d", "alice"]),
   .run none (.invoke none "registerAddress" ["alice"])]

theorem contractual_listing (c : Contract) : Contractual c listing := .of_interleaves c (by decide)

@[irreducible] def listed : Session := (Session.run .signing .empty listing).2

theorem reaches_listed : Contract.signing.Reaches listed := by
  rw [listed]
  exact ⟨listing, contractual_listing .signing, rfl⟩

end TokenLedger
