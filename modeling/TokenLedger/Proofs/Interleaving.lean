import TokenLedger.Proofs.Serial
import TokenLedger.Proofs.Snapshot

/-! Sessions in which transactions follow each other in any order. After every step what circulates of a
listed token is its supply, and what was committed can be replayed one transaction after the other.
Heights have 64 bits and wrap around, after which a commit could no longer tell an old read from a new
one: all this is about fewer than `2 ^ 64` commits. -/

namespace TokenLedger

open Live

/-- A session whose steps are in a journal, from a store of at most some height. -/
structure Followed (c : Contract) (n : Nat) (x : Session) (j : Journal) : Prop where
  sound : x.store.Sound
  height : x.store.height.toNat ≤ n + j.committed.length
  tracked : ∀ tx, Tracked c x.store (x.transaction tx) (j.exchanges tx)

section Steps

variable {c : Contract} {n : Nat} {x : Session} {j : Journal} (h : Followed c n x j)

include h

theorem Followed.insert (tx : String) {t : Transaction} {es : List Exchange} (ht : Tracked c x.store t es) :
    Followed c n { x with opened := x.opened.insert tx t } { j with opened := j.opened.insert tx es } where
  sound := h.sound
  height := h.height
  tracked := Table.related_insert (R := Tracked c x.store) h.tracked tx ht

theorem Followed.erase (tx : String) :
    Followed c n { x with opened := x.opened.erase tx } { j with opened := j.opened.erase tx } where
  sound := h.sound
  height := h.height
  tracked := Table.related_erase (R := Tracked c x.store) h.tracked tx (tracked_empty c x.store)

theorem Followed.commit {t : Transaction} {es : List Exchange} (ht : Tracked c x.store t es) {s : Store}
    (hs : t.commit x.store = .ok s) (hn : n + j.committed.length + 1 < UInt64.size) :
    Followed c n { x with store := s } { j with committed := j.committed ++ [es] } := by
  have hh := h.height
  have hnext : x.store.height.toNat + 1 < UInt64.size := by omega
  refine ⟨ht.commit_sound h.sound hs hnext, ?_, fun tx => ht.commit_other h.sound hs hnext (h.tracked tx)⟩
  have hle := Transaction.toNat_height_commit_le hs
  change s.height.toNat ≤ n + (j.committed ++ [es]).length
  rw [List.length_append, List.length_singleton]
  omega

theorem Followed.step {a : Step} (ha : a.interleaves)
    (hn : n + (j.note a (x.step c a).1).committed.length < UInt64.size) :
    Followed c n (x.step c a).2 (j.note a (x.step c a).1) := by
  cases a with
  | begin tx => exact h.insert tx (tracked_empty c x.store)
  | drop tx => exact h.erase tx
  | committed k => exact h
  | save => exact h
  | reload => cases ha
  | load path b => cases ha
  | commit tx =>
    rw [Session.step] at hn ⊢
    cases hs : (x.transaction tx).commit x.store with
    | error f => exact h.erase tx
    | ok s =>
      simp only [hs, Journal.note, List.length_append, List.length_singleton] at hn
      exact (h.commit (h.tracked tx) hs (by omega)).erase tx
  | run tx d =>
    cases tx with
    | some tx => exact h.insert tx ((h.tracked tx).perform h.sound ha)
    | none =>
      rw [Session.step] at hn ⊢
      rcases x.alone_cases c d with ⟨a, s, hr, hs, he⟩ | ⟨f, he⟩
      · have ht := (tracked_empty c x.store).perform h.sound ha
        rw [hr] at ht
        rw [he] at hn ⊢
        simp only [Journal.note, List.length_append, List.length_singleton] at hn
        exact h.commit ht hs (by omega)
      · rw [he]
        exact h

def Journal.Replays (c : Contract) (s : Store) (j : Journal) (s' : Store) : Prop :=
  ∃ rss, c.replay s (j.committed.map (·.map Prod.fst)) = .ok (rss, s') ∧
    List.Forall₂ (List.Forall₂ Exchange.Agrees) j.committed rss

omit h in
theorem Journal.Replays.commit {s s₁ s₂ : Store} {t : Transaction} {es : List Exchange} (hr : j.Replays c s s₁)
    (hs : s₁.Sound) (ht : Tracked c s₁ t es) (hcommit : t.commit s₁ = .ok s₂) (o : Table (List Exchange)) :
    Journal.Replays c s ⟨o, j.committed ++ [es]⟩ s₂ := by
  obtain ⟨rss, hreplay, hagree⟩ := hr
  obtain ⟨hagain, hanswers⟩ := ht.commit_again hs hcommit
  refine ⟨_, ?_, List.rel_append hagree (.cons hanswers .nil)⟩
  rw [List.map_append, List.map_singleton]
  exact Contract.replay_append hreplay hagain

theorem Followed.step_cases {a : Step} (ha : a.interleaves) :
    (x.step c a).2.store = x.store ∧ (j.note a (x.step c a).1).committed = j.committed ∨
      ∃ t es, Tracked c x.store t es ∧ t.commit x.store = .ok (x.step c a).2.store ∧
        (j.note a (x.step c a).1).committed = j.committed ++ [es] := by
  cases a with
  | begin tx | drop tx | committed k | save => exact .inl ⟨rfl, rfl⟩
  | reload | load => cases ha
  | commit tx =>
    rw [Session.step]
    cases hs : (x.transaction tx).commit x.store with
    | error f => exact .inl ⟨rfl, rfl⟩
    | ok s => exact .inr ⟨x.transaction tx, j.exchanges tx, h.tracked tx, hs, rfl⟩
  | run tx d =>
    cases tx with
    | some tx => exact .inl ⟨rfl, rfl⟩
    | none =>
      rw [Session.step]
      rcases x.alone_cases c d with ⟨a, s, hr, hs, he⟩ | ⟨f, he⟩
      · have ht := (tracked_empty c x.store).perform h.sound ha
        rw [hr] at ht
        rw [he]
        exact .inr ⟨_, _, ht, hs, rfl⟩
      · rw [he]
        exact .inl ⟨rfl, rfl⟩

theorem Followed.replays {a : Step} (ha : a.interleaves) {s : Store} (hr : j.Replays c s x.store) :
    (j.note a (x.step c a).1).Replays c s (x.step c a).2.store := by
  rcases h.step_cases ha with ⟨hs, hj⟩ | ⟨t, es, ht, hs, hj⟩
  · rw [Journal.Replays, hs, hj]
    exact hr
  · rw [Journal.Replays, hj]
    exact hr.commit h.sound ht hs ∅

end Steps

section Runs

variable {c : Contract}

theorem followed_store {s : Store} {n : Nat} {j : Journal} (hs : s.Sound)
    (hn : s.height.toNat ≤ n + j.committed.length) : Followed c n ⟨s, ∅⟩ { j with opened := ∅ } where
  sound := hs
  height := hn
  tracked tx := by
    have hx : Session.transaction ⟨s, ∅⟩ tx = .empty := by simp [Session.transaction]
    have hj : Journal.exchanges { j with opened := ∅ } tx = [] := by simp [Journal.exchanges]
    rw [hx, hj]
    exact tracked_empty c s

theorem Followed.run {n : Nat} {x : Session} {j : Journal} (h : Followed c n x j) {as : List Step}
    (has : ∀ a ∈ as, a.interleaves) (hn : n + (Journal.run c x j as).committed.length < UInt64.size) {s : Store}
    (hr : j.Replays c s x.store) : (Journal.run c x j as).Replays c s (Session.run c x as).2.store := by
  induction as generalizing x j with
  | nil => exact hr
  | cons a as ih =>
    have ha := has a (by simp)
    have hle := Journal.committed_run c (x.step c a).2 (j.note a (x.step c a).1) as
    rw [Journal.run] at hn ⊢
    exact ih (h.step ha (by omega)) (fun b hb => has b (by simp [hb])) hn (h.replays ha hr)

theorem Contractual.followed {as : List Step} (h : Contractual c as)
    (hn : (Journal.run c .empty .empty as).committed.length < UInt64.size) :
    Followed c 0 (Session.run c .empty as).2 (Journal.run c .empty .empty as) := by
  induction h with
  | nil => exact followed_store (j := .empty) Store.sound_empty (Nat.le_refl 0)
  | @step as a h ha ih =>
    have hlast := ih (Journal.committed_lt_of_earlier (List.prefix_append as [a]) hn)
    rw [Journal.run_append] at hn ⊢
    rw [Session.run_append]
    refine hlast.step ha ?_
    rw [Nat.zero_add]
    exact hn
  | @reload as h ih =>
    have hlast := ih (Journal.committed_lt_of_earlier (List.prefix_append as _) hn)
    rw [Journal.run_append, Session.run_append]
    simp only [Session.run, Journal.run, Session.step, Session.load, Snapshot.load_save]
    exact followed_store hlast.sound hlast.height
  | @restart as h path ih =>
    rw [Journal.run_append, Session.run_append]
    exact followed_store Store.sound_empty (Nat.zero_le _)
  | @load as bs h hb earlier path ih ihb =>
    have hsaved := ihb (Journal.committed_lt_of_earlier (earlier.trans (List.prefix_append as _)) hn)
    have hle := Journal.committed_prefix c .empty .empty earlier
    rw [Journal.run_append, Session.run_append]
    simp only [Session.run, Journal.run, Session.step, Session.load, Snapshot.load_save]
    exact followed_store hsaved.sound (hsaved.height.trans (Nat.add_le_add_left hle 0))

/-- Transactions that invoke the contract are serialisable in the order of their commits. If those that
were committed are carried out one after the other on the store that all began with, they are committed
again and leave the same store, and each invocation that does not enumerate answers the same. -/
theorem serialisable {as bs : List Step} (h : Contractual c as) (hbs : ∀ b ∈ bs, b.interleaves) :
    let s := (Session.run c .empty as).2.store
    let x := (Session.run c ⟨s, ∅⟩ bs).2
    let j := Journal.run c ⟨s, ∅⟩ .empty bs
    (Journal.run c .empty .empty as).committed.length + j.committed.length < UInt64.size →
      ∃ rss, c.replay s (j.committed.map (·.map Prod.fst)) = .ok (rss, x.store) ∧
        List.Forall₂ (List.Forall₂ Exchange.Agrees) j.committed rss := by
  intro s x j hn
  have hlast := h.followed (by omega)
  have hstart : Followed c _ ⟨s, ∅⟩ .empty :=
    followed_store (j := .empty) hlast.sound (hlast.height.trans (Nat.add_comm 0 _).le)
  exact hstart.run hbs hn ⟨[], rfl, .nil⟩

def burning : List Step :=
  [.begin "t", .begin "u",
   .run (some "t") (.invoke none "burn" ["\x7b\"Token\":\"GLD\",\"From\":\"alice\",\"Amount\":1\x7d"]),
   .run (some "u") (.invoke none "burn" ["\x7b\"Token\":\"GLD\",\"From\":\"alice\",\"Amount\":2\x7d"]),
   .commit "t", .commit "u"]

theorem serialisable_burning :
    let s := (Session.run .signing .empty listing).2.store
    let x := (Session.run .signing ⟨s, ∅⟩ burning).2
    let j := Journal.run .signing ⟨s, ∅⟩ .empty burning
    ∃ rss, Contract.signing.replay s (j.committed.map (·.map Prod.fst)) = .ok (rss, x.store) ∧
      List.Forall₂ (List.Forall₂ Exchange.Agrees) j.committed rss := by
  refine serialisable (contractual_listing .signing) (by decide) ?_
  have h₁ := Journal.committed_run_le .signing .empty .empty listing
  have h₂ := Journal.committed_run_le .signing ⟨(Session.run .signing .empty listing).2.store, ∅⟩ .empty burning
  exact lt_of_le_of_lt (Nat.add_le_add h₁ h₂) (by decide)

/-- Whatever is done with the contract, in any order, what circulates of a listed token is its supply. -/
theorem circulation_eq_supply {as bs : List Step} (h : Contractual c as)
    (hn : (Journal.run c .empty .empty as).committed.length < UInt64.size) (hb : bs <+: as) {symbol : String}
    {document : Bytes}
    (hlisted : (Session.run c .empty bs).2.store.value? (Key.token symbol).encode = some document) :
    ∃ t, Token.codec.decode document = .ok t ∧
      circulation? (Session.run c .empty bs).2.store.live symbol = some t.supply.units := by
  have hshort := lt_of_le_of_lt (Journal.committed_prefix c .empty .empty hb) hn
  have hsound := ((h.of_prefix hb).followed hshort).sound
  have hlive : (Session.run c .empty bs).2.store.live[(Key.token symbol).encode]? = some document := by
    rw [Store.getElem?_live, hlisted]
  obtain ⟨t, -, rfl⟩ := hsound.coherent.token_cases hlive
  have ht : token? (Session.run c .empty bs).2.store.live symbol = some t := by
    rw [token?, hlive]
    simp [Except.toOption]
  refine ⟨t, Token.decode_write t, ?_⟩
  rw [hsound.coherent.circulation?_eq, hsound.conserved symbol t ht]

theorem circulation_eq_supply_burning :
    ∃ t, Token.codec.decode (Token.codec.write ⟨"", .crypto, "GLD", ⟨400000000, by decide⟩, 0⟩) = .ok t ∧
      circulation? (Session.run .signing .empty (listing ++ burning)).2.store.live "GLD" = some t.supply.units := by
  have hlisted : (Session.run .signing .empty (listing ++ burning)).2.store.value? (Key.token "GLD").encode =
      some (Token.codec.write ⟨"", .crypto, "GLD", ⟨400000000, by decide⟩, 0⟩) := by
    decide +kernel
  refine circulation_eq_supply (.of_interleaves .signing (by decide)) ?_ (List.prefix_refl _) hlisted
  exact lt_of_le_of_lt (Journal.committed_run_le .signing .empty .empty (listing ++ burning)) (by decide)

end Runs

end TokenLedger
