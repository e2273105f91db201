import TokenLedger.Proofs.Scan
import TokenLedger.Proofs.Order

/-! Conflicts. The commit of a transaction fails exactly if another commit has rewritten a key since the
transaction first read it, and names the first of these keys. Entries get higher versions with every commit, so
the version that was read tells whether the entry is still the same. -/

namespace TokenLedger

section Read

variable {s : Store} {t : Transaction} {k : String}

/-- A question reads the keys that it looks at, unless a pending write answers, and of the keys under a prefix
that it looks at those that have an entry, be it one of a deleted record. -/
def Query.Reads {α : Type} (s : Store) (t : Transaction) (k : String) (q : Query α) : Prop :=
  q.Looks (t.view s) k ∧ k ∉ t.writes ∨
    ∃ p, q.Ranges (t.view s) p ∧ p.toList <+: k.toList ∧ k ∈ s.entries

def Deed.Reads (c : Contract) (s : Store) (t : Transaction) (k : String) : Deed → Prop
  | .get j => k = j.encode ∧ k ∉ t.writes
  | .scan ns components => (Key.scanPrefix ⟨ns, components⟩).toList <+: k.toList ∧ k ∈ s.entries
  | .select sel => (Key.scanPrefix ⟨sel.ns, []⟩).toList <+: k.toList ∧ k ∈ s.entries
  | .put _ _ => False
  | .invoke role name args => (c.request role name args).plan.Reads s t k
  | .call d => d.action.plan.Reads s t k

theorem Store.mem_under {α : Type} {p : String} {l : Table α} :
    k ∈ under p l ↔ p.toList <+: k.toList ∧ k ∈ l := by
  rw [Std.ExtTreeMap.mem_iff_isSome_getElem?, getElem?_under, Std.ExtTreeMap.mem_iff_isSome_getElem?,
    ← List.isPrefixOf_iff_prefix]
  split <;> simp_all

namespace Query

variable {α : Type}

theorem reads_look {j : String} {next : Option Bytes → Query α} : (Query.look j next).Reads s t k ↔
    k = j ∧ k ∉ t.writes ∨ (next (t.view s)[j]?).Reads s t k := by
  simp only [Reads, Looks, Ranges, or_and_right, or_assoc]

theorem reads_range {p : String} {next : List (String × Bytes) → Query α} : (Query.range p next).Reads s t k ↔
    k ∈ Store.under p s.entries ∨ (next (Store.under p (t.view s)).toList).Reads s t k := by
  simp only [Reads, Looks, Ranges, Store.mem_under, or_and_right, exists_or, exists_eq_left, or_left_comm]

/-- A question goes on reading with the answer of its first part. -/
theorem reads_bind {β : Type} {q : Query α} {f : α → Query β} : (q >>= f).Reads s t k ↔
    q.Reads s t k ∨ ∃ a, q.eval (t.view s) = .ok a ∧ (f a).Reads s t k := by
  simp only [Reads, looks_bind, ranges_bind]
  grind

@[simp] theorem not_reads_pure (a : α) : ¬ (pure a : Query α).Reads s t k := by
  rintro (⟨h, -⟩ | ⟨p, h, -⟩) <;> exact h

@[simp] theorem not_reads_liftM (x : Except Failure α) : ¬ (liftM x : Query α).Reads s t k := by
  cases x <;> rintro (⟨h, -⟩ | ⟨p, h, -⟩) <;> exact h

theorem mem_kept {q : Query α} : k ∈ q.kept s t.writes ↔ q.Reads s t k := by
  induction q with
  | answer a | fail f => simp [kept, Reads, Looks, Ranges]
  | look j next ih =>
    rw [kept, reads_look]
    cases hj : t.writes[j]? with
    | some w =>
      have hmem : j ∈ t.writes := Std.ExtTreeMap.mem_iff_isSome_getElem?.mpr (by rw [hj]; rfl)
      have hk : ¬ (k = j ∧ k ∉ t.writes) := fun h => h.2 (h.1 ▸ hmem)
      rw [Transaction.getElem?_view_of_some hj, or_iff_right hk]
      exact ih w
    | none =>
      have hmem : j ∉ t.writes := fun hm => by simpa [hj] using Std.ExtTreeMap.mem_iff_isSome_getElem?.mp hm
      have hk : k = j ∧ k ∉ t.writes ↔ k = j := and_iff_left_of_imp fun h => h ▸ hmem
      rw [Transaction.getElem?_view_of_none hj, hk, Std.ExtTreeMap.mem_union_iff, ih, Std.ExtTreeMap.mem_insert,
        Std.compare_eq_iff_eq, or_iff_left Std.ExtTreeMap.not_mem_empty, or_comm, eq_comm]
  | range p next ih =>
    have hview : Transaction.view s ⟨∅, t.writes⟩ = t.view s := Transaction.view_congr rfl
    rw [kept, reads_range, Std.ExtTreeMap.mem_union_iff, ih, hview, Std.ExtTreeMap.mem_map, or_comm]

end Query

theorem Deed.mem_kept {c : Contract} {d : Deed} : k ∈ d.kept c s t.writes ↔ d.Reads c s t k := by
  cases d with
  | invoke | call => exact Query.mem_kept
  | get j => simp [kept, Query.mem_kept, Reads, Query.get, Query.Reads, Query.Looks, Query.Ranges]
  | put j v => simp [kept, Reads]
  | scan ns components =>
    rw [kept, Query.mem_kept, Live.scan_eq, Query.reads_range, or_iff_left (Query.not_reads_liftM _),
      Store.mem_under, Reads]
  | select sel =>
    have hrest (hits : List (Key × Bytes)) :
        ¬ (pure (hits.filter fun hit => sel.accepts hit.2) : Query _).Reads s t k := Query.not_reads_pure _
    rw [kept, Query.mem_kept, Query.select, Live.scan_eq, Query.reads_bind, Query.reads_range,
      or_iff_left (Query.not_reads_liftM _), Store.mem_under, Reads]
    refine or_iff_left ?_
    rintro ⟨hits, -, h⟩
    exact hrest hits h

end Read

namespace Transaction

variable {s : Store} {t : Transaction} {k : String}

theorem least_of_stale? (h : t.stale? s = some k) : (∃ v, t.reads[k]? = some v ∧ s.version k ≠ v) ∧
    ∀ j v, t.reads[j]? = some v → s.version j ≠ v → k ≤ j := by
  have hordered : t.reads.toList.Pairwise fun p q => compare p.1 q.1 = .lt := Std.ExtTreeMap.ordered_keys_toList
  rw [stale?, Option.map_eq_some_iff] at h
  obtain ⟨⟨k, v⟩, hfind, rfl⟩ := h
  obtain ⟨hstale, before, after, hl, hfresh⟩ := List.find?_eq_some_iff_append.mp hfind
  refine ⟨⟨v, ?_, by simpa using hstale⟩, fun j w hj hw => ?_⟩
  · rw [← Std.ExtTreeMap.mem_toList_iff_getElem?_eq_some, hl]
    simp
  · rw [← Std.ExtTreeMap.mem_toList_iff_getElem?_eq_some, hl, List.mem_append, List.mem_cons] at hj
    rw [hl, List.pairwise_append, List.pairwise_cons] at hordered
    rcases hj with hj | hj | hj
    · exact absurd hw (by simpa using hfresh (j, w) hj)
    · cases hj
      exact Std.le_refl _
    · exact Std.le_of_lt (Text.compare_eq_lt.mp (hordered.2.1.1 (j, w) hj))

theorem stale?_eq_some : t.stale? s = some k ↔ (∃ v, t.reads[k]? = some v ∧ s.version k ≠ v) ∧
    ∀ j v, t.reads[j]? = some v → s.version j ≠ v → k ≤ j := by
  refine ⟨least_of_stale?, fun ⟨⟨v, hk, hv⟩, hleast⟩ => ?_⟩
  cases hs : t.stale? s with
  | none => exact absurd (stale?_eq_none.mp hs k v hk) hv
  | some i =>
    obtain ⟨⟨w, hi, hw⟩, hfirst⟩ := least_of_stale? hs
    rw [Std.le_antisymm (hfirst k v hk hv) (hleast i w hi hw)]

end Transaction

/-- A transaction remembers a version of each key that it has read. It is not above the one of the store, and
it is another one exactly if the key was overtaken. -/
structure Remembers (s : Store) (t : Transaction) (read overtaken : String → Prop) : Prop where
  mem : ∀ k, k ∈ t.reads ↔ read k
  le : ∀ k v, t.reads[k]? = some v → v ≤ s.version k
  ne : ∀ k v, t.reads[k]? = some v → (s.version k ≠ v ↔ overtaken k)

section Remembers

variable {s s' : Store} {t : Transaction} {read overtaken : String → Prop}

theorem remembers_empty (s : Store) : Remembers s .empty (fun _ => False) (fun _ => False) where
  mem k := by simp [Transaction.empty]
  le k v h := by simp [Transaction.empty] at h
  ne k v h := by simp [Transaction.empty] at h

theorem Remembers.congr {read' overtaken' : String → Prop} (h : Remembers s t read overtaken)
    (hr : ∀ k, read' k ↔ read k) (ho : ∀ k, overtaken' k ↔ overtaken k) : Remembers s t read' overtaken' := by
  rwa [funext fun k => propext (hr k), funext fun k => propext (ho k)]

variable (h : Remembers s t read overtaken)

include h

theorem Remembers.perform (hsub : ∀ k, overtaken k → read k) (c : Contract) (d : Deed) :
    Remembers s (d.perform c s t).2 (fun k => d.Reads c s t k ∨ read k) overtaken where
  mem k := by
    rw [← h.mem, ← Deed.mem_kept]
    simp only [Std.ExtTreeMap.mem_iff_isSome_getElem?, Deed.getElem?_reads_perform, Option.isSome_or,
      Bool.or_eq_true, or_comm]
  le k v hv := by
    rcases Deed.reads_perform_cases hv with hv | rfl
    · exact h.le k v hv
    · exact UInt64.le_refl _
  ne k v hv := by
    rw [Deed.getElem?_reads_perform, Option.or_eq_some_iff] at hv
    rcases hv with hv | ⟨hnone, hv⟩
    · exact h.ne k v hv
    · have hk : ¬ overtaken k := fun ho => by
        have hmem := (h.mem k).mpr (hsub k ho)
        rw [Std.ExtTreeMap.mem_iff_isSome_getElem?, hnone] at hmem
        cases hmem
      simp [hk, Deed.kept_eq_some hv]

/-- The commit of another transaction overtakes the keys that it rewrites. -/
theorem Remembers.commit {u : Transaction} (hs : u.commit s = .ok s') (hv : ∀ k, s.version k ≤ s.height)
    (hh : s.height.toNat + 1 < UInt64.size) :
    Remembers s' t read (fun k => read k ∧ k ∈ u.writes ∨ overtaken k) where
  mem := h.mem
  le k v hk := by
    rcases Transaction.version_commit_cases hs k with ⟨hw, he⟩ | ⟨-, he⟩
    · rw [he]
      exact UInt64.le_trans (h.le k v hk) (UInt64.le_trans (hv k) (Transaction.height_le_commit hs hh))
    · rw [he]
      exact h.le k v hk
  ne k v hk := by
    have hread : read k := (h.mem k).mp (Std.ExtTreeMap.mem_iff_isSome_getElem?.mpr (by rw [hk]; rfl))
    rcases Transaction.version_commit_cases hs k with ⟨hw, he⟩ | ⟨hw, he⟩
    · have hlt := UInt64.lt_of_le_of_lt (UInt64.le_trans (h.le k v hk) (hv k)) (Transaction.height_lt_commit hs hh hw)
      rw [he]
      exact iff_of_true (UInt64.ne_of_lt hlt).symm (.inl ⟨hread, hw⟩)
    · rw [he, h.ne k v hk]
      simp [hw]

variable (hsub : ∀ k, overtaken k → read k)

include hsub

theorem Remembers.overtaken_iff {k : String} :
    overtaken k ↔ ∃ v, t.reads[k]? = some v ∧ s.version k ≠ v := by
  constructor
  · intro ho
    obtain ⟨v, hv⟩ := Option.isSome_iff_exists.mp
      (Std.ExtTreeMap.mem_iff_isSome_getElem?.mp ((h.mem k).mpr (hsub k ho)))
    exact ⟨v, hv, (h.ne k v hv).mpr ho⟩
  · rintro ⟨v, hv, hne⟩
    exact (h.ne k v hv).mp hne

theorem Remembers.stale?_eq_none : t.stale? s = none ↔ ∀ k, ¬ overtaken k := by
  simp [Transaction.stale?_eq_none, h.overtaken_iff hsub]

theorem Remembers.stale?_eq_some {k : String} :
    t.stale? s = some k ↔ overtaken k ∧ ∀ j, overtaken j → k ≤ j := by
  simp only [Transaction.stale?_eq_some, h.overtaken_iff hsub, forall_exists_index, and_imp]

end Remembers

def Since (P : List Step → Step → Prop) (Q : Step → Prop) (as : List Step) : Prop :=
  ∃ before a after, as = before ++ a :: after ∧ P before a ∧ ∀ b ∈ after, Q b

section Since

variable {P : List Step → Step → Prop} {Q : Step → Prop}

theorem not_since_nil : ¬ Since P Q [] := by
  rintro ⟨before, a, after, h, -⟩
  simp at h

theorem since_concat {as : List Step} {a : Step} : Since P Q (as ++ [a]) ↔ P as a ∨ Q a ∧ Since P Q as := by
  constructor
  · rintro ⟨before, b, after, h, hp, hq⟩
    rcases after.eq_nil_or_concat with hafter | ⟨after, e, rfl⟩
    · rw [hafter] at h
      obtain ⟨rfl, hlast⟩ := List.append_inj' h rfl
      obtain rfl := List.singleton_inj.mp hlast
      exact .inl hp
    · rw [List.concat_eq_append, ← List.cons_append, ← List.append_assoc] at h
      obtain ⟨rfl, hlast⟩ := List.append_inj' h rfl
      obtain rfl := List.singleton_inj.mp hlast
      exact .inr ⟨hq _ (by simp), before, b, after, rfl, hp, fun e he => hq e (by simp [he])⟩
  · rintro (hp | ⟨ha, before, b, after, rfl, hp, hq⟩)
    · exact ⟨as, a, [], rfl, hp, by simp⟩
    · refine ⟨before, b, after ++ [a], by simp, hp, fun e he => ?_⟩
      rcases List.mem_append.mp he with he | he
      · exact hq e he
      · exact List.mem_singleton.mp he ▸ ha

end Since

namespace Step

/-- Steps that keep one store. -/
def onOneStore : Step → Bool
  | .reload | .load _ _ => false
  | _ => true

def ends (tx : String) : Step → Bool
  | .begin u | .commit u | .drop u => u == tx
  | .reload | .load _ _ => true
  | .run _ _ | .committed _ | .save => false

def Rewrites (c : Contract) (x : Session) (k : String) : Step → Prop
  | .commit u => (x.step c (.commit u)).1.isOk ∧ k ∈ (x.transaction u).writes
  | .run none d => (x.step c (.run none d)).1.isOk ∧ k ∈ (d.perform c x.store .empty).2.writes
  | _ => False

end Step

def HasRead (c : Contract) (tx k : String) : List Step → Prop :=
  Since (fun as a => ∃ d, a = .run (some tx) d ∧
    d.Reads c (Session.run c .empty as).2.store ((Session.run c .empty as).2.transaction tx) k) (¬ ·.ends tx)

/-- After some steps, another commit has rewritten a key that the transaction open under a name had read. -/
def Overtaken (c : Contract) (tx k : String) : List Step → Prop :=
  Since (fun as a => HasRead c tx k as ∧ ¬ a.ends tx ∧ a.Rewrites c (Session.run c .empty as).2 k) (¬ ·.ends tx)

section Sessions

variable {c : Contract} {as : List Step} {a : Step} {tx k : String}

theorem Session.run_concat (c : Contract) (x : Session) (as : List Step) (a : Step) :
    (run c x (as ++ [a])).2 = ((run c x as).2.step c a).2 := run_append c x as [a]

theorem Journal.run_concat (c : Contract) (x : Session) (j : Journal) (as : List Step) (a : Step) :
    run c x j (as ++ [a]) = (run c x j as).note a ((Session.run c x as).2.step c a).1 := run_append c x j as [a]

theorem hasRead_concat : HasRead c tx k (as ++ [a]) ↔
    (∃ d, a = .run (some tx) d ∧
      d.Reads c (Session.run c .empty as).2.store ((Session.run c .empty as).2.transaction tx) k) ∨
      ¬ a.ends tx ∧ HasRead c tx k as := since_concat

theorem overtaken_concat : Overtaken c tx k (as ++ [a]) ↔
    (HasRead c tx k as ∧ ¬ a.ends tx ∧ a.Rewrites c (Session.run c .empty as).2 k) ∨
      ¬ a.ends tx ∧ Overtaken c tx k as := since_concat

theorem HasRead.of_overtaken (h : Overtaken c tx k as) : HasRead c tx k as := by
  induction as using List.reverseRecOn with
  | nil => exact absurd h not_since_nil
  | append_singleton as a ih =>
    rcases overtaken_concat.mp h with ⟨hread, ha, -⟩ | ⟨ha, h⟩
    · exact hasRead_concat.mpr (.inr ⟨ha, hread⟩)
    · exact hasRead_concat.mpr (.inr ⟨ha, ih h⟩)

namespace Session

variable {x : Session}

theorem transaction_insert (x : Session) (s : Store) (tx u : String) (t : Transaction) :
    transaction ⟨s, x.opened.insert u t⟩ tx = if u = tx then t else x.transaction tx := by
  rw [transaction, Std.ExtTreeMap.getElem?_insert]
  simp only [Std.compare_eq_iff_eq]
  split <;> rfl

theorem transaction_erase (x : Session) (s : Store) (tx u : String) :
    transaction ⟨s, x.opened.erase u⟩ tx = if u = tx then .empty else x.transaction tx := by
  rw [transaction, Std.ExtTreeMap.getElem?_erase]
  simp only [Std.compare_eq_iff_eq]
  split <;> rfl

theorem transaction_ends (ha : a.onOneStore) (he : a.ends tx) : (x.step c a).2.transaction tx = .empty := by
  cases a with
  | begin u => simp_all [step, Step.ends, transaction_insert]
  | drop u => simp_all [step, Step.ends, transaction_erase]
  | commit u =>
    rw [step]
    cases (x.transaction u).commit x.store <;> simp_all [Step.ends, transaction_erase]
  | run | committed | save => cases he
  | reload | load => cases ha

theorem transaction_run (c : Contract) (x : Session) (tx : String) (d : Deed) :
    (x.step c (.run (some tx) d)).2.transaction tx = (d.perform c x.store (x.transaction tx)).2 := by
  simp [step, within, transaction_insert]

/-- Steps that neither end a transaction nor do a deed in it leave it as it is. -/
theorem transaction_step (he : ¬ a.ends tx) (hd : ∀ d, a ≠ .run (some tx) d) :
    (x.step c a).2.transaction tx = x.transaction tx := by
  cases a with
  | begin u => simp_all [step, Step.ends, transaction_insert]
  | drop u => simp_all [step, Step.ends, transaction_erase]
  | commit u =>
    rw [step]
    cases (x.transaction u).commit x.store <;> simp_all [Step.ends, transaction_erase]
  | run u d =>
    cases u with
    | some u =>
      have hu : u ≠ tx := fun hu => hd d (by rw [hu])
      simp [step, within, transaction_insert, hu]
    | none =>
      rw [step]
      rcases x.alone_cases c d with ⟨b, s, -, -, hs⟩ | ⟨f, hs⟩
      · rw [hs]
        rfl
      · rw [hs]
  | committed | save => rfl
  | reload | load => exact absurd rfl he

/-- A step leaves the store as it is, or commits a transaction. -/
theorem store_step (ha : a.onOneStore) (j : Journal) :
    (x.step c a).2.store = x.store ∧ (∀ k, ¬ a.Rewrites c x k) ∨
      ∃ t : Transaction, t.commit x.store = .ok (x.step c a).2.store ∧ (∀ k, a.Rewrites c x k ↔ k ∈ t.writes) ∧
        (j.note a (x.step c a).1).committed.length = j.committed.length + 1 := by
  cases a with
  | begin u | drop u | committed i | save => exact .inl ⟨rfl, fun k => id⟩
  | reload | load => cases ha
  | commit u =>
    simp only [Step.Rewrites, step]
    cases hs : (x.transaction u).commit x.store with
    | error f => exact .inl ⟨rfl, fun k h => Bool.false_ne_true h.1⟩
    | ok s => exact .inr ⟨_, hs, fun k => and_iff_right rfl, by simp [Journal.note]⟩
  | run u d =>
    cases u with
    | some u => exact .inl ⟨rfl, fun k => id⟩
    | none =>
      simp only [Step.Rewrites, step]
      rcases x.alone_cases c d with ⟨b, s, -, hs, he⟩ | ⟨f, he⟩
      · rw [he]
        exact .inr ⟨_, hs, fun k => and_iff_right rfl, by simp [Journal.note]⟩
      · rw [he]
        exact .inl ⟨rfl, fun k h => Bool.false_ne_true h.1⟩

end Session

structure Surveyed (c : Contract) (as : List Step) (x : Session) : Prop where
  height : x.store.height.toNat ≤ (Journal.run c .empty .empty as).committed.length
  versions : ∀ k, x.store.version k ≤ x.store.height
  remembers : ∀ tx, Remembers x.store (x.transaction tx) (HasRead c tx · as) (Overtaken c tx · as)

theorem surveyed_nil (c : Contract) : Surveyed c [] .empty where
  height := Nat.le_refl _
  versions k := by simp [Session.empty, Store.version, Store.empty]
  remembers tx := by
    have hempty : Session.empty.transaction tx = .empty := by simp [Session.transaction, Session.empty]
    rw [hempty]
    exact (remembers_empty _).congr (fun k => iff_of_false not_since_nil id) fun k =>
      iff_of_false not_since_nil id

section Concat

variable (h : Surveyed c as (Session.run c .empty as).2) (ha : a.onOneStore)
  (hn : (Journal.run c .empty .empty (as ++ [a])).committed.length < UInt64.size)

include h ha hn

theorem Surveyed.remembers_step (tx : String) :
    Remembers ((Session.run c .empty as).2.step c a).2.store (((Session.run c .empty as).2.step c a).2.transaction tx)
      (HasRead c tx · (as ++ [a])) (Overtaken c tx · (as ++ [a])) := by
  have ht := h.remembers tx
  have hversions := h.versions
  have hheight := h.height
  rw [Journal.run_concat] at hn
  simp only [hasRead_concat, overtaken_concat]
  generalize (Session.run c .empty as).2 = x at *
  by_cases he : a.ends tx
  · rw [Session.transaction_ends ha he]
    refine (remembers_empty _).congr (fun k => iff_of_false ?_ id) fun k => iff_of_false (by simp [he]) id
    rintro (⟨d, rfl, -⟩ | ⟨hne, -⟩)
    · cases he
    · exact hne he
  by_cases hd : ∃ d, a = .run (some tx) d
  · obtain ⟨d, rfl⟩ := hd
    rw [Session.transaction_run]
    exact (ht.perform (fun k => HasRead.of_overtaken) c d).congr (fun k => by simp [Step.ends])
      fun k => by simp [Step.ends, Step.Rewrites]
  · rw [Session.transaction_step he fun d hd' => hd ⟨d, hd'⟩]
    have hread (k : String) : (∃ d, a = .run (some tx) d ∧ d.Reads c x.store (x.transaction tx) k) ∨
        ¬ a.ends tx ∧ HasRead c tx k as ↔ HasRead c tx k as := by
      rw [or_iff_right fun ⟨d, hd', _⟩ => hd ⟨d, hd'⟩, and_iff_right he]
    rcases Session.store_step (c := c) (x := x) ha (Journal.run c .empty .empty as) with
      ⟨hs, hrewrites⟩ | ⟨t, hs, hrewrites, hlen⟩
    · rw [hs]
      exact ht.congr hread fun k => by simp [he, hrewrites]
    · exact (ht.commit hs hversions (by omega)).congr hread fun k => by simp [he, hrewrites]

theorem Surveyed.concat : Surveyed c (as ++ [a]) (Session.run c .empty (as ++ [a])).2 := by
  have hremembers := h.remembers_step ha hn
  rw [Session.run_concat]
  have hcount := (Journal.run c .empty .empty as).committed_note a ((Session.run c .empty as).2.step c a).1
  rw [Journal.run_concat] at hn
  have hheight := h.height
  have hversions := h.versions
  rcases Session.store_step (c := c) ha (Journal.run c .empty .empty as) with ⟨hs, -⟩ | ⟨t, hs, -, hlen⟩
  · refine ⟨?_, ?_, hremembers⟩
    · rw [hs, Journal.run_concat]
      omega
    · rw [hs]
      exact hversions
  · refine ⟨?_, fun k => ?_, hremembers⟩
    · rw [Journal.run_concat, hlen]
      exact (Transaction.toNat_height_commit_le hs).trans (by omega)
    · rcases Transaction.version_commit_cases hs k with ⟨-, he⟩ | ⟨-, he⟩
      · rw [he]
        exact UInt64.le_refl _
      · rw [he]
        exact UInt64.le_trans (hversions k) (Transaction.height_le_commit hs (by omega))

end Concat

theorem surveyed {as : List Step} (has : ∀ a ∈ as, a.onOneStore)
    (hn : (Journal.run c .empty .empty as).committed.length < UInt64.size) :
    Surveyed c as (Session.run c .empty as).2 := by
  induction as using List.reverseRecOn with
  | nil => exact surveyed_nil c
  | append_singleton as a ih =>
    exact (ih (fun b hb => has b (by simp [hb])) (Journal.committed_lt_of_earlier (List.prefix_append _ _) hn)).concat
      (has a (by simp)) hn

/-- The commit of a transaction fails exactly if a key that it has read was overtaken. It names the first of
these keys in the order of their octets, and the store stays as it is. Otherwise all pending writes become
entries with the new height, and nothing else changes. -/
theorem commit_overtaken {as : List Step} (has : ∀ a ∈ as, a.onOneStore) (tx : String)
    (hn : (Journal.run c .empty .empty (as ++ [.commit tx])).committed.length < UInt64.size) :
    let x := (Session.run c .empty as).2
    let t := x.transaction tx
    let answer := (x.step c (.commit tx)).1
    let y := (x.step c (.commit tx)).2
    (∀ k, answer = .error (.conflict k) ↔
      Overtaken c tx k as ∧ ∀ j, Overtaken c tx j as → Text.utf8 k ≤ Text.utf8 j) ∧
    ((∃ k, Overtaken c tx k as) → (∃ k, answer = .error (.conflict k)) ∧ y.store = x.store) ∧
    ((∀ k, ¬ Overtaken c tx k as) → answer = .ok (.committed y.store.height) ∧
      if t.writes.isEmpty then y.store = x.store
      else y.store.height.toNat = x.store.height.toNat + 1 ∧
        ∀ k : String, y.store.entries[k]? = match t.writes[k]? with
          | some v => some (Entry.mk y.store.height v)
          | none => x.store.entries[k]?) := by
  have h := surveyed has (Journal.committed_lt_of_earlier (List.prefix_append _ _) hn)
  have ht := h.remembers tx
  have hheight := h.height
  have hsub (k : String) : Overtaken c tx k as → HasRead c tx k as := HasRead.of_overtaken
  rw [Journal.run_concat] at hn
  generalize (Session.run c .empty as).2 = x at *
  simp only [Text.utf8_le_utf8, ← ht.stale?_eq_some hsub]
  cases hstale : (x.transaction tx).stale? x.store with
  | some i =>
    have hcommit : (x.transaction tx).commit x.store = .error (.conflict i) := by rw [Transaction.commit, hstale]
    have hi := ((ht.stale?_eq_some hsub).mp hstale).1
    simp only [Session.step, hcommit]
    exact ⟨fun k => by simp, fun _ => ⟨⟨i, rfl⟩, trivial⟩, fun hno => absurd hi (hno i)⟩
  | none =>
    have hno := (ht.stale?_eq_none hsub).mp hstale
    obtain ⟨s, hcommit⟩ : ∃ s, (x.transaction tx).commit x.store = .ok s :=
      ⟨_, Transaction.commit_eq_ok.mpr ⟨hstale, rfl⟩⟩
    simp only [Session.step, hcommit, Journal.note, List.length_append, List.length_singleton] at hn ⊢
    refine ⟨fun k => by simp, fun hex => absurd hex (not_exists.mpr hno), fun _ => ⟨trivial, ?_⟩⟩
    have hnew := Transaction.height_commit hcommit
    have hentries := Transaction.getElem?_entries_commit hcommit
    split
    · rename_i he
      rw [Transaction.commit_eq_ok, if_pos he] at hcommit
      exact hcommit.2
    · rename_i he
      rw [if_neg he] at hnew
      have hnext : x.store.height.toNat + 1 < UInt64.size := by omega
      refine ⟨?_, hnew ▸ hentries⟩
      rw [hnew, UInt64.toNat_add]
      exact Nat.mod_eq_of_lt hnext

end Sessions

/-- A transaction reads a token that another one writes before it is committed, and scans all tokens after that. -/
def overtaking : List Step :=
  [.begin "t", .begin "u", .run (some "t") (.get (Key.token "B")), .run (some "t") (.put (Key.token "C") (some [1])),
   .run (some "u") (.put (Key.token "A") none), .run (some "u") (.put (Key.token "B") (some [2])), .commit "u",
   .run (some "t") (.scan .tokens [])]

/-- Only the token that was read before the commit is overtaken, not the one whose entry was found by the scan. -/
theorem commit_overtaken_overtaking : (∀ a ∈ overtaking, a.onOneStore) ∧
    (Journal.run .signing .empty .empty (overtaking ++ [.commit "t"])).committed.length < UInt64.size ∧
    Overtaken .signing "t" "TOKEN/B" overtaking ∧
    ∀ k, Overtaken .signing "t" k overtaking → Text.utf8 "TOKEN/B" ≤ Text.utf8 k := by
  have has : ∀ a ∈ overtaking, a.onOneStore := by decide
  have hn : (Journal.run .signing .empty .empty (overtaking ++ [.commit "t"])).committed.length < UInt64.size := by
    decide +kernel
  obtain ⟨hconflict, -⟩ := commit_overtaken has "t" hn
  exact ⟨has, hn, (hconflict "TOKEN/B").mp (by decide +kernel)⟩

end TokenLedger
