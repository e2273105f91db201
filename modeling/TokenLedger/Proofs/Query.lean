import TokenLedger.Store.Transaction
import Mathlib.Tactic

/-! What a question answers depends on nothing but the live values that it is shown, and asking it within
a transaction keeps the version of every committed entry that it was shown. -/

namespace TokenLedger

namespace Store

theorem value?_eq (s : Store) (k : String) : s.value? k = s.entries[k]?.bind (·.value) := rfl

theorem getElem?_under {α : Type} (p : String) (t : Table α) (k : String) :
    (under p t)[k]? = if p.toList.isPrefixOf k.toList then t[k]? else none := by
  rw [under, Std.ExtTreeMap.getElem?_filter']
  cases t[k]? with
  | none => simp
  | some v => simp [Option.filter]

end Store

namespace Transaction

theorem getElem?_view (s : Store) (t : Transaction) (k : String) :
    (t.view s)[k]? = match t.writes[k]? with
      | some w => w
      | none => s.value? k := by
  rw [view, Std.ExtTreeMap.getElem?_filterMap', Std.ExtTreeMap.getElem?_union, Std.ExtTreeMap.getElem?_map,
    Store.value?_eq]
  cases t.writes[k]? with
  | some w => rfl
  | none => cases s.entries[k]? <;> rfl

theorem getElem?_view_of_none {s : Store} {t : Transaction} {k : String} (h : t.writes[k]? = none) :
    (t.view s)[k]? = s.value? k := by
  rw [getElem?_view, h]

theorem getElem?_view_of_some {s : Store} {t : Transaction} {k : String} {w : Option Bytes}
    (h : t.writes[k]? = some w) : (t.view s)[k]? = w := by
  rw [getElem?_view, h]

@[simp] theorem getElem?_view_empty (s : Store) (k : String) :
    ((empty : Transaction).view s)[k]? = s.value? k :=
  getElem?_view_of_none Std.ExtTreeMap.getElem?_empty

theorem view_congr {s : Store} {t u : Transaction} (h : t.writes = u.writes) : t.view s = u.view s := by
  rw [view, view, h]

@[simp] theorem view_note (s : Store) (t : Transaction) (v : Table UInt64) : (t.note v).view s = t.view s :=
  rfl

@[simp] theorem writes_note (t : Transaction) (v : Table UInt64) : (t.note v).writes = t.writes := rfl

theorem getElem?_reads_note (t : Transaction) (v : Table UInt64) (k : String) :
    (t.note v).reads[k]? = t.reads[k]?.or v[k]? :=
  Std.ExtTreeMap.getElem?_union

end Transaction

namespace Query

variable {α β : Type}

theorem bind_answer (q : Query α) : q.bind .answer = q := by
  induction q with
  | answer a => rfl
  | fail f => rfl
  | look k next ih =>
    rw [bind]
    congr 1
    funext v
    exact ih v
  | range p next ih =>
    rw [bind]
    congr 1
    funext hits
    exact ih hits

theorem bind_assoc {γ : Type} (q : Query α) (f : α → Query β) (g : β → Query γ) :
    (q.bind f).bind g = q.bind fun a => (f a).bind g := by
  induction q with
  | answer a => rfl
  | fail e => rfl
  | look k next ih =>
    simp only [bind]
    congr 1
    funext v
    exact ih v
  | range p next ih =>
    simp only [bind]
    congr 1
    funext hits
    exact ih hits

instance : LawfulMonad Query :=
  LawfulMonad.mk' Query (fun q => bind_answer q) (fun _ _ => rfl) (fun q f g => bind_assoc q f g)

def eval : Query α → Table Bytes → Except Failure α
  | .answer a, _ => .ok a
  | .fail f, _ => .error f
  | .look k next, l => (next l[k]?).eval l
  | .range p next, l => (next (Store.under p l).toList).eval l

@[simp] theorem eval_pure (a : α) (l : Table Bytes) : (pure a : Query α).eval l = .ok a := rfl

@[simp] theorem eval_throw (f : Failure) (l : Table Bytes) : (throw f : Query α).eval l = .error f := rfl

@[simp] theorem eval_liftM (x : Except Failure α) (l : Table Bytes) : (liftM x : Query α).eval l = x := by
  cases x <;> rfl

@[simp] theorem eval_bind (q : Query α) (f : α → Query β) (l : Table Bytes) :
    (q >>= f).eval l = (q.eval l).bind fun a => (f a).eval l := by
  change (q.bind f).eval l = _
  induction q with
  | answer a => rfl
  | fail e => rfl
  | look k next ih => exact ih l[k]?
  | range p next ih => exact ih _

@[simp] theorem eval_map (f : α → β) (q : Query α) (l : Table Bytes) :
    (f <$> q).eval l = (q.eval l).map f := by
  rw [map_eq_pure_bind, eval_bind]
  cases q.eval l <;> rfl

@[simp] theorem eval_get (k : Key) (l : Table Bytes) : (get k).eval l = .ok l[k.encode]? := rfl

theorem bind_eq_ok {x : Except Failure α} {f : α → Except Failure β} {b : β} :
    x.bind f = .ok b ↔ ∃ a, x = .ok a ∧ f a = .ok b := by
  cases x <;> simp [Except.bind]

theorem eval_bind_eq_ok {q : Query α} {f : α → Query β} {l : Table Bytes} {b : β} :
    (q >>= f).eval l = .ok b ↔ ∃ a, q.eval l = .ok a ∧ (f a).eval l = .ok b := by
  rw [eval_bind, bind_eq_ok]

/-- A question is answered by the value of a function where it was answered before. -/
theorem eval_map_eq_ok {q : Query α} {f : α → β} {l : Table Bytes} {b : β} :
    (f <$> q).eval l = .ok b ↔ ∃ a, q.eval l = .ok a ∧ f a = b := by
  rw [eval_map]
  cases q.eval l <;> simp [Except.map]

/-- What holds of the elements gone through so far, whatever they are, in the end holds of all. -/
theorem foldlM_induction {f : β → α → Query β} {l : Table Bytes} {as : List α} {b b' : β} (P : List α → β → Prop)
    (hnil : P [] b) (hstep : ∀ us a c c', a ∈ as → P us c → (f c a).eval l = .ok c' → P (us ++ [a]) c')
    (he : (as.foldlM f b).eval l = .ok b') : P as b' := by
  suffices hrun : ∀ us c, P us c → (as.foldlM f c).eval l = .ok b' → P (us ++ as) b' from hrun [] b hnil he
  clear he
  induction as with
  | nil =>
    intro us c hc he
    rw [List.foldlM_nil, eval_pure, Except.ok.injEq] at he
    rwa [List.append_nil, ← he]
  | cons a as ih =>
    intro us c hc he
    rw [List.foldlM_cons, eval_bind_eq_ok] at he
    obtain ⟨c', hc', hrest⟩ := he
    rw [List.append_cons]
    exact ih (fun us d c c' hd => hstep us d c c' (by simp [hd])) _ c' (hstep us a c c' (by simp) hc hc') hrest

/-- Asking within a transaction answers by what the transaction sees. -/
theorem run_fst (q : Query α) (s : Store) (t : Transaction) : (q.run s t).1 = q.eval (t.view s) := by
  induction q generalizing t with
  | answer a => rfl
  | fail f => rfl
  | look k next ih =>
    rw [run, eval]
    cases hw : t.writes[k]? with
    | some w =>
      rw [Transaction.getElem?_view_of_some hw]
      exact ih w t
    | none =>
      rw [Transaction.getElem?_view_of_none hw]
      exact ih _ _
  | range p next ih => exact ih _ _

/-- The texts that a question looks at on live values, one by one. -/
def Looks : Query α → Table Bytes → String → Prop
  | .answer _, _, _ => False
  | .fail _, _, _ => False
  | .look k next, l, j => j = k ∨ (next l[k]?).Looks l j
  | .range p next, l, j => (next (Store.under p l).toList).Looks l j

/-- The beginnings of texts of which a question looks at all. -/
def Ranges : Query α → Table Bytes → String → Prop
  | .answer _, _, _ => False
  | .fail _, _, _ => False
  | .look k next, l, r => (next l[k]?).Ranges l r
  | .range p next, l, r => r = p ∨ (next (Store.under p l).toList).Ranges l r

/-- A question goes on looking with the answer of its first part. -/
theorem looks_bind {q : Query α} {f : α → Query β} {l : Table Bytes} {k : String} :
    (q >>= f).Looks l k ↔ q.Looks l k ∨ ∃ a, q.eval l = .ok a ∧ (f a).Looks l k := by
  change (q.bind f).Looks l k ↔ _
  induction q with
  | answer a => simp [bind, Looks, eval]
  | fail e => simp [bind, Looks, eval]
  | look j next ih => simp [bind, Looks, eval, ih, or_assoc]
  | range p next ih => simp [bind, Looks, eval, ih]

theorem ranges_bind {q : Query α} {f : α → Query β} {l : Table Bytes} {p : String} :
    (q >>= f).Ranges l p ↔ q.Ranges l p ∨ ∃ a, q.eval l = .ok a ∧ (f a).Ranges l p := by
  change (q.bind f).Ranges l p ↔ _
  induction q with
  | answer a => simp [bind, Ranges, eval]
  | fail e => simp [bind, Ranges, eval]
  | look j next ih => simp [bind, Ranges, eval, ih]
  | range r next ih => simp [bind, Ranges, eval, ih, or_assoc]

@[simp] theorem looks_map {q : Query α} {f : α → β} {l : Table Bytes} {k : String} :
    (f <$> q).Looks l k ↔ q.Looks l k := by
  rw [map_eq_pure_bind, looks_bind]
  exact or_iff_left fun ⟨_, _, hpure⟩ => hpure

@[simp] theorem ranges_map {q : Query α} {f : α → β} {l : Table Bytes} {p : String} :
    (f <$> q).Ranges l p ↔ q.Ranges l p := by
  rw [map_eq_pure_bind, ranges_bind]
  exact or_iff_left fun ⟨_, _, hpure⟩ => hpure

section Run

variable {s : Store} {t : Transaction} {k : String} {v : UInt64}

@[simp] theorem writes_run (q : Query α) (s : Store) (t : Transaction) : (q.run s t).2.writes = t.writes := by
  induction q generalizing t with
  | answer a => rfl
  | fail f => rfl
  | look k next ih =>
    rw [run]
    split
    · exact ih _ t
    · exact ih _ _
  | range p next ih => exact ih _ _

theorem reads_run_of_reads (q : Query α) (h : t.reads[k]? = some v) : (q.run s t).2.reads[k]? = some v := by
  induction q generalizing t with
  | answer a => exact h
  | fail f => exact h
  | look j next ih =>
    rw [run]
    split
    · exact ih _ h
    · exact ih _ (by rw [Transaction.getElem?_reads_note, h, Option.some_or])
  | range p next ih => exact ih _ (by rw [Transaction.getElem?_reads_note, h, Option.some_or])

theorem reads_run_cases (q : Query α) (h : (q.run s t).2.reads[k]? = some v) :
    t.reads[k]? = some v ∨ v = s.version k := by
  induction q generalizing t with
  | answer a => exact .inl h
  | fail f => exact .inl h
  | look j next ih =>
    rw [run] at h
    split at h
    · exact ih _ h
    · rcases ih _ h with h | h
      · rw [Transaction.getElem?_reads_note, Option.or_eq_some_iff] at h
        rcases h with h | ⟨-, h⟩
        · exact .inl h
        · rw [Std.ExtTreeMap.getElem?_insert] at h
          by_cases hj : j = k
          · subst hj
            simp at h
            exact .inr h.symm
          · simp [hj] at h
      · exact .inr h
  | range p next ih =>
    rcases ih _ h with h | h
    · rw [Transaction.getElem?_reads_note, Option.or_eq_some_iff] at h
      rcases h with h | ⟨-, h⟩
      · exact .inl h
      · rw [Std.ExtTreeMap.getElem?_map, Store.getElem?_under] at h
        split at h
        · obtain ⟨e, he, rfl⟩ := Option.map_eq_some_iff.mp h
          exact .inr (by rw [Store.version, he])
        · cases h
    · exact .inr h

theorem mem_reads_run (q : Query α) (h : k ∈ t.reads) : k ∈ (q.run s t).2.reads := by
  obtain ⟨v, hv⟩ := Option.isSome_iff_exists.mp (Std.ExtTreeMap.mem_iff_isSome_getElem?.mp h)
  exact Std.ExtTreeMap.mem_iff_isSome_getElem?.mpr (by rw [reads_run_of_reads q hv]; rfl)

/-- Every entry that is looked at is kept, unless a pending write hides it. -/
theorem mem_reads_of_looks {q : Query α} (h : q.Looks (t.view s) k) (hw : t.writes[k]? = none) :
    k ∈ (q.run s t).2.reads := by
  induction q generalizing t with
  | answer a => exact h.elim
  | fail f => exact h.elim
  | look j next ih =>
    rw [run]
    cases hj : t.writes[j]? with
    | some w =>
      rcases h with rfl | h
      · rw [hw] at hj
        cases hj
      · rw [Transaction.getElem?_view_of_some hj] at h
        exact ih _ h hw
    | none =>
      rcases h with rfl | h
      · refine mem_reads_run _ ?_
        rw [Std.ExtTreeMap.mem_iff_isSome_getElem?, Transaction.getElem?_reads_note]
        simp
      · rw [Transaction.getElem?_view_of_none hj] at h
        exact ih _ h hw
  | range p next ih => exact ih _ h hw

/-- So is every committed entry of which a range is looked at. -/
theorem mem_reads_of_ranges {q : Query α} {p : String} (h : q.Ranges (t.view s) p)
    (hp : p.toList.isPrefixOf k.toList) (hk : k ∈ s.entries) : k ∈ (q.run s t).2.reads := by
  induction q generalizing t with
  | answer a => exact h.elim
  | fail f => exact h.elim
  | look j next ih =>
    rw [run]
    cases hj : t.writes[j]? with
    | some w => exact ih _ (by simpa [Ranges, Transaction.getElem?_view_of_some hj] using h)
    | none => exact ih _ (by simpa [Ranges, Transaction.getElem?_view_of_none hj] using h)
  | range r next ih =>
    rw [run]
    rcases h with rfl | h
    · refine mem_reads_run _ ?_
      rw [Std.ExtTreeMap.mem_iff_isSome_getElem?, Transaction.getElem?_reads_note,
        Std.ExtTreeMap.getElem?_map, Store.getElem?_under, if_pos hp]
      simp [Std.ExtTreeMap.mem_iff_isSome_getElem?.mp hk]
    · exact ih _ h

end Run

def Pointwise : Query α → Prop
  | .answer _ => True
  | .fail _ => True
  | .look _ next => ∀ v, (next v).Pointwise
  | .range _ _ => False

@[simp] theorem pointwise_pure (a : α) : (pure a : Query α).Pointwise := trivial

@[simp] theorem pointwise_throw (f : Failure) : (throw f : Query α).Pointwise := trivial

@[simp] theorem pointwise_liftM (x : Except Failure α) : (liftM x : Query α).Pointwise := by
  cases x <;> trivial

@[simp] theorem pointwise_get (k : Key) : (get k).Pointwise := fun _ => trivial

theorem Pointwise.bind {q : Query α} {f : α → Query β} (hq : q.Pointwise) (hf : ∀ a, (f a).Pointwise) :
    (q >>= f).Pointwise := by
  change (q.bind f).Pointwise
  induction q with
  | answer a => exact hf a
  | fail e => trivial
  | look k next ih => exact fun v => ih v (hq v)
  | range p next ih => exact hq.elim

theorem Pointwise.map {q : Query α} (hq : q.Pointwise) (f : α → β) : (f <$> q).Pointwise := by
  rw [map_eq_pure_bind]
  exact hq.bind fun _ => pointwise_pure _

theorem mapM_liftM (f : α → Except Failure β) (as : List α) :
    (as.mapM fun a => (liftM (f a) : Query β)) = liftM (as.mapM f) := by
  induction as with
  | nil => rfl
  | cons a as ih =>
    rw [List.mapM_cons, List.mapM_cons, ih]
    cases f a with
    | error e => rfl
    | ok b => cases as.mapM f <;> rfl

theorem Pointwise.foldlM {f : β → α → Query β} (hf : ∀ b a, (f b a).Pointwise) (as : List α) (b : β) :
    (as.foldlM f b).Pointwise := by
  induction as generalizing b with
  | nil => exact pointwise_pure b
  | cons a as ih =>
    rw [List.foldlM_cons]
    exact (hf b a).bind fun b => ih b

/-- The answer is the same on live values that agree where they are looked at. -/
theorem Pointwise.eval_congr {q : Query α} (hq : q.Pointwise) {l m : Table Bytes}
    (h : ∀ k, q.Looks l k → m[k]? = l[k]?) : q.eval m = q.eval l := by
  induction q with
  | answer a => rfl
  | fail e => rfl
  | look k next ih =>
    rw [eval, eval, h k (.inl rfl)]
    exact ih _ (hq _) fun j hj => h j (.inr hj)
  | range p next ih => exact hq.elim

end Query
end TokenLedger
