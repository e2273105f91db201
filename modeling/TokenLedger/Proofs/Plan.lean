import TokenLedger.Proofs.Encoding
import TokenLedger.Proofs.Query

/-! What an action comes to. Its plan asks all its questions of the state before it, and then gives the answer with the
changes. An action whose writes come last does what its plan says, and if it fails it has written nothing. -/

namespace TokenLedger

/-- An answer and the changes that go with it. -/
structure Effect (α : Type) where
  answer : α
  changes : List Change

namespace Effect

variable {α β : Type}

def unchanged (a : α) : Effect α := ⟨a, []⟩

def map (f : α → β) (e : Effect α) : Effect β := ⟨f e.answer, e.changes⟩

def after (cs : List Change) (e : Effect α) : Effect α := ⟨e.answer, cs ++ e.changes⟩

end Effect

namespace Transaction

/-- The transaction with all the changes pending, of two under one key the later one. -/
def applyAll (t : Transaction) (cs : List Change) : Transaction := cs.foldl apply t

@[simp] theorem applyAll_nil (t : Transaction) : t.applyAll [] = t := rfl

@[simp] theorem applyAll_cons (t : Transaction) (c : Change) (cs : List Change) :
    t.applyAll (c :: cs) = (t.apply c).applyAll cs := rfl

@[simp] theorem reads_applyAll (t : Transaction) (cs : List Change) :
    (t.applyAll cs).reads = t.reads := by
  induction cs generalizing t with
  | nil => rfl
  | cons c cs ih => simp [ih, apply, put]

end Transaction

/-- Asks within a transaction and, unless the question fails, applies the changes. -/
def Query.perform {α : Type} (q : Query (Effect α)) (s : Store) (t : Transaction) : Except Failure α × Transaction :=
  match q.run s t with
  | (.ok e, t) => (.ok e.answer, t.applyAll e.changes)
  | (.error f, t) => (.error f, t)

namespace Action

variable {α β : Type}

def plan : Action α → Query (Effect α)
  | .answer a => .answer (.unchanged a)
  | .fail f => .fail f
  | .look k next => .look k fun v => (next v).plan
  | .range p next => .range p fun hits => (next hits).plan
  | .write c next => Effect.after [c] <$> next.plan

@[simp] theorem plan_pure (a : α) : (pure a : Action α).plan = pure (.unchanged a) := rfl

theorem plan_write_bind (c : Change) (next : Action α) (f : α → Action β) :
    ((write c next).bind f).plan = Effect.after [c] <$> (next.bind f).plan := rfl

@[simp] theorem plan_liftM_bind (q : Query α) (f : α → Action β) :
    ((liftM q : Action α) >>= f).plan = q >>= fun a => (f a).plan := by
  change ((ofQuery q).bind f).plan = q.bind _
  induction q with
  | answer a => rfl
  | fail e => rfl
  | look k next ih => simp only [ofQuery, bind, plan, Query.bind, ih]
  | range p next ih => simp only [ofQuery, bind, plan, Query.bind, ih]

@[simp] theorem plan_except_bind (x : Except Failure α) (f : α → Action β) :
    ((liftM x : Action α) >>= f).plan = (liftM x : Query α) >>= fun a => (f a).plan :=
  plan_liftM_bind (liftM x) f

@[simp] theorem plan_liftM (q : Query α) : (liftM q : Action α).plan = Effect.unchanged <$> q := by
  change (ofQuery q).plan = _
  rw [map_eq_pure_bind]
  change _ = q.bind _
  induction q with
  | answer a => rfl
  | fail e => rfl
  | look k next ih => simp only [ofQuery, plan, Query.bind, ih]
  | range p next ih => simp only [ofQuery, plan, Query.bind, ih]

@[simp] theorem plan_throw_bind (f : Failure) (g : α → Action β) :
    ((throw f : Action α) >>= g).plan = (throw f : Query α) >>= fun a => (g a).plan := rfl

@[simp] theorem plan_ite (p : Prop) [Decidable p] (a b : Action α) :
    (if p then a else b).plan = if p then a.plan else b.plan := apply_ite ..

@[simp] theorem plan_save_bind (c : Change) (f : Unit → Action β) :
    (save c >>= f).plan = Effect.after [c] <$> (f ()).plan := by
  rw [save_eq]
  rfl

@[simp] theorem plan_save (c : Change) : (save c).plan = pure ⟨(), [c]⟩ := by
  rw [save_eq]
  rfl

/-- What follows an action is planned with its answer. -/
theorem plan_bind (a : Action α) (f : α → Action β) : (a >>= f).plan =
    a.plan >>= fun e => Effect.after e.changes <$> (f e.answer).plan := by
  change (a.bind f).plan = Query.bind a.plan _
  induction a with
  | answer a =>
    exact (id_map (f a).plan).symm
  | fail e => rfl
  | look k next ih => simp only [bind, plan, Query.bind, ih]
  | range p next ih => simp only [bind, plan, Query.bind, ih]
  | write c next ih =>
    rw [plan_write_bind, ih, plan]
    change Effect.after [c] <$> (next.plan >>= _) = (Effect.after [c] <$> next.plan) >>= _
    simp only [map_eq_pure_bind, bind_assoc, pure_bind]
    rfl

@[simp] theorem plan_map (f : α → β) (a : Action α) : (f <$> a).plan = Effect.map f <$> a.plan := by
  change (a >>= fun x => pure (f x)).plan = _
  rw [plan_bind, map_eq_pure_bind]
  simp only [plan_pure, map_pure]
  congr
  funext e
  rw [Effect.after, Effect.unchanged, Effect.map, List.append_nil]

theorem plan_saves (cs : List Change) : (cs.forM save).plan = pure ⟨(), cs⟩ := by
  induction cs with
  | nil => rfl
  | cons c cs ih =>
    change (save c >>= fun _ => cs.forM save).plan = _
    rw [plan_save_bind, ih]
    rfl

def Settled : Action α → Prop
  | .answer _ => True
  | .write _ next => next.Settled
  | _ => False

/-- Behind a write there is neither a look at the state nor a failure. -/
def WritesLast : Action α → Prop
  | .answer _ => True
  | .fail _ => True
  | .look _ next => ∀ v, (next v).WritesLast
  | .range _ next => ∀ hits, (next hits).WritesLast
  | .write _ next => next.Settled

theorem settled_pure (a : α) : (pure a : Action α).Settled := trivial

theorem settled_save (c : Change) : (save c).Settled := by
  rw [save_eq]
  trivial

theorem settled_saved (c : Change) (a : α) : (do save c; return a : Action α).Settled := by
  rw [save_eq]
  trivial

theorem Settled.bind {a : Action α} {f : α → Action β} (ha : a.Settled) (hf : ∀ x, (f x).Settled) :
    (a >>= f).Settled := by
  change (Action.bind a f).Settled
  induction a with
  | answer a => exact hf a
  | fail | look | range => exact ha.elim
  | write c next ih => exact ih ha

theorem Settled.forM {as : List α} {f : α → Action PUnit} (hf : ∀ a, (f a).Settled) : (as.forM f).Settled := by
  induction as with
  | nil => trivial
  | cons a as ih => exact (hf a).bind fun _ => ih

theorem Settled.writesLast {a : Action α} (h : a.Settled) : a.WritesLast := by
  cases a with
  | answer => trivial
  | fail | look | range => exact h.elim
  | write c next => exact h

theorem writesLast_pure (a : α) : (pure a : Action α).WritesLast := trivial

theorem writesLast_liftM_bind (q : Query α) {f : α → Action β} (hf : ∀ a, (f a).WritesLast) :
    ((liftM q : Action α) >>= f).WritesLast := by
  change ((ofQuery q).bind f).WritesLast
  induction q with
  | answer a => exact hf a
  | fail e => trivial
  | look k next ih => exact ih
  | range p next ih => exact ih

theorem writesLast_except_bind (x : Except Failure α) {f : α → Action β} (hf : ∀ a, (f a).WritesLast) :
    ((liftM x : Action α) >>= f).WritesLast := by
  cases x with
  | error e => trivial
  | ok a => exact hf a

theorem writesLast_throw_bind (f : Failure) (g : α → Action β) : ((throw f : Action α) >>= g).WritesLast := trivial

theorem writesLast_liftM (q : Query α) : (liftM q : Action α).WritesLast := by
  change (ofQuery q).WritesLast
  induction q with
  | answer | fail => trivial
  | look k next ih => exact ih
  | range p next ih => exact ih

/-- Writes may follow an action, and so may whatever cannot fail. -/
theorem WritesLast.bind {a : Action α} {f : α → Action β} (ha : a.WritesLast) (hf : ∀ x, (f x).Settled) :
    (a >>= f).WritesLast := by
  change (Action.bind a f).WritesLast
  induction a with
  | answer a => exact (hf a).writesLast
  | fail e => trivial
  | look k next ih => exact fun v => ih v (ha v)
  | range p next ih => exact fun hits => ih hits (ha hits)
  | write c next => exact Settled.bind (a := next) ha hf

/-- What only writes is planned without a question. -/
theorem Settled.exists_plan {a : Action α} (h : a.Settled) : ∃ e, a.plan = .answer e := by
  induction a with
  | answer a => exact ⟨_, rfl⟩
  | fail | look | range => exact h.elim
  | write c next ih =>
    obtain ⟨e, he⟩ := ih h
    exact ⟨e.after [c], by rw [plan, he]; rfl⟩

theorem Settled.perform_eq {a : Action α} (h : a.Settled) (s : Store) (t : Transaction) :
    a.perform s t = a.plan.perform s t := by
  induction a generalizing t with
  | answer a => rfl
  | fail | look | range => exact h.elim
  | write c next ih =>
    obtain ⟨e, he⟩ := Settled.exists_plan (a := next) h
    rw [perform, ih h, plan, he]
    rfl

/-- An action whose writes come last does what its plan says. -/
theorem WritesLast.perform_eq {a : Action α} (h : a.WritesLast) (s : Store) (t : Transaction) :
    a.perform s t = a.plan.perform s t := by
  induction a generalizing t with
  | answer a => rfl
  | fail e => rfl
  | look k next ih =>
    rw [perform, plan, Query.perform, Query.run]
    cases t.writes[k]? with
    | some w => exact ih w (h w) t
    | none => exact ih _ (h _) _
  | range p next ih => exact ih _ (h _) _
  | write c next => exact Settled.perform_eq (a := .write c next) h s t

end Action
end TokenLedger
