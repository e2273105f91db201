import TokenLedger.Proofs.Journal
import TokenLedger.Proofs.Told

/-! Envelopes tell what was written. An invocation that answers with an envelope has put into its transaction the
documents that can be read from the envelope and nothing else, so whoever receives the envelopes of all that is
committed can keep a copy of the balances and tokens up to date without a look at the store. -/

namespace TokenLedger

open Live Query

def Action.written {α : Type} : Action α → Store → Transaction → List Change
  | .answer _, _, _ => []
  | .fail _, _, _ => []
  | .look k next, s, t =>
    match t.writes[k]? with
    | some w => (next w).written s t
    | none => (next (s.value? k)).written s (t.note ((∅ : Table UInt64).insert k (s.version k)))
  | .range p next, s, t =>
    (next (Store.under p (t.view s)).toList).written s
      (t.note ((Store.under p s.entries).map fun _ e => e.version))
  | .write c next, s, t => c :: next.written s (t.apply c)

/-- What an invocation puts into its transaction, one after the other. -/
def Contract.puts (c : Contract) (s : Store) (t : Transaction) (role : Option Role) (name : String)
    (args : List String) : List (Key × Option Bytes) :=
  ((c.request role name args).written s t).map fun ch => (ch.key, ch.document)

namespace Action

variable {α : Type}

theorem Settled.written_eq {a : Action α} (h : a.Settled) {e : Effect α} (he : a.plan = .answer e) (s : Store)
    (t : Transaction) : a.written s t = e.changes := by
  induction a generalizing e t with
  | answer a =>
    cases he
    rfl
  | fail | look | range => exact h.elim
  | write c next ih =>
    obtain ⟨d, hd⟩ := Settled.exists_plan (a := next) h
    rw [plan, hd] at he
    cases he
    rw [written, ih h hd]
    rfl

theorem WritesLast.written_eq {a : Action α} (h : a.WritesLast) (s : Store) (t : Transaction) :
    a.written s t = match (a.plan.run s t).1 with
      | .ok e => e.changes
      | .error _ => [] := by
  induction a generalizing t with
  | answer a => rfl
  | fail e => rfl
  | look k next ih =>
    rw [written, plan, Query.run]
    cases t.writes[k]? with
    | some w => exact ih w (h w) t
    | none => exact ih _ (h _) _
  | range p next ih => exact ih _ (h _) _
  | write c next =>
    have hsettled : (write c next).Settled := h
    obtain ⟨e, he⟩ := hsettled.exists_plan
    rw [hsettled.written_eq he, he]
    rfl

end Action

/-- The transaction with several values pending, of two under one key the later one. -/
def Transaction.putAll (t : Transaction) (ps : List (Key × Option Bytes)) : Transaction :=
  ps.foldl (fun t p => t.put p.1 p.2) t

theorem Transaction.applyAll_eq_putAll (t : Transaction) (cs : List Change) :
    t.applyAll cs = t.putAll (cs.map fun ch => (ch.key, ch.document)) := by
  rw [putAll, List.foldl_map]
  rfl

theorem Contract.writes_invoke (c : Contract) (s : Store) (t : Transaction) (role : Option Role) (name : String)
    (args : List String) :
    (c.invoke s t role name args).2.writes = (t.putAll (c.puts s t role name args)).writes := by
  rw [c.invoke_eq, perform_eq, puts, (c.writesLast_request role name args).written_eq, run_fst]
  cases he : (c.request role name args).plan.eval (t.view s) with
  | error f => exact writes_run _ s t
  | ok e =>
    rw [← Transaction.applyAll_eq_putAll]
    exact Transaction.writes_applyAll_congr (writes_run _ s t) e.changes

/-- A report is exactly what was put: each account and each token once, and under each key, octet by octet, the
document that was put there. -/
structure Report.Exact (r : Report) (ps : List (Key × Option Bytes)) : Prop where
  accounts : (r.balances.map Prod.fst).Nodup
  symbols : (r.tokens.map Prod.fst).Nodup
  documents : ps.Perm (r.documents.map fun p => (p.1, some p.2))

theorem Effect.Told.exact {e : Effect Envelope} (h : e.Told) :
    e.answer.report.Exact (e.changes.map fun ch => (ch.key, ch.document)) := by
  obtain ⟨haccounts, hsymbols⟩ := e.answer.nodup_report
  refine ⟨haccounts, hsymbols, ?_⟩
  rw [h.filed.documents_report]
  exact h.changes.map _

def Exchange.reported : Exchange → List (Key × Bytes)
  | (.invoke _ name _, .ok (.payload b)) =>
    if (Operation.ofName? name).any (·.tells) then ((Report.ofPayload? b).map (·.documents)).getD [] else []
  | _ => []

/-- Where an exchange has written without a report. -/
def Exchange.silent : Exchange → Option Namespace
  | (.invoke _ name _, .ok _) => (Operation.ofName? name).bind (·.silent)
  | _ => none

/-- A copy of live values, brought up to date by what an exchange reports. -/
def mirror (m : Table Bytes) (x : Exchange) : Table Bytes :=
  x.reported.foldl (fun m p => m.insert p.1.encode p.2) m

namespace Live

theorem applyAll_changes {e : Envelope} (h : e.Filed) (m : Table Bytes) :
    e.report.documents.foldl (fun m p => m.insert p.1.encode p.2) m = applyAll m e.changes := by
  let set (m : Table Bytes) (p : Key × Option Bytes) : Table Bytes :=
    p.2.elim (m.erase p.1.encode) (m.insert p.1.encode)
  have hset : apply = fun m ch => set m (ch.key, ch.document) := by
    funext m ch
    rw [apply]
    cases ch.document <;> rfl
  have hdocuments := congrArg (List.foldl set m) h.documents_report
  rw [List.foldl_map, List.foldl_map] at hdocuments
  rw [applyAll, hset]
  exact hdocuments

theorem getElem?_applyAll_perm {cs ds : List Change} (hp : cs.Perm ds) (hn : (ds.map Change.key).Nodup)
    {l m : Table Bytes} {k : Key} (h : m[k.encode]? = l[k.encode]?) :
    (applyAll m ds)[k.encode]? = (applyAll l cs)[k.encode]? := by
  by_cases hk : ∃ ch ∈ ds, ch.key = k
  · obtain ⟨ch, hch, rfl⟩ := hk
    rw [getElem?_applyAll_of_mem hn hch,
      getElem?_applyAll_of_mem ((hp.map Change.key).nodup_iff.mpr hn) (hp.mem_iff.mpr hch)]
  · have hother : ∀ ch ∈ ds, ch.key.encode ≠ k.encode := fun ch hch he => hk ⟨ch, hch, Key.encode_injective he⟩
    rw [getElem?_applyAll_of_forall hother,
      getElem?_applyAll_of_forall fun ch hch => hother ch (hp.mem_iff.mp hch), h]

end Live

/-- A copy that holds under a key what is seen within a transaction still does so after an exchange. -/
theorem mirror_perform {c : Contract} {s r : Store} {t : Transaction} {d : Deed} (hd : d.isInvocation) {k : Key}
    (hsilent : Exchange.silent (d, (d.perform c s t).1) ≠ some k.ns) {m : Table Bytes}
    (hm : m[k.encode]? = (t.view r)[k.encode]?) :
    (mirror m (d, (d.perform c s t).1))[k.encode]? = ((d.perform c s t).2.view r)[k.encode]? := by
  obtain ⟨role, name, args, rfl⟩ := Deed.invocation_cases hd
  have hview := view_perform (c.request role name args).plan s t r
  rw [Deed.perform_invoke] at hsilent ⊢
  rw [hview]
  rw [perform_eq] at hsilent ⊢
  cases he : (c.request role name args).plan.eval (t.view s) with
  | error f => exact hm
  | ok e =>
    rw [he] at hsilent
    obtain ⟨op, hop, -, hoperate⟩ := request_eq_ok.mp he
    have hname := Operation.name_of_parse hop
    subst hname
    cases htells : op.tells with
    | true =>
      obtain ⟨e', htold, rfl⟩ := told_operate htells hoperate
      have hmirror : mirror m (.invoke role op.name args, .ok (.payload e'.answer.write)) =
          applyAll m e'.answer.changes := by
        rw [← applyAll_changes htold.filed, mirror, Exchange.reported]
        simp [htells, Envelope.ofPayload?_write]
      change (mirror m (.invoke role op.name args, .ok (.payload e'.answer.write)))[k.encode]? =
        (applyAll (t.view r) e'.changes)[k.encode]?
      rw [hmirror]
      exact getElem?_applyAll_perm htold.changes htold.filed.nodup_changes hm
    | false =>
      have hchanges := silent_operate htells hoperate
      have hother : ∀ ch ∈ e.changes, ch.key.encode ≠ k.encode := by
        intro ch hch hk
        refine hsilent ?_
        rw [← Key.encode_injective hk, ← hchanges ch hch]
        simp [Exchange.silent, Except.map]
      have hmirror : mirror m (.invoke role op.name args, .ok (.payload e.answer)) = m := by
        rw [mirror, Exchange.reported]
        simp [htells]
      change (mirror m (.invoke role op.name args, .ok (.payload e.answer)))[k.encode]? =
        (applyAll (t.view r) e.changes)[k.encode]?
      rw [hmirror, getElem?_applyAll_of_forall hother, hm]

def Mirrored (k : Key) (t : Transaction) (es : List Exchange) : Prop :=
  (∀ e ∈ es, e.silent ≠ some k.ns) → ∀ (r : Store) (m : Table Bytes), m[k.encode]? = r.value? k.encode →
    (es.foldl mirror m)[k.encode]? = (t.view r)[k.encode]?

theorem mirrored_empty (k : Key) : Mirrored k .empty [] := by
  intro _ r m hm
  rw [Transaction.getElem?_view_empty]
  exact hm

theorem Mirrored.perform {k : Key} {t : Transaction} {es : List Exchange} (h : Mirrored k t es) {c : Contract}
    {s : Store} {d : Deed} (hd : d.isInvocation) :
    Mirrored k (d.perform c s t).2 (es ++ [(d, (d.perform c s t).1)]) := by
  intro hsilent r m hm
  have hes := h (fun e he => hsilent e (by simp [he])) r m hm
  rw [List.foldl_append]
  exact mirror_perform hd (hsilent _ (by simp)) hes

structure Copied (k : Key) (m : Table Bytes) (x : Session) (j : Journal) : Prop where
  store : (∀ e ∈ j.committed.flatten, e.silent ≠ some k.ns) →
    (j.committed.flatten.foldl mirror m)[k.encode]? = x.store.value? k.encode
  opened : ∀ tx : String, Mirrored k (x.opened[tx]?.getD .empty) (j.opened[tx]?.getD [])

theorem mirrored_law (c : Contract) (k : Key) (m : Table Bytes) :
    Journal.Law c (Mirrored k) fun s told => (∀ e ∈ told, e.silent ≠ some k.ns) →
      (told.foldl mirror m)[k.encode]? = s.value? k.encode where
  empty := mirrored_empty k
  perform h hd := h.perform hd
  commit {s s' t es told} ht hs hcommit hsilent := by
    have hbefore := hs fun e he => hsilent e (by simp [he])
    rw [List.foldl_append, ht (fun e he => hsilent e (by simp [he])) s _ hbefore, ← Store.getElem?_live,
      Transaction.live_commit hcommit]

theorem Copied.run {c : Contract} {k : Key} {m : Table Bytes} {x : Session} {j : Journal} (h : Copied k m x j)
    {as : List Step} (has : ∀ a ∈ as, a.interleaves ∨ a = .reload) :
    Copied k m (Session.run c x as).2 (Journal.run c x j as) := by
  have hrun := (mirrored_law c k m).holds_run ⟨h.store, h.opened⟩ has
  exact ⟨hrun.store, hrun.opened⟩

/-- An envelope is the set of what was written. In any transaction on any store, an operation that answers with an
envelope puts into the transaction, in some order, the documents that are read from the envelope, and nothing else.
So whoever has a copy of a store and is given the answers to what is committed from there on has a copy at all
times, wherever nothing was committed that is silent: of the tokens unless one was removed, and of the balances
unless one was initialised. -/
theorem envelopes_tell (c : Contract) :
    (∀ (s : Store) (t : Transaction) (role : Option Role) (op : Operation) (args : List String) (payload : Bytes),
      op.tells → (c.invoke s t role op.name args).1 = .ok payload →
        ∃ r, Report.ofPayload? payload = some r ∧ r.Exact (c.puts s t role op.name args) ∧
          (c.invoke s t role op.name args).2.writes = (t.putAll (c.puts s t role op.name args)).writes) ∧
      ∀ (s : Store) (as : List Step), (∀ a ∈ as, a.interleaves ∨ a = .reload) → ∀ (k : Key) (m : Table Bytes),
        m[k.encode]? = s.value? k.encode →
          let told := (Journal.run c ⟨s, ∅⟩ .empty as).committed.flatten
          (∀ e ∈ told, e.silent ≠ some k.ns) →
            (told.foldl mirror m)[k.encode]? = (Session.run c ⟨s, ∅⟩ as).2.store.value? k.encode := by
  refine ⟨fun s t role op args payload hop h => ?_, fun s as has k m hm => ?_⟩
  · rw [c.invoke_eq, perform_eq] at h
    cases he : (c.request role op.name args).plan.eval (t.view s) with
    | error f =>
      rw [he] at h
      cases h
    | ok e =>
      rw [he] at h
      obtain ⟨o, ho, -, hoperate⟩ := request_eq_ok.mp he
      rw [Operation.eq_of_parse ho] at hoperate
      obtain ⟨e', htold, rfl⟩ := told_operate hop hoperate
      obtain rfl : e'.answer.write = payload := Except.ok.inj h
      refine ⟨e'.answer.report, e'.answer.ofPayload?_write, ?_, c.writes_invoke s t role op.name args⟩
      rw [Contract.puts, (c.writesLast_request role op.name args).written_eq, run_fst, he]
      exact htold.exact
  · have h : Copied k m ⟨s, ∅⟩ .empty :=
      ⟨fun _ => hm, fun tx => by simpa [Journal.empty] using mirrored_empty k⟩
    exact (h.run has).store

def alike : List Step :=
  [.run none (.invoke (some .admin) "registerToken"
      ["\x7b\"TokenType\":\"CRYPTO\",\"Symbol\":\"B\",\"Supply\":5\x7d", "u/A"]),
    .run none (.invoke (some .admin) "registerToken"
      ["\x7b\"TokenType\":\"CRYPTO\",\"Symbol\":\"A/B\",\"Supply\":7\x7d", "u"]),
    .run none (.invoke none "registerAddress" ["u/A"]), .run none (.invoke none "registerAddress" ["u"]),
    .run none (.invoke none "registerAddress" ["%"])]

def payingBoth : List String :=
  ["\x7b\"Token\":\"B\",\"From\":\"u/A\",\"To\":\"%\",\"Amount\":1\x7d",
    "\x7b\"Token\":\"A/B\",\"From\":\"u\",\"To\":\"%\",\"Amount\":2\x7d"]

theorem envelopes_tell_alike :
    let s := (Session.run .signing .empty alike).2.store
    let as := [.begin "t", .run (some "t") (.invoke none "multitransfer" payingBoth),
      .run none (.invoke none "registerAddress" ["bob"]), .commit "t"]
    let told := (Journal.run .signing ⟨s, ∅⟩ .empty as).committed.flatten
    (∃ payload r, (Contract.signing.invoke s .empty none "multitransfer" payingBoth).1 = .ok payload ∧
      Report.ofPayload? payload = some r ∧
      r.balances.map Prod.fst = [⟨"%", "A/B"⟩, ⟨"%", "B"⟩, ⟨"u", "A/B"⟩, ⟨"u/A", "B"⟩] ∧
      r.Exact (Contract.signing.puts s .empty none "multitransfer" payingBoth)) ∧
      (told.foldl mirror s.live)[(Account.key ⟨"u/A", "B"⟩).encode]? =
        (Session.run .signing ⟨s, ∅⟩ as).2.store.value? (Account.key ⟨"u/A", "B"⟩).encode := by
  intro s as told
  let answer := (Contract.signing.invoke s .empty none "multitransfer" payingBoth).1
  have haccounts : (answer.toOption.bind Report.ofPayload?).map (·.balances.map Prod.fst) =
      some [⟨"%", "A/B"⟩, ⟨"%", "B"⟩, ⟨"u", "A/B"⟩, ⟨"u/A", "B"⟩] := by
    decide +kernel
  constructor
  · cases hp : answer with
    | error f =>
      rw [hp] at haccounts
      cases haccounts
    | ok payload =>
      obtain ⟨r, hr, hexact, -⟩ :=
        (envelopes_tell .signing).1 s .empty none .multitransfer payingBoth payload rfl hp
      rw [hp] at haccounts
      change (Report.ofPayload? payload).map (·.balances.map Prod.fst) = _ at haccounts
      rw [hr] at haccounts
      exact ⟨payload, r, hp, hr, Option.some.inj haccounts, hexact⟩
  · have has : ∀ a ∈ as, a.interleaves := by decide
    exact (envelopes_tell .signing).2 s as (fun a ha => .inl (has a ha)) (Account.key ⟨"u/A", "B"⟩) s.live
      (s.getElem?_live _) (by decide +kernel)

end TokenLedger
