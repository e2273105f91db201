import TokenLedger.Proofs.Journal
import TokenLedger.Proofs.Json.Float
import TokenLedger.Proofs.Told

/-! The financial standing of an actor. The scores that were accepted last are kept as a document, and who asks for
them is given what is read from there: numbers from 0 to 1 again, and those that were accepted if they are given by
few digits. Scores with more digits can come back as other ones. -/

namespace TokenLedger

open Live Query

namespace Scores

/-- Both scores are from 0 to 1. -/
def InUnit (s : Scores) : Prop := s.trust.inUnit ∧ s.endorsement.inUnit

theorem inUnit_of_validate {s : Scores} {u : Unit} (h : s.validate = .ok u) : s.InUnit := by
  rw [validate] at h
  cases ht : s.trust.inUnit with
  | false =>
    rw [ht] at h
    cases h
  | true =>
    cases he : s.endorsement.inUnit with
    | false =>
      rw [ht, he] at h
      cases h
    | true => exact ⟨ht, he⟩

/-- What scores are after they were written and read: each is read from its decimal, is from 0 to 1, and is the same
as before if it is given by few digits. -/
structure Reread (s r : Scores) : Prop where
  trust : Json.Codec.binary64.decode (Json.Codec.binary64.write s.trust) = .ok r.trust
  endorsement : Json.Codec.binary64.decode (Json.Codec.binary64.write s.endorsement) = .ok r.endorsement
  inUnit : r.InUnit
  trust_eq : s.trust.Short → r.trust = s.trust
  endorsement_eq : s.endorsement.Short → r.endorsement = s.endorsement

theorem decode_write {s : Scores} (h : s.InUnit) : ∃ r, codec.decode (codec.write s) = .ok r ∧ s.Reread r := by
  obtain ⟨trust, ht, htone, hteq⟩ := Json.takes_inUnit h.1
  obtain ⟨endorsement, he, heone, heeq⟩ := Json.takes_inUnit h.2
  refine ⟨⟨trust, endorsement⟩, ?_, ht.decode, he.decode, ⟨htone, heone⟩, hteq, heeq⟩
  have htakes : codec.Takes ⟨trust, endorsement⟩ (codec.write s) := by
    have hwrite : codec.write s = _ := layout.write_eq_spreadObject s
    rw [hwrite]
    exact layout.takes_spread [] [] [] rfl rfl rfl ⟨_, _, rfl, ht, _, _, rfl, he, rfl⟩ (by decide) rfl
  exact htakes.decode

end Scores

def Operation.recordsScores : Operation → Bool
  | .initialiseFinancialScores | .updateFinancialScores => true
  | _ => false

theorem Operation.silent_ne_scores {op : Operation} (h : op.recordsScores = false) : op.silent ≠ some .scores := by
  revert h
  cases op <;> decide

section Operate

variable {c : Contract} {l : Table Bytes} {op : Operation} {args : List String} {e : Effect Bytes}

theorem initialiseScores_inUnit {actor : String} {s : Scores} {e : Effect Unit}
    (he : (initialiseScores actor s).plan.eval l = .ok e) : s.InUnit := by
  rw [plan_initialiseScores, eval_bind_eq_ok] at he
  obtain ⟨u, hu, -⟩ := he
  rw [eval_liftM] at hu
  exact Scores.inUnit_of_validate hu

theorem updateScores_inUnit {register : ActorRegister} {actor : String} {s : Scores} {e : Effect Unit}
    (he : (updateScores register actor s).plan.eval l = .ok e) : s.InUnit := by
  rw [plan_updateScores, eval_bind_eq_ok] at he
  obtain ⟨known, -, he⟩ := he
  cases known with
  | false => simp at he
  | true =>
    simp only [if_true] at he
    exact initialiseScores_inUnit (plan_initialiseScores actor s ▸ he)

theorem operate_scores (hop : op.recordsScores) (he : (c.operate op args).plan.eval l = .ok e) :
    ∃ actor text s, args = [actor, text] ∧ Scores.codec.decodeText text = .ok s ∧ s.InUnit ∧
      e.changes = [.scores actor s] := by
  have hread {text : String} {s : Scores} (h : Argument.scores.read Scores.codec text = .ok s) :
      Scores.codec.decodeText text = .ok s := by
    rw [Argument.read] at h
    split at h <;> simp_all
  obtain ⟨i, hi, he⟩ := operate_eq_ok.mp he
  cases hi with
  | ask hq => cases hq <;> cases hop
  | order ho => cases ho <;> cases hop
  | file hf =>
    rw [Instruction.plan_file, eval_map_eq_ok] at he
    obtain ⟨e', he', rfl⟩ := he
    cases hf with
    | @initialiseScores actor text s read =>
      exact ⟨actor, text, s, rfl, hread read, initialiseScores_inUnit he', initialiseScores_changes he'⟩
    | @updateScores actor text s read =>
      exact ⟨actor, text, s, rfl, hread read, updateScores_inUnit he', updateScores_changes he'⟩
    | _ => cases hop

theorem operate_other (hop : op.recordsScores = false) (he : (c.operate op args).plan.eval l = .ok e) :
    ∀ ch ∈ e.changes, ch.key.ns ≠ .scores := by
  intro ch hch
  cases htells : op.tells with
  | true =>
    obtain ⟨e', htold, rfl⟩ := told_operate htells he
    have hmem := htold.changes.mem_iff.mp hch
    simp only [Envelope.changes, List.mem_append, List.mem_map] at hmem
    rcases hmem with ⟨p, -, rfl⟩ | ⟨p, -, rfl⟩ <;> (intro hscores; cases hscores)
  | false =>
    have hns := silent_operate htells he ch hch
    intro hscores
    rw [hscores] at hns
    exact absurd hns (Operation.silent_ne_scores hop)

end Operate

def Scores.given? (actor : String) : List String → Option Scores
  | [a, text] => if a = actor then (codec.decodeText text).toOption else none
  | _ => none

def Exchange.scores (actor : String) : Exchange → Option Scores
  | (.invoke _ name args, .ok _) =>
    if (Operation.ofName? name).any (·.recordsScores) then Scores.given? actor args else none
  | _ => none

def lastScores (actor : String) (es : List Exchange) : Option Scores := (es.filterMap (Exchange.scores actor)).getLast?

section Accepted

variable {actor : String}

theorem lastScores_append (es fs : List Exchange) :
    lastScores actor (es ++ fs) = (lastScores actor fs).or (lastScores actor es) := by
  rw [lastScores, List.filterMap_append, List.getLast?_append]
  rfl

theorem lastScores_singleton (e : Exchange) : lastScores actor [e] = e.scores actor := by
  rw [lastScores, List.filterMap_cons]
  cases e.scores actor <;> rfl

/-- An invocation writes the scores that it has accepted for an actor, or leaves those of this actor alone. -/
theorem changes_of_scores (actor : String) {c : Contract} {l : Table Bytes} {role : Option Role} {name : String} {args : List String}
    {e : Effect Bytes} (he : (c.request role name args).plan.eval l = .ok e) :
    (∃ s, Exchange.scores actor (.invoke role name args, .ok (.payload e.answer)) = some s ∧ s.InUnit ∧
      e.changes = [.scores actor s]) ∨
    Exchange.scores actor (.invoke role name args, .ok (.payload e.answer)) = none ∧
      ∀ ch ∈ e.changes, ch.key ≠ .scores actor := by
  obtain ⟨op, hop, -, hoperate⟩ := request_eq_ok.mp he
  have hname := Operation.name_of_parse hop
  subst hname
  cases hrecords : op.recordsScores with
  | true =>
    obtain ⟨a, text, s, rfl, hs, hunit, hchanges⟩ := operate_scores hrecords hoperate
    by_cases ha : a = actor
    · subst ha
      exact .inl ⟨s, by simp [Exchange.scores, hrecords, Scores.given?, hs, Except.toOption], hunit, hchanges⟩
    · refine .inr ⟨by simp [Exchange.scores, Scores.given?, ha], ?_⟩
      rw [hchanges]
      refine List.forall_mem_singleton.mpr fun hk => ha ?_
      exact List.singleton_inj.mp (congrArg Key.components hk)
  | false =>
    exact .inr ⟨by simp [Exchange.scores, hrecords], fun ch hch hk =>
      operate_other hrecords hoperate ch hch (congrArg Key.ns hk)⟩

/-- What is seen under the scores of an actor after an exchange, whatever the store is by then. -/
theorem view_scores {c : Contract} {s : Store} {t : Transaction} {d : Deed} (hd : d.isInvocation) (r : Store) :
    (∀ sc, Exchange.scores actor (d, (d.perform c s t).1) = some sc → sc.InUnit) ∧
      ((d.perform c s t).2.view r)[(Key.scores actor).encode]? =
        ((Exchange.scores actor (d, (d.perform c s t).1)).map Scores.codec.write).or
          (t.view r)[(Key.scores actor).encode]? := by
  obtain ⟨role, name, args, rfl⟩ := Deed.invocation_cases hd
  rw [Deed.perform_invoke, view_perform (c.request role name args).plan s t r, perform_eq]
  cases he : (c.request role name args).plan.eval (t.view s) with
  | error f => exact ⟨by simp [Exchange.scores, Except.map], rfl⟩
  | ok e =>
    dsimp only [Except.map]
    rcases changes_of_scores actor he with ⟨sc, hsc, hunit, hchanges⟩ | ⟨hnone, hother⟩
    · rw [hsc, hchanges, applyAll_cons, applyAll_nil, Option.map_some, Option.some_or]
      exact ⟨fun _ h => Option.some.inj h ▸ hunit, getElem?_apply_self (Transaction.view r t) (.scores actor sc)⟩
    · rw [hnone]
      exact ⟨by simp, getElem?_applyAll_of_forall fun ch hch hk => hother ch hch (Key.encode_injective hk)⟩

/-- What a transaction makes of the scores of an actor: those that were accepted there last, or those of the store. -/
structure Stands (actor : String) (t : Transaction) (es : List Exchange) : Prop where
  inUnit : ∀ s, lastScores actor es = some s → s.InUnit
  view : ∀ r : Store, (t.view r)[(Key.scores actor).encode]? =
    ((lastScores actor es).map Scores.codec.write).or (r.value? (Key.scores actor).encode)

theorem stands_empty (actor : String) : Stands actor .empty [] :=
  ⟨by simp [lastScores], fun r => by rw [Transaction.getElem?_view_empty]; rfl⟩

theorem Stands.perform {t : Transaction} {es : List Exchange} (h : Stands actor t es) {c : Contract} {s : Store}
    {d : Deed} (hd : d.isInvocation) : Stands actor (d.perform c s t).2 (es ++ [(d, (d.perform c s t).1)]) := by
  refine ⟨fun sc hsc => ?_, fun r => ?_⟩
  · rw [lastScores_append, lastScores_singleton, Option.or_eq_some_iff] at hsc
    rcases hsc with hsc | ⟨-, hsc⟩
    · exact (view_scores hd s).1 sc hsc
    · exact h.inUnit sc hsc
  · rw [(view_scores hd r).2, h.view, lastScores_append, lastScores_singleton, Option.map_or, Option.or_assoc]

def Recorded (actor : String) (r : Store) (told : List Exchange) : Prop :=
  ∀ s, lastScores actor told = some s → s.InUnit ∧ r.value? (Key.scores actor).encode = some (Scores.codec.write s)

theorem Stands.seen {t : Transaction} {es told : List Exchange} {r : Store} (ht : Stands actor t es)
    (hr : Recorded actor r told) {s : Scores} (h : lastScores actor (told ++ es) = some s) :
    s.InUnit ∧ (t.view r)[(Key.scores actor).encode]? = some (Scores.codec.write s) := by
  rw [ht.view r]
  rw [lastScores_append] at h
  cases hes : lastScores actor es with
  | none =>
    rw [hes, Option.none_or] at h
    exact hr s h
  | some last =>
    rw [hes, Option.some_or] at h
    cases h
    exact ⟨ht.inUnit _ hes, rfl⟩

theorem standing_law (c : Contract) (actor : String) : Journal.Law c (Stands actor) (Recorded actor) where
  empty := stands_empty actor
  perform h hd := h.perform hd
  commit ht hs hcommit sc hsc := by
    rw [← Store.getElem?_live, Transaction.live_commit hcommit]
    exact ht.seen hs hsc

end Accepted

/-- Everything that a deed can know of: what was committed, and what was done before in its own transaction. -/
def Journal.seen (j : Journal) (tx : Option String) : List Exchange :=
  j.committed.flatten ++ (tx.map j.exchanges).getD []

theorem request_getFinancialScores {c : Contract} {l : Table Bytes} {actor : String} {b : Bytes} {s : Scores}
    (hb : l[(Key.scores actor).encode]? = some b) (hs : Scores.codec.decode b = .ok s) (role : Option Role) :
    (c.request role "getFinancialScores" [actor]).plan.eval l = .ok (.unchanged (Scores.codec.write s)) := by
  refine request_eq_ok.mpr ⟨.getFinancialScores, rfl, rfl, ?_⟩
  have hscores : (Query.scores actor).eval l = .ok s := by
    rw [Query.scores, Query.record?, eval_bind, eval_bind, eval_get, hb]
    simp only [Except.bind, decoded, hs]
    rfl
  rw [Instruction.Spelled.plan_operate (.ask (.scores actor)), Instruction.plan_ask, eval_map, Question.answer, encode_bind, eval_map,
    hscores]
  rfl

/-- Scores are reread. After any invocations, commits and reloads from any store on, whoever asks for the scores of an
actor is given what the last accepted ones are read as from the decimals that they were written in: scores from 0
to 1, and exactly those that were accepted where these are given by fifteen digits or fewer. -/
theorem scores_reread (c : Contract) (s : Store) {as : List Step} (has : ∀ a ∈ as, a.interleaves ∨ a = .reload)
    (actor : String) (tx : Option String) {accepted : Scores}
    (h : lastScores actor ((Journal.run c ⟨s, ∅⟩ .empty as).seen tx) = some accepted) (role : Option Role) :
    accepted.InUnit ∧ ∃ returned : Scores, accepted.Reread returned ∧
      ((Session.run c ⟨s, ∅⟩ as).2.step c (.run tx (.invoke role "getFinancialScores" [actor]))).1 =
        .ok (.payload (Scores.codec.write returned)) := by
  have hlaw := standing_law c actor
  have hholds := hlaw.holds_run (hlaw.holds_empty (s := s) (by simp [Recorded, lastScores])) has
  generalize (Session.run c ⟨s, ∅⟩ as).2 = x at *
  generalize Journal.run c ⟨s, ∅⟩ .empty as = j at *
  cases tx with
  | none =>
    obtain ⟨hunit, hview⟩ := (stands_empty actor).seen hholds.store h
    obtain ⟨returned, hdecode, hreread⟩ := Scores.decode_write hunit
    obtain ⟨s', hs', -⟩ := Contract.execute_eq_ok (request_getFinancialScores (c := c) hview hdecode role)
    refine ⟨hunit, returned, hreread, ?_⟩
    rw [Session.step, Session.alone_invoke, hs']
    rfl
  | some tx =>
    obtain ⟨hunit, hview⟩ := (hholds.opened tx).seen hholds.store h
    obtain ⟨returned, hdecode, hreread⟩ := Scores.decode_write hunit
    have hrequest := request_getFinancialScores (c := c) hview hdecode role
    refine ⟨hunit, returned, hreread, ?_⟩
    rw [Session.step, Session.within]
    change (c.invoke x.store (x.transaction tx) role "getFinancialScores" [actor]).1.map Answer.payload = _
    rw [c.invoke_eq, perform_eq, Session.transaction, hrequest]
    rfl

def drifting : List Step :=
  [.run none (.invoke none "initialiseFinancialScores"
    ["alice", "\x7b\"TrustScore\":0.9176619106865202,\"EndorsementScore\":0.5\x7d"])]

theorem scores_reread_drifting :
    let accepted : Scores := ⟨⟨false, 8265563678039820, -53, by decide⟩, ⟨false, Binary64.hidden, -53, by decide⟩⟩
    lastScores "alice" ((Journal.run .signing ⟨.empty, ∅⟩ .empty drifting).seen none) = some accepted ∧
      accepted.InUnit ∧ ∃ returned : Scores, accepted.Reread returned ∧
        ((Session.run .signing ⟨.empty, ∅⟩ drifting).2.step .signing
          (.run none (.invoke none "getFinancialScores" ["alice"]))).1 = .ok (.payload (Scores.codec.write returned)) ∧
        returned.endorsement = accepted.endorsement ∧ returned.trust ≠ accepted.trust := by
  intro accepted
  have haccepted : lastScores "alice" ((Journal.run .signing ⟨.empty, ∅⟩ .empty drifting).seen none) =
      some accepted := by
    decide +kernel
  have has : ∀ a ∈ drifting, a.interleaves := by decide
  obtain ⟨hunit, returned, hreread, hanswer⟩ :=
    scores_reread .signing .empty (fun a ha => .inl (has a ha)) "alice" none haccepted none
  have hshort : accepted.endorsement.Short := ⟨5, 1, by decide, by decide, by decide +kernel⟩
  have hdrifts : (Json.Codec.binary64.decode (Json.Codec.binary64.write accepted.trust)).toOption ≠
      some accepted.trust := by
    decide +kernel
  refine ⟨haccepted, hunit, returned, hreread, hanswer, hreread.endorsement_eq hshort, fun heq => hdrifts ?_⟩
  rw [hreread.trust, heq]
  rfl

end TokenLedger
