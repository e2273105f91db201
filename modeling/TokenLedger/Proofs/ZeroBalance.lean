import TokenLedger.Proofs.Coherence
import TokenLedger.Proofs.Matching
import TokenLedger.Proofs.Scan

/-! Balances of zero. Whether an account that holds nothing has a record or not shows in the lists of balances
and nowhere else: it is all the same to the operations whether a balance was drained, was recorded as zero by
request or was never there. So requests that record balances as they are can be put anywhere among others. -/

namespace TokenLedger

/-- The requests for lists of balances. -/
def balanceLists : List String := ["getBalancesOfAddress", "getBalancesOfTokenHolders", "getTokenHolderList"]

/-- Two values under the key of a balance: the same one, or no record and one of an amount of zero. -/
inductive Lazily : Option Bytes → Option Bytes → Prop
  | same (v : Option Bytes) : Lazily v v
  | recorded {document : Bytes} {b : Balance} (read : Balance.codec.decode document = .ok b)
      (zero : b.amount.isZero) : Lazily none (some document)
  | unrecorded {document : Bytes} {b : Balance} (read : Balance.codec.decode document = .ok b)
      (zero : b.amount.isZero) : Lazily (some document) none

theorem Query.eval_decoded_congr {α : Type} (c : Json.Codec α) (k : Key) (b : Bytes) {l m : Table Bytes} :
    (Query.decoded c k b).eval m = (Query.decoded c k b).eval l := by
  unfold Query.decoded
  split <;> rfl

namespace Live

/-- Live values that differ only in records of balances of zero. -/
structure Akin (l m : Table Bytes) : Prop where
  balances : ∀ a : Account, Lazily l[a.key.encode]? m[a.key.encode]?
  others : ∀ k, (∀ a : Account, k ≠ a.key.encode) → m[k]? = l[k]?

theorem Akin.refl (l : Table Bytes) : Akin l l := ⟨fun _ => .same _, fun _ _ => rfl⟩

/-- A record of an amount of zero says no more than no record. -/
theorem Coherent.balance_of_zero {l : Table Bytes} (h : Coherent l) {a : Account} {document : Bytes}
    (hd : l[a.key.encode]? = some document) {b : Balance} (hb : Balance.codec.decode document = .ok b)
    (hz : b.amount.isZero) : balance l a = .zero a := by
  obtain ⟨r, hr, rfl, rfl⟩ := h.balance_cases hd
  rw [Balance.decode_write hr, Except.ok.injEq] at hb
  subst hb
  have hamount : r.amount = .zero := Amount.ext (by simpa [Amount.isZero, Amount.zero] using hz)
  rw [balance, balance?, hd]
  simp only [Option.bind_some, Balance.decode_write hr, Except.toOption, Option.getD_some]
  rw [Balance.zero, ← hamount, ← hr.credit, ← hr.lockUpDate]
  rfl

theorem balance_of_none {l : Table Bytes} {a : Account} (h : l[a.key.encode]? = none) : balance l a = .zero a := by
  rw [balance, balance?, h]
  rfl

section Akin

variable {l m : Table Bytes} (h : Akin l m)

include h

theorem Akin.after {α : Type} {q : Query (Effect α)} (hq : q.eval m = q.eval l) : Akin (after q l) (after q m) where
  balances a := related_after hq (R := Lazily) .same (h.balances a)
  others k hk := related_after hq (R := fun v w => w = v) (fun _ => rfl) (h.others k hk)

variable (hl : Coherent l) (hm : Coherent m)

include hl hm

theorem Akin.balance_eq (a : Account) : balance m a = balance l a := by
  have ha := h.balances a
  generalize hv : l[a.key.encode]? = v at ha
  generalize hw : m[a.key.encode]? = w at ha
  cases ha with
  | same => rw [balance, balance, balance?, balance?, hv, hw]
  | recorded read zero => rw [hm.balance_of_zero hw read zero, balance_of_none hv]
  | unrecorded read zero => rw [balance_of_none hw, hl.balance_of_zero hv read zero]

theorem Akin.matching : Matching (fun _ => True) l m where
  left := hl
  right := hm
  registered address := by
    rw [registered, registered, h.others]
    intro a he
    cases congrArg Key.ns (Key.encode_injective he)
  token? symbol _ := by
    rw [token?, token?, h.others]
    intro a he
    cases congrArg Key.ns (Key.encode_injective he)
  balance a _ := h.balance_eq hl hm a

omit hl hm in
theorem Akin.eval_tokensOfType (type : TokenType) :
    (Query.tokensOfType type).eval m = (Query.tokensOfType type).eval l := by
  have hunder : Store.under (Key.scanPrefix ⟨.tokens, []⟩) m = Store.under (Key.scanPrefix ⟨.tokens, []⟩) l := by
    refine Std.ExtTreeMap.ext_getElem? fun k => ?_
    rw [Store.getElem?_under, Store.getElem?_under]
    split
    · rename_i hp
      refine h.others k ?_
      rintro a rfl
      cases ((Key.isPrefixOf_namespace .tokens a.key).mp hp).1
    · rfl
  refine Query.eval_bind_congr ?_ fun hits _ => ?_
  · rw [eval_select, eval_select, eval_scan, eval_scan]
    exact congrArg _ (congrArg spelled (congrArg _ hunder))
  · exact Query.eval_mapM_congr fun hit _ => Query.eval_decoded_congr Token.codec hit.1 hit.2

omit hl hm in
theorem Akin.eval_scores (actor : String) : (Query.scores actor).eval m = (Query.scores actor).eval l := by
  have hget : (Query.get (.scores actor)).eval m = (Query.get (.scores actor)).eval l := by
    rw [Query.eval_get, Query.eval_get, h.others]
    intro a he
    cases congrArg Key.ns (Key.encode_injective he)
  refine Query.eval_bind_congr (Query.eval_bind_congr hget fun v _ => ?_) fun s _ => ?_
  · cases v with
    | none => rfl
    | some b => exact Query.eval_bind_congr (Query.eval_decoded_congr Scores.codec _ b) fun _ _ => rfl
  · cases s <;> rfl

/-- Apart from the lists of balances every operation answers and changes the same. -/
theorem Akin.eval_operate {c : Contract} {op : Operation} {args : List String} (hop : op.name ∉ balanceLists) :
    (c.operate op args).plan.eval m = (c.operate op args).plan.eval l := by
  have hsymbols (type : TokenType) : (Query.symbolsOfType type).eval m = (Query.symbolsOfType type).eval l :=
    Query.eval_bind_congr (h.eval_tokensOfType type) fun _ _ => rfl
  by_cases hplain : op.enumerates = false ∧ op ≠ .getFinancialScores
  · exact (h.matching hl hm).eval_operate (fun _ _ => trivial) hplain.1 hplain.2
  · refine eval_operate_congr fun i hi => ?_
    cases hi with
    | ask hq =>
      rw [Instruction.plan_ask, Query.eval_map, Query.eval_map]
      congr 1
      cases hq with
      | tokensOfType => rw [Question.answer, Query.encode_bind, Query.eval_map, Query.eval_map, h.eval_tokensOfType]
      | symbolsOfType => rw [Question.answer, Query.encode_bind, Query.eval_map, Query.eval_map, hsymbols]
      | wallet address =>
        rw [Question.answer]
        refine Query.eval_bind_congr ?_ fun bs _ => by simp only [payload_encode, Query.eval_liftM]
        refine Query.eval_bind_congr (hsymbols _) fun symbols _ => Query.eval_mapM_congr fun s _ => ?_
        exact Query.eval_bind_congr ((h.matching hl hm).eval_balance (a := ⟨address, s⟩) trivial true) fun _ _ => rfl
      | scores => rw [Question.answer, Query.encode_bind, Query.eval_map, Query.eval_map, h.eval_scores]
      | balancesOfAddress | balancesOfToken | holders => exact absurd (by decide) hop
      | _ => exact absurd (by decide) hplain
    | order ho => cases ho <;> exact absurd (by decide) hplain
    | file hf => cases hf <;> exact absurd (by decide) hplain

end Akin

section Requests

variable {c : Contract} {l m : Table Bytes} {role : Option Role} {name : String} {args : List String}

theorem Coherent.after_list (h : Coherent l) (hname : name ∈ balanceLists) :
    after (c.request role name args).plan l = l := by
  have henumerates : enumerates name := (by decide : ∀ name ∈ balanceLists, enumerates name) name hname
  rw [Live.after]
  cases he : (c.request role name args).plan.eval l with
  | error f => rfl
  | ok e =>
    dsimp only
    rw [h.changes_of_enumerates henumerates he, applyAll_nil]

variable (h : Akin l m) (hl : Coherent l) (hm : Coherent m)

include h hl hm

theorem Akin.eval_request (hname : name ∉ balanceLists) :
    (c.request role name args).plan.eval m = (c.request role name args).plan.eval l :=
  eval_request_congr (fun _ hop => h.eval_operate hl hm (Operation.name_of_parse hop ▸ hname)) role

theorem Akin.after_request :
    Akin (Live.after (c.request role name args).plan l) (Live.after (c.request role name args).plan m) := by
  by_cases hname : name ∈ balanceLists
  · rwa [hl.after_list hname, hm.after_list hname]
  · exact h.after (h.eval_request hl hm hname)

theorem Akin.apply_balance (a : Account) : Akin l (apply m (.balance (balance m a))) where
  balances b := by
    obtain ⟨hplain, ha⟩ := hm.balance_plain a
    have hkey : (Change.balance (balance m a)).key = a.key := congrArg Account.key ha
    rw [getElem?_apply, hkey]
    split_ifs with hab
    · rw [← hab]
      cases hd : l[a.key.encode]? with
      | none =>
        refine .recorded (Balance.decode_write hplain) ?_
        rw [h.balance_eq hl hm, balance_of_none hd]
        rfl
      | some document =>
        obtain ⟨r, hr, -, rfl⟩ := hl.balance_cases hd
        have hbalance : balance l a = r := by
          rw [balance, balance?, hd]
          simp [Balance.decode_write hr, Except.toOption]
        rw [h.balance_eq hl hm, hbalance]
        exact .same _
    · exact h.balances b
  others k hk := by
    rw [getElem?_apply, if_neg fun he => hk _ he.symm]
    exact h.others k hk

theorem Akin.after_initialise : Akin l (Live.after (c.request role "initialiseBalance" args).plan m) := by
  rw [Live.after]
  cases he : (c.request role "initialiseBalance" args).plan.eval m with
  | error f => exact h
  | ok e =>
    obtain ⟨op, hop, -, hc⟩ := hm.carried_request he
    obtain rfl : op = .initialiseBalance := Operation.eq_of_parse hop
    dsimp only
    generalize e.changes = cs at hc
    cases hc with
    | nothing => exact h
    | initialise address symbol => exact h.apply_balance hl hm ⟨address, symbol⟩

end Requests
end Live

open Live

/-- The steps by which transactions that invoke the contract follow each other under one name. -/
def Step.serial (tx : String) : Step → Bool
  | .begin t | .commit t | .drop t => t == tx
  | .run (some t) d => t == tx && d.isInvocation
  | _ => false

/-- Steps among which requests have been put that record balances as they are. -/
inductive Padded (tx : String) : List Step → List Step → Prop
  | nil : Padded tx [] []
  | keep {a : Step} {as bs : List Step} (serial : a.serial tx) (rest : Padded tx as bs) : Padded tx (a :: as) (a :: bs)
  | initialise {as bs : List Step} (role : Option Role) (args : List String) (rest : Padded tx as bs) :
      Padded tx as (.run (some tx) (.invoke role "initialiseBalance" args) :: bs)

def Session.seen (x : Session) (tx : String) : Table Bytes := (x.transaction tx).view x.store

theorem Session.answer_invoke (c : Contract) (x : Session) (tx : String) (role : Option Role) (name : String)
    (args : List String) : (x.step c (.run (some tx) (.invoke role name args))).1 =
      ((c.request role name args).plan.eval (x.seen tx)).map fun e => .payload e.answer := by
  change ((Deed.invoke role name args).perform c x.store (x.transaction tx)).1 = _
  rw [Deed.perform_invoke, Query.perform_eq]
  change _ = ((c.request role name args).plan.eval ((x.transaction tx).view x.store)).map _
  cases (c.request role name args).plan.eval ((x.transaction tx).view x.store) <;> rfl

structure Session.Undisturbed (x : Session) (tx : String) : Prop where
  coherent : x.Coherent
  current : (x.transaction tx).stale? x.store = none

namespace Session.Undisturbed

variable {c : Contract} {x : Session} {tx : String} (h : x.Undisturbed tx)

include h

theorem seen : Live.Coherent (x.seen tx) := h.coherent.view tx

theorem invoke (role : Option Role) (name : String) (args : List String) :
    (x.step c (.run (some tx) (.invoke role name args))).2.Undisturbed tx ∧
      (x.step c (.run (some tx) (.invoke role name args))).2.seen tx = after (c.request role name args).plan (x.seen tx) := by
  have htransaction : (x.step c (.run (some tx) (.invoke role name args))).2.transaction tx =
      ((Deed.invoke role name args).perform c x.store (x.transaction tx)).2 := by
    simp [Session.step, Session.within, Session.transaction]
  refine ⟨⟨h.coherent.step rfl, ?_⟩, ?_⟩
  · rw [htransaction]
    exact c.stale?_performAll [.invoke role name args] h.current
  · rw [Session.seen, htransaction, Deed.perform_invoke]
    exact Query.view_perform _ _ _ _

omit h in
theorem of_empty (hx : x.Coherent) (hempty : x.transaction tx = .empty) :
    x.Undisturbed tx ∧ x.seen tx = x.store.live := by
  refine ⟨⟨hx, ?_⟩, ?_⟩
  · rw [hempty]
    exact Transaction.stale?_empty _
  · rw [Session.seen, hempty]
    rfl

omit h in
theorem begin (c : Contract) (hx : x.Coherent) (tx : String) :
    (x.step c (.begin tx)).2.Undisturbed tx ∧ (x.step c (.begin tx)).2.seen tx = x.store.live :=
  of_empty (hx.step rfl) (by simp [Session.step, Session.transaction])

omit h in
theorem drop (c : Contract) (hx : x.Coherent) (tx : String) :
    (x.step c (.drop tx)).2.Undisturbed tx ∧ (x.step c (.drop tx)).2.seen tx = x.store.live :=
  of_empty (hx.step rfl) (by simp [Session.step, Session.transaction])

/-- A commit succeeds, and then all see what the transaction saw. -/
theorem commit : (x.step c (.commit tx)).2.Undisturbed tx ∧ (x.step c (.commit tx)).2.store.live = x.seen tx ∧
    (x.step c (.commit tx)).2.seen tx = x.seen tx := by
  have hs := Transaction.commit_eq_ok.mpr ⟨h.current, rfl⟩
  have hlive : (x.step c (.commit tx)).2.store.live = x.seen tx := by
    rw [Session.step, hs]
    exact Transaction.live_commit hs
  have hempty : (x.step c (.commit tx)).2.transaction tx = .empty := by
    rw [Session.step, hs]
    simp [Session.transaction]
  obtain ⟨hundisturbed, hseen⟩ := of_empty (h.coherent.step rfl) hempty
  exact ⟨hundisturbed, hlive, hseen.trans hlive⟩

end Session.Undisturbed

structure Twin (tx : String) (x y : Session) : Prop where
  left : x.Undisturbed tx
  right : y.Undisturbed tx
  store : Akin x.store.live y.store.live
  seen : Akin (x.seen tx) (y.seen tx)

section Twin

variable {c : Contract} {x y : Session} {tx : String}

theorem Twin.begin (hx : x.Coherent) (hy : y.Coherent) (h : Akin x.store.live y.store.live) :
    Twin tx (x.step c (.begin tx)).2 (y.step c (.begin tx)).2 := by
  obtain ⟨hx, hsx⟩ := Session.Undisturbed.begin c hx tx
  obtain ⟨hy, hsy⟩ := Session.Undisturbed.begin c hy tx
  exact ⟨hx, hy, h, by rwa [hsx, hsy]⟩

theorem Twin.step (h : Twin tx x y) {a : Step} (ha : a.serial tx) : Twin tx (x.step c a).2 (y.step c a).2 := by
  cases a with
  | begin t =>
    obtain rfl : t = tx := by simpa [Step.serial] using ha
    exact .begin h.left.coherent h.right.coherent h.store
  | drop t =>
    obtain rfl : t = tx := by simpa [Step.serial] using ha
    obtain ⟨hx, hsx⟩ := Session.Undisturbed.drop c h.left.coherent t
    obtain ⟨hy, hsy⟩ := Session.Undisturbed.drop c h.right.coherent t
    exact ⟨hx, hy, h.store, by rw [hsx, hsy]; exact h.store⟩
  | commit t =>
    obtain rfl : t = tx := by simpa [Step.serial] using ha
    obtain ⟨hx, hlx, hsx⟩ := h.left.commit (c := c)
    obtain ⟨hy, hly, hsy⟩ := h.right.commit (c := c)
    exact ⟨hx, hy, by rw [hlx, hly]; exact h.seen, by rw [hsx, hsy]; exact h.seen⟩
  | run o d =>
    cases o with
    | none => cases ha
    | some t =>
      obtain ⟨rfl, hd⟩ : t = tx ∧ d.isInvocation := by simpa [Step.serial] using ha
      obtain ⟨role, name, args, rfl⟩ := Deed.invocation_cases hd
      obtain ⟨hx, hsx⟩ := h.left.invoke (c := c) role name args
      obtain ⟨hy, hsy⟩ := h.right.invoke (c := c) role name args
      refine ⟨hx, hy, h.store, ?_⟩
      rw [hsx, hsy]
      exact h.seen.after_request h.left.seen h.right.seen
  | committed | save | reload | load => cases ha

/-- A request on one side only, that records a balance as it is. -/
theorem Twin.initialise (h : Twin tx x y) (role : Option Role) (args : List String) :
    Twin tx x (y.step c (.run (some tx) (.invoke role "initialiseBalance" args))).2 := by
  obtain ⟨hy, hsy⟩ := h.right.invoke (c := c) role "initialiseBalance" args
  refine ⟨h.left, hy, h.store, ?_⟩
  rw [hsy]
  exact h.seen.after_initialise h.left.seen h.right.seen

theorem Twin.run (h : Twin tx x y) {as bs : List Step} (hpadded : Padded tx as bs) :
    Twin tx (Session.run c x as).2 (Session.run c y bs).2 := by
  induction hpadded generalizing x y with
  | nil => exact h
  | keep serial rest ih => exact ih (h.step serial)
  | initialise role args rest ih => exact ih (h.initialise role args)

end Twin

/-- Balances of zero show nowhere but in the lists of balances. Take two stores that sessions have come to and
that differ only in accounts without a record on one and with a record of zero on the other, and transactions
that follow each other on both, with any requests to record balances as they are among those on the second.
Then whatever else is invoked has the same outcome on both, in the transaction that is open by then or in one
of its own, and the stores still differ no more than that. -/
theorem zero_balances_unobservable {c : Contract} {x y : Session} (hx : c.Reaches x) (hy : c.Reaches y)
    (h : Akin x.store.live y.store.live) {tx : String} {as bs : List Step} (hpadded : Padded tx as bs)
    {o : Option String} (ho : o = none ∨ o = some tx) (role : Option Role) (name : String) (args : List String) :
    let x' := (Session.run c x (.begin tx :: as)).2
    let y' := (Session.run c y (.begin tx :: bs)).2
    (name ∉ balanceLists →
      (y'.step c (.run o (.invoke role name args))).1 = (x'.step c (.run o (.invoke role name args))).1) ∧
      Akin (x'.step c (.run o (.invoke role name args))).2.store.live
        (y'.step c (.run o (.invoke role name args))).2.store.live := by
  intro x' y'
  have htwin : Twin tx x' y' := (Twin.begin (c := c) hx.coherent hy.coherent h).run hpadded
  rcases ho with rfl | rfl
  · obtain ⟨hx₁, hx₂⟩ := c.execute_eq x'.store role name args
    obtain ⟨hy₁, hy₂⟩ := c.execute_eq y'.store role name args
    have hl := htwin.left.coherent.store
    have hm := htwin.right.coherent.store
    rw [Session.step, Session.step, Session.alone_invoke, Session.alone_invoke]
    refine ⟨fun hname => ?_, ?_⟩
    · rw [hx₁, hy₁, htwin.store.eval_request hl hm hname]
    · rw [hx₂, hy₂]
      exact htwin.store.after_request hl hm
  · refine ⟨fun hname => ?_, htwin.store⟩
    rw [Session.answer_invoke, Session.answer_invoke,
      htwin.seen.eval_request htwin.left.seen htwin.right.seen hname]

def welcoming : List Step := listing ++ [.run none (.invoke none "registerAddress" ["bob"])]

def recording : List Step := welcoming ++ [.run none (.invoke none "initialiseBalance" ["bob", "GLD"])]

def destroyingOne : Deed := .invoke none "burn" ["\x7b\"Token\":\"GLD\",\"From\":\"alice\",\"Amount\":1\x7d"]

theorem zero_balances_unobservable_recording :
    let x := (Session.run .signing (Session.run .signing .empty welcoming).2
      [.begin "t", .run (some "t") destroyingOne, .commit "t"]).2
    let y := (Session.run .signing (Session.run .signing .empty recording).2
      [.begin "t", .run (some "t") (.invoke none "initialiseBalance" ["alice", "SLV"]),
        .run (some "t") destroyingOne, .commit "t"]).2
    (y.step .signing (.run none (.invoke (some .admin) "removeToken" ["GLD"]))).1 =
      (x.step .signing (.run none (.invoke (some .admin) "removeToken" ["GLD"]))).1 := by
  have hx : Contract.signing.Reaches (Session.run .signing .empty welcoming).2 :=
    ⟨welcoming, .of_interleaves _ (by decide), rfl⟩
  have hakin : Akin (Session.run .signing .empty welcoming).2.store.live
      (Session.run .signing .empty recording).2.store.live := by
    have hlive : (Session.run .signing .empty recording).2.store.live =
        apply (Session.run .signing .empty welcoming).2.store.live
          (.balance (balance (Session.run .signing .empty welcoming).2.store.live ⟨"bob", "GLD"⟩)) := by
      decide +kernel
    rw [hlive]
    exact (Akin.refl _).apply_balance hx.coherent.store hx.coherent.store _
  exact (zero_balances_unobservable hx ⟨recording, .of_interleaves _ (by decide), rfl⟩ hakin
    (.initialise none _ (.keep rfl (.keep rfl .nil))) (.inl rfl) (some .admin) "removeToken" ["GLD"]).1 (by decide)

end TokenLedger
