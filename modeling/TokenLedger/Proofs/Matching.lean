import TokenLedger.Proofs.Deed

/-! What operations can tell apart. Of live values an operation on tokens sees the wallets, the tokens that
its arguments name and what is held of these; whether an account that holds nothing has a record it does not
see. So it answers the same, and changes the same, on live values that match in all of this. -/

namespace TokenLedger

def symbolsIn {α : Type} (c : Json.Codec α) (symbol : α → String) (texts : List String) : List String :=
  texts.filterMap fun s => (c.decodeText s).toOption.map symbol

/-- The symbols of the tokens that the arguments of an operation name. -/
def Operation.symbols : Operation → List String → List String
  | .registerToken, [token, _] | .updateTokenInfo, [token] => symbolsIn Token.codec (·.symbol) [token]
  | .removeToken, [symbol] | .getToken, [symbol] => [symbol]
  | .getBalancesOfTokenHolders, [symbol] | .getTokenHolderList, [symbol] => [symbol]
  | .balanceOf, [_, symbol] | .initialiseBalance, [_, symbol] => [symbol]
  | .transfer, [request, _, _] => symbolsIn Transfer.codec (·.token) [request]
  | .mint, [request] | .burn, [request] => symbolsIn Transfer.codec (·.token) [request]
  | .multitransfer, requests => symbolsIn Transfer.codec (·.token) requests
  | _, _ => []

theorem Argument.read_eq_ok {α : Type} {a : Argument} {c : Json.Codec α} {s : String} {x : α} :
    a.read c s = .ok x ↔ c.decodeText s = .ok x := by
  rw [read]
  cases c.decodeText s <;> simp

theorem mem_symbolsIn {α : Type} {a : Argument} {c : Json.Codec α} {symbol : α → String} {texts : List String}
    {s : String} (hs : s ∈ texts) {x : α} (hx : a.read c s = .ok x) : symbol x ∈ symbolsIn c symbol texts :=
  List.mem_filterMap.mpr ⟨s, hs, by rw [Argument.read_eq_ok.mp hx]; rfl⟩

/-- What is read from a list of texts is read from one of them. -/
theorem exists_of_mapM_eq_ok {α β : Type} {f : α → Except Failure β} {as : List α} {bs : List β}
    (h : as.mapM f = .ok bs) {b : β} (hb : b ∈ bs) : ∃ a ∈ as, f a = .ok b := by
  induction as generalizing bs with
  | nil =>
    cases h
    cases hb
  | cons a as ih =>
    rw [List.mapM_cons] at h
    obtain ⟨x, hx, h⟩ := Query.bind_eq_ok.mp h
    obtain ⟨xs, hxs, h⟩ := Query.bind_eq_ok.mp h
    cases h
    rcases List.mem_cons.mp hb with rfl | hb
    · exact ⟨a, by simp, hx⟩
    · obtain ⟨y, hy, hf⟩ := ih hxs hb
      exact ⟨y, by simp [hy], hf⟩

namespace Query

variable {α β : Type} {l m : Table Bytes}

theorem eval_bind_congr {q : Query α} {f : α → Query β} (hq : q.eval m = q.eval l)
    (hf : ∀ a, q.eval l = .ok a → (f a).eval m = (f a).eval l) : (q >>= f).eval m = (q >>= f).eval l := by
  rw [eval_bind, eval_bind, hq]
  cases h : q.eval l with
  | error e => rfl
  | ok a => exact hf a h

theorem eval_liftM_bind_congr {x : Except Failure α} {f : α → Query β}
    (hf : ∀ a, x = .ok a → (f a).eval m = (f a).eval l) :
    ((liftM x : Query α) >>= f).eval m = ((liftM x : Query α) >>= f).eval l :=
  eval_bind_congr (by rw [eval_liftM, eval_liftM]) fun a ha => hf a (by rwa [eval_liftM] at ha)

theorem eval_foldlM_congr {f : β → α → Query β} {as : List α}
    (h : ∀ b, ∀ a ∈ as, (f b a).eval m = (f b a).eval l) (b : β) :
    (as.foldlM f b).eval m = (as.foldlM f b).eval l := by
  induction as generalizing b with
  | nil => rfl
  | cons a as ih =>
    rw [List.foldlM_cons]
    exact eval_bind_congr (h b a (by simp)) fun b _ => ih (fun b a ha => h b a (by simp [ha])) b

theorem eval_mapM_congr {f : α → Query β} {as : List α} (h : ∀ a ∈ as, (f a).eval m = (f a).eval l) :
    (as.mapM f).eval m = (as.mapM f).eval l := by
  induction as with
  | nil => rfl
  | cons a as ih =>
    rw [List.mapM_cons]
    refine eval_bind_congr (h a (by simp)) fun b _ => ?_
    exact eval_bind_congr (ih fun a ha => h a (by simp [ha])) fun _ _ => rfl

end Query

namespace Live

structure Matching (p : String → Prop) (l m : Table Bytes) : Prop where
  left : Coherent l
  right : Coherent m
  registered : ∀ address, registered m address = registered l address
  token? : ∀ symbol, p symbol → token? m symbol = token? l symbol
  balance : ∀ a : Account, p a.token → balance m a = balance l a

theorem Coherent.getElem?_of_held {l : Table Bytes} (h : Coherent l) {a : Account} (ha : held l a ≠ 0) :
    l[a.key.encode]? = some (Balance.codec.write (balance l a)) := by
  cases hb : l[a.key.encode]? with
  | none => simp [held, balance, balance?, hb, Balance.zero, Amount.zero] at ha
  | some b =>
    obtain ⟨r, hr, -, rfl⟩ := h.balance_cases hb
    rw [balance, balance?, hb]
    simp [Balance.decode_write hr, Except.toOption]

theorem eval_initialiseScores_congr {l m : Table Bytes} (actor : String) (s : Scores) :
    (initialiseScores actor s).plan.eval m = (initialiseScores actor s).plan.eval l := by
  rw [plan_initialiseScores]
  exact Query.eval_liftM_bind_congr fun _ _ => rfl

theorem eval_updateScores_congr {l m : Table Bytes} (register : ActorRegister) (actor : String) (s : Scores) :
    (updateScores register actor s).plan.eval m = (updateScores register actor s).plan.eval l := by
  rw [plan_updateScores]
  refine Query.eval_liftM_bind_congr fun known _ => ?_
  cases known with
  | true => exact Query.eval_liftM_bind_congr fun _ _ => rfl
  | false => rfl

section Matching

variable {p : String → Prop} {l m : Table Bytes} (h : Matching p l m)

include h

theorem Matching.nonzeroList {symbol : String} (hs : p symbol) : nonzeroList m symbol = nonzeroList l symbol := by
  rw [Live.nonzeroList, Live.nonzeroList, nonzero_congr h.left h.right]
  intro a ha
  have hbalance := h.balance a (ha ▸ hs)
  by_cases hzero : held l a = 0
  · exact .inr ⟨hzero, by rwa [held, hbalance]⟩
  · left
    rw [h.left.getElem?_of_held hzero, h.right.getElem?_of_held (by rwa [held, hbalance]), hbalance]

theorem Matching.eval_token {symbol : String} (hs : p symbol) :
    (Query.token symbol).eval m = (Query.token symbol).eval l := by
  rw [h.right.eval_token, h.left.eval_token, h.token? symbol hs]

theorem Matching.eval_balance {a : Account} (ha : p a.token) (check : Bool) :
    (Query.balance a check).eval m = (Query.balance a check).eval l := by
  rw [h.right.eval_balance, h.left.eval_balance, h.registered, h.balance a ha]

theorem Matching.eval_registerToken {t : Token} (ht : p t.symbol) (holder : String) :
    (registerToken t holder).plan.eval m = (registerToken t holder).plan.eval l := by
  rw [h.right.eval_registerToken, h.left.eval_registerToken, h.token? _ ht, h.nonzeroList ht]

theorem Matching.eval_removeToken {symbol : String} (hs : p symbol) :
    (removeToken symbol).plan.eval m = (removeToken symbol).plan.eval l := by
  rw [plan_removeToken]
  exact Query.eval_bind_congr (h.eval_token hs) fun _ _ => rfl

theorem Matching.eval_updateToken {t : Token} (ht : p t.symbol) :
    (updateToken t).plan.eval m = (updateToken t).plan.eval l := by
  rw [h.right.eval_updateToken, h.left.eval_updateToken, h.token? _ ht, h.nonzeroList ht]

theorem Matching.eval_touched_transfer (touched : Touched) {t : Transfer} (ht : p t.token) :
    (touched.transfer t).eval m = (touched.transfer t).eval l := by
  have hbalance (address : String) (check : Bool) : (touched.balance ⟨address, t.token⟩ check).eval m =
      (touched.balance ⟨address, t.token⟩ check).eval l := by
    rw [Touched.balance]
    split
    · rfl
    · exact h.eval_balance ht check
  have htoken : (Query.transferableToken t.token t.date t.amount).eval m =
      (Query.transferableToken t.token t.date t.amount).eval l := by
    rw [h.right.eval_transferableToken, h.left.eval_transferableToken, h.token? _ ht]
  refine Query.eval_bind_congr htoken fun _ _ => ?_
  refine Query.eval_bind_congr (hbalance _ _) fun sender _ => ?_
  refine Query.eval_bind_congr (hbalance _ _) fun receiver _ => ?_
  exact Query.eval_liftM_bind_congr fun _ _ => Query.eval_liftM_bind_congr fun _ _ => rfl

theorem Matching.eval_transfer {t : Transfer} (ht : p t.token) :
    (transfer t).plan.eval m = (transfer t).plan.eval l := by
  rw [Live.eval_transfer, Live.eval_transfer, h.eval_touched_transfer ∅ ht]

theorem Matching.eval_multitransfer {ts : List Transfer} (hts : ∀ t ∈ ts, p t.token) :
    (multitransfer ts).plan.eval m = (multitransfer ts).plan.eval l := by
  rw [plan_multitransfer]
  refine Query.eval_bind_congr ?_ fun _ _ => rfl
  exact Query.eval_foldlM_congr (fun touched t ht =>
    h.eval_touched_transfer touched (hts t (List.mem_filter.mp ht).1)) ∅

theorem Matching.eval_suppliedToken (k : Movement) {r : Transfer} (hr : p r.token) :
    (Query.suppliedToken k r).eval m = (Query.suppliedToken k r).eval l := by
  rw [Query.suppliedToken]
  cases r.amount.isZero with
  | true => rfl
  | false =>
    refine Query.eval_bind_congr (h.eval_token hr) fun t _ => ?_
    cases t.type.admits r.amount <;> rfl

/-- A new supply goes with a new balance of the same token. -/
theorem Matching.eval_supplied {k : Movement} {r : Transfer} (hr : p r.token) (address : String)
    {f : Token → Balance → Query (Effect Envelope)} (hf : ∀ t b, (f t b).eval m = (f t b).eval l) :
    (do let t ← Query.suppliedToken k r; let b ← Query.balance ⟨address, t.symbol⟩ true; f t b : Query _).eval m =
      (do let t ← Query.suppliedToken k r; let b ← Query.balance ⟨address, t.symbol⟩ true; f t b : Query _).eval l := by
  refine Query.eval_bind_congr (h.eval_suppliedToken k hr) fun t ht => ?_
  refine Query.eval_bind_congr (h.eval_balance ?_ true) fun b _ => hf t b
  rwa [h.left.token?_symbol (h.left.suppliedToken_eq_ok ht).1]

theorem Matching.eval_mint {r : Transfer} (hr : p r.token) : (mint r).plan.eval m = (mint r).plan.eval l := by
  rw [plan_mint]
  exact h.eval_supplied hr r.receiver fun _ _ =>
    Query.eval_liftM_bind_congr fun _ _ => Query.eval_liftM_bind_congr fun _ _ => rfl

theorem Matching.eval_burn {r : Transfer} (hr : p r.token) : (burn r).plan.eval m = (burn r).plan.eval l := by
  rw [plan_burn]
  exact h.eval_supplied hr r.sender fun _ _ =>
    Query.eval_liftM_bind_congr fun _ _ => Query.eval_liftM_bind_congr fun _ _ => rfl

theorem Matching.eval_registerAddress (address : String) :
    (registerAddress address).plan.eval m = (registerAddress address).plan.eval l := by
  rw [plan_registerAddress]
  refine Query.eval_bind_congr ?_ fun known _ => ?_
  · rw [eval_addressExists, eval_addressExists, h.registered]
  · cases known <;> rfl

theorem Matching.eval_initialiseBalance {a : Account} (ha : p a.token) :
    (initialiseBalance a.address a.token).plan.eval m = (initialiseBalance a.address a.token).plan.eval l := by
  rw [plan_initialiseBalance]
  exact Query.eval_bind_congr (h.eval_balance ha true) fun _ _ => rfl

section Instructions

variable {c : Contract} {op : Operation} {args : List String} (hs : ∀ symbol ∈ op.symbols args, p symbol)

include hs

theorem Matching.eval_question {q : Question} (hq : Question.Spelled op args q) (hop : op.enumerates = false)
    (hscores : op ≠ .getFinancialScores) : q.answer.eval m = q.answer.eval l := by
  cases hq with
  | token symbol =>
    rw [Question.answer, Query.encode_bind, Query.eval_map, Query.eval_map,
      h.eval_token (hs symbol (by simp [Operation.symbols]))]
  | addressExists address =>
    refine Query.eval_bind_congr ?_ fun _ _ => rfl
    rw [eval_requireAddress, eval_requireAddress, h.registered]
  | balanceOf address symbol =>
    have hsymbol := hs symbol (by simp [Operation.symbols])
    rw [Question.answer, Query.encode_bind, Query.eval_map, Query.eval_map, Query.balanceOf,
      h.eval_balance (a := ⟨address, symbol⟩) hsymbol]
  | scores => exact absurd rfl hscores
  | _ => cases hop

theorem Matching.eval_order {o : Order} (ho : Order.Spelled op args o) :
    (o.carryOut c).plan.eval m = (o.carryOut c).plan.eval l := by
  cases ho with
  | registerToken read holder => exact h.eval_registerToken (hs _ (mem_symbolsIn (by simp) read)) holder
  | updateToken read => exact h.eval_updateToken (hs _ (mem_symbolsIn (by simp) read))
  | transfer read =>
    rw [Order.carryOut, Action.plan_except_bind]
    exact Query.eval_liftM_bind_congr fun _ _ => h.eval_transfer (hs _ (mem_symbolsIn (by simp) read))
  | multitransfer read =>
    refine h.eval_multitransfer fun t ht => ?_
    obtain ⟨s, hmem, hread⟩ := exists_of_mapM_eq_ok read ht
    exact hs _ (mem_symbolsIn hmem hread)
  | mint read => exact h.eval_mint (hs _ (mem_symbolsIn (by simp) read))
  | burn read => exact h.eval_burn (hs _ (mem_symbolsIn (by simp) read))

theorem Matching.eval_filing {f : Filing} (hf : Filing.Spelled op args f) :
    (f.carryOut c).plan.eval m = (f.carryOut c).plan.eval l := by
  cases hf with
  | removeToken symbol => exact h.eval_removeToken (hs symbol (by simp [Operation.symbols]))
  | registerAddress address => exact h.eval_registerAddress address
  | initialiseBalance address symbol =>
    have hsymbol := hs symbol (by simp [Operation.symbols])
    rw [plan_file_initialiseBalance, Query.eval_map, Query.eval_map,
      h.eval_initialiseBalance (a := ⟨address, symbol⟩) hsymbol]
  | @initialiseScores actor _ s => exact eval_initialiseScores_congr actor s
  | @updateScores actor _ s => exact eval_updateScores_congr c.isActor actor s

/-- An operation that does not enumerate, and does not ask for scores, answers and changes the same. -/
theorem Matching.eval_operate (hop : op.enumerates = false) (hscores : op ≠ .getFinancialScores) :
    (c.operate op args).plan.eval m = (c.operate op args).plan.eval l := by
  refine eval_operate_congr fun i hi => ?_
  cases hi with
  | ask hq => rw [Instruction.plan_ask, Query.eval_map, Query.eval_map, h.eval_question hs hq hop hscores]
  | order ho => rw [Instruction.plan_order, Query.eval_map, Query.eval_map, h.eval_order hs ho]
  | file hf => rw [Instruction.plan_file, Query.eval_map, Query.eval_map, h.eval_filing hs hf]

end Instructions
end Matching

/-- Changes that are made on two sides keep what is related under a key, if all that is equal is related. -/
theorem related_applyAll {R : Option Bytes → Option Bytes → Prop} (hR : ∀ v, R v v) {l m : Table Bytes} {k : String}
    (h : R l[k]? m[k]?) (cs : List Change) : R (applyAll l cs)[k]? (applyAll m cs)[k]? := by
  induction cs generalizing l m with
  | nil => exact h
  | cons ch cs ih =>
    refine ih ?_
    rw [getElem?_apply, getElem?_apply]
    split
    · exact hR _
    · exact h

theorem related_after {α : Type} {q : Query (Effect α)} {l m : Table Bytes} (hq : q.eval m = q.eval l)
    {R : Option Bytes → Option Bytes → Prop} (hR : ∀ v, R v v) {k : String} (h : R l[k]? m[k]?) :
    R (after q l)[k]? (after q m)[k]? := by
  rw [after, after, hq]
  cases q.eval l with
  | error f => exact h
  | ok e => exact related_applyAll hR h e.changes

/-- A request by the name of an operation is for this operation. -/
theorem eval_request_congr {c : Contract} {l m : Table Bytes} {name : String} {args : List String}
    (h : ∀ op, Operation.parse name = .ok op → (c.operate op args).plan.eval m = (c.operate op args).plan.eval l)
    (role : Option Role) : (c.request role name args).plan.eval m = (c.request role name args).plan.eval l := by
  rw [c.plan_request]
  exact Query.eval_liftM_bind_congr fun op hop => Query.eval_liftM_bind_congr fun _ _ => h op hop

end Live
end TokenLedger
