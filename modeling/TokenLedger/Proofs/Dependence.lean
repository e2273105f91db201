import TokenLedger.Proofs.Operation

/-! What operations depend on. Most of them look at one record after the other. Listing a token and
describing it anew go through all balances, but all that they take from these are the holdings of one
token, and they look at the record of this token as well. -/

namespace TokenLedger

def Operation.enumerates : Operation → Bool
  | .getTokenInfoByType | .getTokenListByType | .getWalletType | .getBalancesOfAddress
  | .getBalancesOfTokenHolders | .getTokenHolderList => true
  | _ => false

namespace Query

variable {α : Type}

@[simp] theorem throw_bind {β : Type} (e : Failure) (f : α → Query β) : (throw e >>= f : Query β) = throw e :=
  rfl

@[simp] theorem map_throw {β : Type} (e : Failure) (f : α → β) : (f <$> throw e : Query β) = throw e := rfl

theorem pointwise_record? (c : Json.Codec α) (k : Key) : (record? c k).Pointwise := by
  refine (pointwise_get k).bind fun v => ?_
  cases v with
  | none => exact pointwise_pure _
  | some b =>
    refine Pointwise.bind ?_ fun a => pointwise_pure _
    rw [decoded]
    split
    · exact pointwise_pure _
    · exact pointwise_throw _

theorem pointwise_addressExists (address : String) : (addressExists address).Pointwise :=
  (pointwise_get _).bind fun _ => pointwise_pure _

theorem pointwise_requireAddress (address : String) : (requireAddress address).Pointwise := by
  refine (pointwise_addressExists address).bind fun known => ?_
  cases known with
  | true => exact pointwise_pure _
  | false => exact pointwise_throw _

theorem pointwise_token (symbol : String) : (token symbol).Pointwise := by
  refine (pointwise_record? Token.codec (.token symbol)).bind fun t => ?_
  cases t with
  | none => exact pointwise_throw _
  | some t => exact pointwise_pure _

theorem pointwise_balance (a : Account) (registered : Bool) : (balance a registered).Pointwise := by
  have hread : (do return (← record? Balance.codec a.key).getD (.zero a) : Query Balance).Pointwise :=
    (pointwise_record? _ _).bind fun _ => pointwise_pure _
  cases registered with
  | true => exact (pointwise_requireAddress a.address).bind fun _ => hread
  | false => exact hread

theorem pointwise_scores (actor : String) : (scores actor).Pointwise := by
  refine (pointwise_record? Scores.codec (.scores actor)).bind fun s => ?_
  cases s with
  | none => exact pointwise_throw _
  | some s => exact pointwise_pure _

theorem pointwise_transferableToken (symbol : String) (date : Timestamp) (amount : Amount) :
    (transferableToken symbol date amount).Pointwise := by
  refine (pointwise_token symbol).bind fun t => ?_
  by_cases hd : date < t.lockUpDate
  · simp [hd]
  · cases ha : t.type.admits amount <;> simp [hd]

theorem pointwise_touched_transfer (m : Touched) (t : Transfer) : (m.transfer t).Pointwise := by
  have hb (a : Account) (check : Bool) : (m.balance a check).Pointwise := by
    rw [Touched.balance]
    split
    · exact pointwise_pure _
    · exact pointwise_balance a check
  refine (pointwise_transferableToken _ _ _).bind fun _ => ?_
  refine (hb _ _).bind fun sender => (hb _ _).bind fun receiver => ?_
  exact (pointwise_liftM _).bind fun sent => (pointwise_liftM _).bind fun received => pointwise_pure _

theorem pointwise_suppliedToken (k : Movement) (r : Transfer) : (suppliedToken k r).Pointwise := by
  rw [suppliedToken]
  cases hz : r.amount.isZero with
  | true => simp
  | false =>
    refine (pointwise_token r.token).bind fun t => ?_
    cases ha : t.type.admits r.amount <;> simp

end Query

open Query

theorem pointwise_removeToken (symbol : String) : (removeToken symbol).plan.Pointwise := by
  rw [plan_removeToken]
  exact (pointwise_token symbol).bind fun _ => pointwise_pure _

theorem pointwise_registerAddress (address : String) : (registerAddress address).plan.Pointwise := by
  rw [plan_registerAddress]
  refine (pointwise_addressExists address).bind fun known => ?_
  cases known <;> simp

theorem pointwise_initialiseBalance (address symbol : String) : (initialiseBalance address symbol).plan.Pointwise := by
  rw [plan_initialiseBalance]
  exact (pointwise_balance _ _).bind fun _ => pointwise_pure _

theorem pointwise_transfer (t : Transfer) : (transfer t).plan.Pointwise := by
  rw [plan_transfer]
  by_cases hs : t.sender = t.receiver
  · simp [hs]
  · cases hz : t.amount.isZero with
    | true => simp [hs]
    | false => simpa [hs] using (pointwise_touched_transfer ∅ t).bind fun m => pointwise_pure _

theorem pointwise_multitransfer (ts : List Transfer) : (multitransfer ts).plan.Pointwise := by
  rw [plan_multitransfer]
  exact (Pointwise.foldlM pointwise_touched_transfer _ ∅).bind fun _ => pointwise_pure _

theorem pointwise_mint (r : Transfer) : (mint r).plan.Pointwise := by
  rw [plan_mint]
  refine (pointwise_suppliedToken _ r).bind fun _ => (pointwise_balance _ _).bind fun _ => ?_
  exact (pointwise_liftM _).bind fun _ => (pointwise_liftM _).bind fun _ => pointwise_pure _

theorem pointwise_burn (r : Transfer) : (burn r).plan.Pointwise := by
  rw [plan_burn]
  refine (pointwise_suppliedToken _ r).bind fun _ => (pointwise_balance _ _).bind fun _ => ?_
  exact (pointwise_liftM _).bind fun _ => (pointwise_liftM _).bind fun _ => pointwise_pure _

theorem pointwise_initialiseScores (actor : String) (s : Scores) : (initialiseScores actor s).plan.Pointwise := by
  rw [plan_initialiseScores]
  exact (pointwise_liftM _).bind fun _ => pointwise_pure _

theorem pointwise_updateScores (register : ActorRegister) (actor : String) (s : Scores) :
    (updateScores register actor s).plan.Pointwise := by
  rw [plan_updateScores]
  refine (pointwise_liftM (register actor)).bind fun known => ?_
  cases known with
  | true => exact plan_initialiseScores actor s ▸ pointwise_initialiseScores actor s
  | false => simp

section Pointwise

variable {op : Operation} {args : List String}

theorem Question.Spelled.pointwise {q : Question} (h : Question.Spelled op args q)
    (hop : op.enumerates = false) : q.answer.Pointwise := by
  cases h with
  | token symbol => exact (pointwise_token symbol).bind fun _ => pointwise_liftM _
  | addressExists address => exact (pointwise_requireAddress address).bind fun _ => pointwise_pure _
  | balanceOf address symbol => exact (pointwise_balance _ _).bind fun _ => pointwise_liftM _
  | scores actor => exact (pointwise_scores actor).bind fun _ => pointwise_liftM _
  | _ => cases hop

theorem Order.Spelled.pointwise {o : Order} (h : Order.Spelled op args o)
    (h₁ : op ≠ .registerToken) (h₂ : op ≠ .updateTokenInfo) (c : Contract) : (o.carryOut c).plan.Pointwise := by
  cases h with
  | registerToken => exact absurd rfl h₁
  | updateToken => exact absurd rfl h₂
  | @transfer _ t =>
    rw [Order.carryOut, Action.plan_except_bind]
    exact (pointwise_liftM _).bind fun _ => pointwise_transfer t
  | @multitransfer _ _ ts => exact pointwise_multitransfer ts
  | @mint _ r => exact pointwise_mint r
  | @burn _ r => exact pointwise_burn r

theorem Filing.pointwise (f : Filing) (c : Contract) : (f.carryOut c).plan.Pointwise := by
  cases f with
  | removeToken symbol => exact pointwise_removeToken symbol
  | registerAddress address => exact pointwise_registerAddress address
  | initialiseBalance address symbol =>
    rw [plan_file_initialiseBalance]
    exact (pointwise_initialiseBalance address symbol).map _
  | initialiseScores actor s => exact pointwise_initialiseScores actor s
  | updateScores actor s => exact pointwise_updateScores c.isActor actor s

end Pointwise

/-- Live values that show the same to a question: where it looks they agree, and if it goes through the
balances, then the same is held of each token that it looks at. -/
structure Query.Alike {α : Type} (q : Query α) (l m : Table Bytes) : Prop where
  looks : ∀ k, q.Looks l k → m[k]? = l[k]?
  held : q.Ranges l Live.balancesPrefix → ∀ symbol, q.Looks l (Key.token symbol).encode →
    Live.nonzero m symbol = Live.nonzero l symbol

theorem Query.Alike.rest {α β : Type} {q : Query α} {f : α → Query β} {l m : Table Bytes}
    (h : (q >>= f).Alike l m) {a : α} (ha : q.eval l = .ok a) : (f a).Alike l m where
  looks k hk := h.looks k (looks_bind.mpr (.inr ⟨a, ha, hk⟩))
  held hr symbol hs := h.held (ranges_bind.mpr (.inr ⟨a, ha, hr⟩)) symbol (looks_bind.mpr (.inr ⟨a, ha, hs⟩))

theorem Query.Alike.first {α β : Type} {q : Query α} {f : α → Query β} {l m : Table Bytes}
    (h : (q >>= f).Alike l m) : q.Alike l m where
  looks k hk := h.looks k (looks_bind.mpr (.inl hk))
  held hr symbol hs := h.held (ranges_bind.mpr (.inl hr)) symbol (looks_bind.mpr (.inl hs))

theorem Query.Alike.of_map {α β : Type} {q : Query α} {f : α → β} {l m : Table Bytes} (h : (f <$> q).Alike l m) :
    q.Alike l m where
  looks k hk := h.looks k (looks_map.mpr hk)
  held hr symbol hs := h.held (ranges_map.mpr hr) symbol (looks_map.mpr hs)

namespace Live

variable {l m : Table Bytes}

theorem looks_registerToken (t : Token) (holder : String) :
    (registerToken t holder).plan.Looks l (Key.token t.symbol).encode := by
  rw [plan_registerToken]
  exact .inl rfl

theorem looks_removeToken (symbol : String) : (removeToken symbol).plan.Looks l (Key.token symbol).encode := by
  rw [plan_removeToken]
  exact .inl rfl

theorem looks_updateToken (t : Token) : (updateToken t).plan.Looks l (Key.token t.symbol).encode := by
  rw [plan_updateToken]
  exact .inl rfl

theorem looks_suppliedToken {k : Movement} {r : Transfer} {t : Token}
    (h : (Query.suppliedToken k r).eval l = .ok t) :
    (Query.suppliedToken k r).Looks l (Key.token r.token).encode := by
  rw [Query.suppliedToken] at h ⊢
  cases hz : r.amount.isZero with
  | true => simp [hz] at h
  | false => exact .inl rfl

theorem looks_mint {r : Transfer} {e : Effect Envelope} (h : (mint r).plan.eval l = .ok e) :
    (mint r).plan.Looks l (Key.token r.token).encode := by
  rw [plan_mint, eval_bind_eq_ok] at h
  rw [plan_mint]
  obtain ⟨t, ht, -⟩ := h
  exact looks_bind.mpr (.inl (looks_suppliedToken ht))

theorem looks_burn {r : Transfer} {e : Effect Envelope} (h : (burn r).plan.eval l = .ok e) :
    (burn r).plan.Looks l (Key.token r.token).encode := by
  rw [plan_burn, eval_bind_eq_ok] at h
  rw [plan_burn]
  obtain ⟨t, ht, -⟩ := h
  exact looks_bind.mpr (.inl (looks_suppliedToken ht))

theorem ranges_balancesOfToken (symbol : String) : (Query.balancesOfToken symbol).Ranges l balancesPrefix :=
  .inl rfl

theorem Coherent.ranges_registerToken (h : Coherent l) {t : Token} (holder : String)
    (ht : token? l t.symbol = none) : (registerToken t holder).plan.Ranges l balancesPrefix := by
  rw [plan_registerToken]
  refine ranges_bind.mpr (.inr ⟨none, ?_, ?_⟩)
  · rw [h.eval_token?, ht]
  · exact ranges_bind.mpr (.inl (ranges_balancesOfToken t.symbol))

theorem Coherent.ranges_updateToken (h : Coherent l) {t current : Token}
    (ht : token? l t.symbol = some current)
    (hs : { t with supply := current.supply }.requireIntegralSupply = .ok ())
    (hi : (t.type.isIntegral && !current.type.isIntegral) = true) :
    (updateToken t).plan.Ranges l balancesPrefix := by
  rw [plan_updateToken]
  refine ranges_bind.mpr (.inr ⟨current, ?_, ?_⟩)
  · rw [h.eval_token, ht]
  · refine ranges_bind.mpr (.inr ⟨(), ?_, ?_⟩)
    · rw [eval_liftM, hs]
    · rw [if_pos hi]
      refine ranges_bind.mpr (.inl (ranges_bind.mpr (.inl ?_)))
      exact ranges_balancesOfToken t.symbol

section Congr

variable (hl : Coherent l) (hm : Coherent m)

include hl hm

theorem Coherent.registerToken_congr {t : Token} {holder : String} (h : (registerToken t holder).plan.Alike l m) :
    (registerToken t holder).plan.eval m = (registerToken t holder).plan.eval l := by
  have hlook := looks_registerToken (l := l) t holder
  have ht : token? m t.symbol = token? l t.symbol := by rw [token?, token?, h.looks _ hlook]
  rw [hl.eval_registerToken, hm.eval_registerToken, ht]
  cases hn : token? l t.symbol with
  | some u => rfl
  | none => rw [nonzeroList, nonzeroList, h.held (hl.ranges_registerToken holder hn) _ hlook]

theorem Coherent.updateToken_congr {t : Token} (h : (updateToken t).plan.Alike l m) :
    (updateToken t).plan.eval m = (updateToken t).plan.eval l := by
  have hlook := looks_updateToken (l := l) t
  have ht : token? m t.symbol = token? l t.symbol := by rw [token?, token?, h.looks _ hlook]
  rw [hl.eval_updateToken, hm.eval_updateToken, ht]
  cases hn : token? l t.symbol with
  | none => rfl
  | some current =>
    dsimp only
    cases hs : { t with supply := current.supply : Token }.requireIntegralSupply with
    | error f => rfl
    | ok u =>
      cases hi : t.type.isIntegral && !current.type.isIntegral with
      | false => rfl
      | true => rw [nonzeroList, nonzeroList, h.held (hl.ranges_updateToken hn hs hi) _ hlook]

theorem Coherent.order_congr {c : Contract} {op : Operation} {args : List String} {o : Order}
    (ho : Order.Spelled op args o) (h : (o.carryOut c).plan.Alike l m) :
    (o.carryOut c).plan.eval m = (o.carryOut c).plan.eval l := by
  cases ho with
  | registerToken => exact hl.registerToken_congr hm h
  | updateToken => exact hl.updateToken_congr hm h
  | transfer read digest signature =>
    exact ((Order.Spelled.transfer read digest signature).pointwise nofun nofun c).eval_congr h.looks
  | multitransfer read => exact ((Order.Spelled.multitransfer read).pointwise nofun nofun c).eval_congr h.looks
  | mint read => exact ((Order.Spelled.mint read).pointwise nofun nofun c).eval_congr h.looks
  | burn read => exact ((Order.Spelled.burn read).pointwise nofun nofun c).eval_congr h.looks

/-- An operation that does not enumerate answers the same, and changes the same, where the same is shown
to it. -/
theorem Coherent.operate_congr {c : Contract} {op : Operation} {args : List String}
    (hop : op.enumerates = false) (h : (c.operate op args).plan.Alike l m) :
    (c.operate op args).plan.eval m = (c.operate op args).plan.eval l := by
  cases hi : Instruction.read op args with
  | error f => simp only [c.plan_operate, hi, eval_throw]
  | ok i =>
    have hi := Instruction.read_eq_ok.mp hi
    rw [hi.plan_operate c] at h ⊢
    cases hi with
    | ask hq => exact (Instruction.plan_ask c _ ▸ (hq.pointwise hop).map _).eval_congr h.looks
    | order ho =>
      rw [Instruction.plan_order] at h ⊢
      rw [eval_map, eval_map, hl.order_congr hm ho h.of_map]
    | @file f => exact (Instruction.plan_file c f ▸ (f.pointwise c).map _).eval_congr h.looks

end Congr

/-- A token that is written has been looked at. -/
theorem Coherent.looks_of_changes {c : Contract} (h : Coherent l) {op : Operation} {args : List String}
    {e : Effect Bytes} (he : (c.operate op args).plan.eval l = .ok e) {ch : Change} (hch : ch ∈ e.changes)
    {symbol : String} (hk : ch.key = .token symbol) :
    (c.operate op args).plan.Looks l (Key.token symbol).encode := by
  have hc := h.carried he
  have hsymbol {s t : String} (hs : Key.token s = .token t) : s = t :=
    List.singleton_inj.mp (congrArg Key.components hs)
  generalize e.changes = cs at hc hch
  cases hc with
  | nothing => cases hch
  | @register text holder t read =>
    have hs : t.symbol = symbol := by
      rcases List.mem_pair.mp hch with rfl | rfl
      · exact hsymbol hk
      · cases congrArg Key.ns hk
    subst hs
    rw [Instruction.Spelled.plan_operate (.order (.registerToken read holder)), Instruction.plan_order, looks_map]
    exact looks_registerToken t holder
  | @remove s =>
    obtain rfl := List.mem_singleton.mp hch
    obtain rfl := hsymbol hk
    rw [Instruction.Spelled.plan_operate (.file (.removeToken s)), Instruction.plan_file, looks_map]
    exact looks_removeToken s
  | @update text t current read =>
    obtain rfl := List.mem_singleton.mp hch
    obtain rfl := hsymbol hk
    rw [Instruction.Spelled.plan_operate (.order (.updateToken read)), Instruction.plan_order, looks_map]
    exact looks_updateToken t
  | @mint request r t held supply read listed =>
    have hs : t.symbol = symbol := by
      rcases List.mem_pair.mp hch with rfl | rfl
      · cases congrArg Key.ns hk
      · exact hsymbol hk
    rw [h.token?_symbol listed] at hs
    subst hs
    rw [Instruction.Spelled.plan_operate (.order (.mint read)), Instruction.plan_order] at he ⊢
    obtain ⟨e', he', -⟩ := eval_map_eq_ok.mp he
    exact looks_map.mpr (looks_mint he')
  | @burn request r t held supply read listed =>
    have hs : t.symbol = symbol := by
      rcases List.mem_pair.mp hch with rfl | rfl
      · cases congrArg Key.ns hk
      · exact hsymbol hk
    rw [h.token?_symbol listed] at hs
    subst hs
    rw [Instruction.Spelled.plan_operate (.order (.burn read)), Instruction.plan_order] at he ⊢
    obtain ⟨e', he', -⟩ := eval_map_eq_ok.mp he
    exact looks_map.mpr (looks_burn he')
  | wallet | initialise | firstScores | newScores =>
    obtain rfl := List.mem_singleton.mp hch
    cases congrArg Key.ns hk
  | transfer | multitransfer =>
    obtain ⟨p, -, rfl⟩ := List.mem_map.mp hch
    cases congrArg Key.ns hk

def enumerates (name : String) : Bool := (Operation.ofName? name).any (·.enumerates)

theorem enumerates_of_parse {name : String} {op : Operation} (h : Operation.parse name = .ok op) :
    enumerates name = op.enumerates := by
  rw [Operation.parse] at h
  cases hn : Operation.ofName? name with
  | none => simp [hn] at h
  | some o =>
    simp only [hn, Except.ok.injEq] at h
    simp [enumerates, hn, h]

theorem Coherent.request_congr {c : Contract} (hl : Coherent l) (hm : Coherent m) {role : Option Role}
    {name : String} {args : List String} (hname : enumerates name = false)
    (h : (c.request role name args).plan.Alike l m) :
    (c.request role name args).plan.eval m = (c.request role name args).plan.eval l := by
  rw [c.plan_request] at h ⊢
  simp only [eval_bind, eval_liftM]
  cases hop : Operation.parse name with
  | error f => rfl
  | ok op =>
    have h := h.rest (a := op) (by rw [eval_liftM, hop])
    cases hpermit : op.permit role with
    | error f => simp [Except.bind, hpermit]
    | ok u =>
      have h := h.rest (a := ()) (by rw [eval_liftM, hpermit])
      rw [enumerates_of_parse hop] at hname
      simp only [Except.bind, hpermit]
      exact hl.operate_congr hm hname h

/-- A request to enumerate changes nothing. -/
theorem Coherent.changes_of_enumerates {c : Contract} (h : Coherent l) {role : Option Role} {name : String}
    {args : List String} (hname : enumerates name = true) {e : Effect Bytes}
    (he : (c.request role name args).plan.eval l = .ok e) : e.changes = [] := by
  obtain ⟨op, hop, -, hc⟩ := h.carried_request he
  rw [enumerates_of_parse hop] at hname
  generalize e.changes = cs at hc
  cases hc with
  | nothing => rfl
  | _ => cases hname

theorem Coherent.request_looks {c : Contract} (h : Coherent l) {role : Option Role} {name : String}
    {args : List String} {e : Effect Bytes} (he : (c.request role name args).plan.eval l = .ok e) {ch : Change}
    (hch : ch ∈ e.changes) {symbol : String} (hk : ch.key = .token symbol) :
    (c.request role name args).plan.Looks l (Key.token symbol).encode := by
  obtain ⟨op, hop, hpermit, he⟩ := request_eq_ok.mp he
  have hlook := h.looks_of_changes he hch hk
  rw [c.plan_request]
  refine looks_bind.mpr (.inr ⟨op, by rw [eval_liftM, hop], ?_⟩)
  exact looks_bind.mpr (.inr ⟨(), by rw [eval_liftM, hpermit], hlook⟩)

end Live
end TokenLedger
