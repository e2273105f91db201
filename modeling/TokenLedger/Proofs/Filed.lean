import TokenLedger.Proofs.Coherence
import TokenLedger.Proofs.Scan

/-! Stored records and their keys. A record names the same address and the same symbol as the key it is
stored under, and every document is read back. So there is nothing in a store on which an operation could
break down: it fails for what it was asked, and never because of the state it met. -/

namespace TokenLedger

/-- A document belongs under a key: it is the record of the token or of the account that the key names. -/
def Key.Holds : Key → Bytes → Prop
  | ⟨.tokens, cs⟩, b => ∃ t, Token.codec.decode b = .ok t ∧ cs = [t.symbol]
  | ⟨.balances, cs⟩, b => ∃ r, Balance.codec.decode b = .ok r ∧ cs = [r.address, r.token]
  | ⟨.wallets, cs⟩, _ | ⟨.scores, cs⟩, _ => cs.length = 1

theorem Key.Holds.token {k : Key} {b : Bytes} (h : k.Holds b) (hns : k.ns = .tokens) :
    ∃ t, Token.codec.decode b = .ok t := by
  obtain ⟨ns, cs⟩ := k
  subst hns
  obtain ⟨t, ht, -⟩ := h
  exact ⟨t, ht⟩

theorem Key.Holds.balance {k : Key} {b : Bytes} (h : k.Holds b) (hns : k.ns = .balances) :
    ∃ r, Balance.codec.decode b = .ok r := by
  obtain ⟨ns, cs⟩ := k
  subst hns
  obtain ⟨r, hr, -⟩ := h
  exact ⟨r, hr⟩

theorem Change.holds {ch : Change} (hp : ch.Plain) {b : Bytes} (hb : ch.document = some b) : ch.key.Holds b := by
  cases ch with
  | wallet | scores => exact rfl
  | unlist => cases hb
  | token t =>
    cases hb
    exact ⟨t, Token.decode_write t, rfl⟩
  | balance r =>
    cases hb
    exact ⟨r, Balance.decode_write hp, rfl⟩

theorem Live.Coherent.keyed {l : Table Bytes} (h : Coherent l) : Live.Keyed l := fun text b hb => by
  obtain ⟨ch, -, rfl, -⟩ := h text b hb
  exact ⟨ch.key, rfl⟩

/-- Coherent values stand under keys, and belong there. -/
theorem Live.Coherent.holds {l : Table Bytes} (h : Coherent l) {text : String} {b : Bytes}
    (hb : l[text]? = some b) : ∃ k, Key.decode text = .ok k ∧ k.Holds b := by
  obtain ⟨ch, hp, rfl, hd⟩ := h text b hb
  exact ⟨ch.key, Key.decode_encode _, ch.holds hp hd⟩

def Foreseen {α : Type} (x : Except Failure α) : Prop := ∀ f, x = .error f → f.kind ≠ .internal

section Foreseen

variable {α β : Type}

theorem foreseen_ok (a : α) : Foreseen (.ok a) := by
  rintro _ ⟨⟩

theorem foreseen_error {f : Failure} (h : f.kind ≠ .internal) : Foreseen (.error f : Except Failure α) := by
  rintro _ ⟨⟩
  exact h

theorem Foreseen.bind {x : Except Failure α} {g : α → Except Failure β} (hx : Foreseen x)
    (hg : ∀ a, Foreseen (g a)) : Foreseen (x >>= g) := by
  cases x with
  | error f => exact foreseen_error (hx f rfl)
  | ok a => exact hg a

theorem foreseen_requireIntegralSupply (t : Token) : Foreseen t.requireIntegralSupply := by
  rw [Token.requireIntegralSupply]
  split
  · exact foreseen_ok ()
  · exact foreseen_error (by rintro ⟨⟩)

theorem Amount.foreseen_add (a b : Amount) : Foreseen (a.add b) := by
  rw [add]
  split
  · exact foreseen_ok _
  · exact foreseen_error (by rintro ⟨⟩)

theorem Amount.foreseen_sub (a b : Amount) : Foreseen (a.sub b) := by
  rw [sub]
  split
  · exact foreseen_ok _
  · exact foreseen_error (by rintro ⟨⟩)

theorem Operation.foreseen_parse (s : String) : Foreseen (parse s) := by
  rw [parse]
  split
  · exact foreseen_ok _
  · exact foreseen_error (by rintro ⟨⟩)

theorem Operation.foreseen_permit (op : Operation) (role : Option Role) : Foreseen (op.permit role) := by
  rw [permit]
  split
  · split
    · exact foreseen_ok ()
    · exact foreseen_error (by rintro ⟨⟩)
  · exact foreseen_ok ()

theorem Scores.foreseen_validate (s : Scores) : Foreseen s.validate := by
  rw [validate]
  split
  · split
    · exact foreseen_ok ()
    · exact foreseen_error (by rintro ⟨⟩)
  · exact foreseen_error (by rintro ⟨⟩)

theorem Credential.foreseen_decode (c : Credential) (s : String) : Foreseen (c.decode s) := by
  rw [decode]
  split
  · exact foreseen_ok _
  · exact foreseen_error (by rintro ⟨⟩)

theorem Credential.foreseen_decodeSized (c : Credential) (n : Nat) (s : String) :
    Foreseen (c.decodeSized n s) := by
  refine (c.foreseen_decode s).bind fun b => ?_
  split
  · exact foreseen_ok _
  · exact foreseen_error (by rintro ⟨⟩)

theorem foreseen_ed25519Verifier (key digest signature : String) :
    Foreseen (ed25519Verifier key digest signature) := by
  rw [ed25519Verifier]
  refine (Credential.foreseen_decodeSized _ _ _).bind fun k => ?_
  refine (Credential.foreseen_decode _ _).bind fun d => (Credential.foreseen_decodeSized _ _ _).bind fun s => ?_
  split_ifs
  · exact foreseen_ok ()
  · exact foreseen_error (by rintro ⟨⟩)
  · exact foreseen_error (by rintro ⟨⟩)
  · exact foreseen_error (by rintro ⟨⟩)

end Foreseen

/-- A contract passes on the failures of its check of signatures and of its register of actors. -/
def Contract.Relays (c : Contract) (f : Failure) : Prop :=
  (∃ key digest signature, c.verify key digest signature = .error f) ∨ ∃ actor, c.isActor actor = .error f

namespace Query

variable {α β : Type}

def FailsWith (P : Failure → Prop) (q : Query α) (l : Table Bytes) : Prop := ∀ f, q.eval l = .error f → P f

variable {P : Failure → Prop} {l : Table Bytes}

theorem failsWith_of_ok {q : Query α} {a : α} (h : q.eval l = .ok a) : q.FailsWith P l := by
  intro f hf
  rw [h] at hf
  cases hf

theorem failsWith_pure (a : α) : (pure a : Query α).FailsWith P l := failsWith_of_ok rfl

theorem failsWith_throw {f : Failure} (h : P f) : (throw f : Query α).FailsWith P l := by
  rintro _ ⟨⟩
  exact h

theorem failsWith_liftM {x : Except Failure α} (h : ∀ f, x = .error f → P f) :
    (liftM x : Query α).FailsWith P l := by
  intro f hf
  rw [eval_liftM] at hf
  exact h f hf

theorem failsWith_of_foreseen {x : Except Failure α} (h : Foreseen x)
    (hP : ∀ f : Failure, f.kind ≠ .internal → P f) : (liftM x : Query α).FailsWith P l :=
  failsWith_liftM fun f hf => hP f (h f hf)

theorem FailsWith.bind {q : Query α} {g : α → Query β} (hq : q.FailsWith P l)
    (hg : ∀ a, q.eval l = .ok a → (g a).FailsWith P l) : (q >>= g).FailsWith P l := by
  intro f hf
  rw [eval_bind] at hf
  cases ha : q.eval l with
  | error e =>
    rw [ha] at hf
    cases hf
    exact hq _ ha
  | ok a =>
    rw [ha] at hf
    exact hg a ha f hf

theorem FailsWith.map {q : Query α} (hq : q.FailsWith P l) (g : α → β) : (g <$> q).FailsWith P l := by
  rw [map_eq_pure_bind]
  exact hq.bind fun _ _ => failsWith_pure _

theorem FailsWith.encode {q : Query β} (hq : q.FailsWith P l) (c : Json.Codec α) [c.Total] (f : β → α) :
    (q >>= fun b => liftM (payload (c.encode (f b)))).FailsWith P l :=
  encode_bind q c f ▸ hq.map _

theorem FailsWith.mapM {g : α → Query β} {as : List α} (hg : ∀ a ∈ as, (g a).FailsWith P l) :
    (as.mapM g).FailsWith P l := by
  induction as with
  | nil => exact failsWith_pure []
  | cons a as ih =>
    rw [List.mapM_cons]
    have ih := ih fun b hb => hg b (by simp [hb])
    exact (hg a (by simp)).bind fun _ _ => ih.bind fun _ _ => failsWith_pure _

theorem FailsWith.foldlM {g : β → α → Query β} (hg : ∀ b a, (g b a).FailsWith P l) (as : List α) (b : β) :
    (as.foldlM g b).FailsWith P l := by
  induction as generalizing b with
  | nil => exact failsWith_pure b
  | cons a as ih =>
    rw [List.foldlM_cons]
    exact (hg b a).bind fun b _ => ih b

/-- An operation fails because its arguments are invalid, or as the instruction does that they spell. -/
theorem failsWith_operate {c : Contract} {op : Operation} {args : List String}
    (hread : ∀ f : Failure, f.kind = .validation → P f)
    (h : ∀ i, Instruction.Spelled op args i → (i.carryOut c).plan.FailsWith P l) :
    (c.operate op args).plan.FailsWith P l := by
  cases hi : Instruction.read op args with
  | error f =>
    simp only [c.plan_operate, hi]
    exact failsWith_throw (hread f (Instruction.kind_of_read hi))
  | ok i =>
    have hi := Instruction.read_eq_ok.mp hi
    rw [hi.plan_operate c]
    exact h i hi

theorem failsWith_records {c : Json.Codec α} {hits : List (Key × Bytes)}
    (h : ∀ hit ∈ hits, ∃ a, c.decode hit.2 = .ok a) : (records c hits).FailsWith P l := by
  refine .mapM fun ⟨k, b⟩ hm => ?_
  obtain ⟨a, ha⟩ := h (k, b) hm
  refine failsWith_of_ok (a := a) ?_
  simp only [decoded, ha, eval_pure]

theorem failsWith_requireAddress (hP : ∀ f : Failure, f.kind ≠ .internal → P f) (address : String) :
    (requireAddress address).FailsWith P l := by
  intro f hf
  rw [Live.eval_requireAddress] at hf
  split_ifs at hf
  cases hf
  exact hP _ (by rintro ⟨⟩)

end Query

open Query

namespace Live.Coherent

variable {P : Failure → Prop} {l : Table Bytes} (h : Coherent l)

include h

/-- A scan finds the records of its namespace, each under a key where it belongs. -/
theorem eval_scan (ns : Namespace) (components : List String) :
    ∃ hits, (Query.scan ns components).eval l = .ok hits ∧ ∀ hit ∈ hits, hit.1.ns = ns ∧ hit.1.Holds hit.2 := by
  obtain ⟨hits, hhits, -, hmem⟩ := h.keyed.eval_scan ns components
  refine ⟨hits, hhits, fun ⟨k, b⟩ hm => ?_⟩
  obtain ⟨hb, hns, -⟩ := (hmem k b).mp hm
  obtain ⟨j, hj, hholds⟩ := h.holds hb
  rw [Key.decode_encode, Except.ok.injEq] at hj
  exact ⟨hns, hj ▸ hholds⟩

theorem eval_select (sel : Selector) :
    ∃ hits, (Query.select sel).eval l = .ok hits ∧ ∀ hit ∈ hits, hit.1.ns = sel.ns ∧ hit.1.Holds hit.2 := by
  obtain ⟨hits, hhits, hall⟩ := h.eval_scan sel.ns []
  refine ⟨hits.filter fun hit => sel.accepts hit.2, by rw [Live.eval_select, hhits]; rfl, ?_⟩
  exact fun hit hm => hall hit (List.mem_filter.mp hm).1

theorem failsWith_balancesOfAddress (address : String) : (balancesOfAddress address).FailsWith P l := by
  obtain ⟨hits, hhits, hall⟩ := h.eval_scan .balances [address]
  refine (failsWith_of_ok hhits).bind fun ks hks => failsWith_records fun hit hm => ?_
  rw [hhits] at hks
  cases hks
  exact (hall hit hm).2.balance (hall hit hm).1

theorem failsWith_balancesOfToken (symbol : String) : (balancesOfToken symbol).FailsWith P l := by
  obtain ⟨hits, hhits, hall⟩ := h.eval_select (.text .balances "Token" symbol)
  refine (failsWith_of_ok hhits).bind fun ks hks => failsWith_records fun hit hm => ?_
  rw [hhits] at hks
  cases hks
  exact (hall hit hm).2.balance (hall hit hm).1

theorem failsWith_tokensOfType (type : TokenType) : (tokensOfType type).FailsWith P l := by
  obtain ⟨hits, hhits, hall⟩ := h.eval_select (.text .tokens "TokenType" type.name)
  refine (failsWith_of_ok hhits).bind fun ks hks => failsWith_records fun hit hm => ?_
  rw [hhits] at hks
  cases hks
  exact (hall hit hm).2.token (hall hit hm).1

theorem failsWith_symbolsOfType (type : TokenType) : (symbolsOfType type).FailsWith P l :=
  (h.failsWith_tokensOfType type).bind fun _ _ => failsWith_pure _

variable (hP : ∀ f : Failure, f.kind ≠ .internal → P f)

include hP

theorem failsWith_token (symbol : String) : (token symbol).FailsWith P l := by
  refine (failsWith_of_ok (h.eval_token? symbol)).bind fun t _ => ?_
  cases t with
  | some t => exact failsWith_pure t
  | none => exact failsWith_throw (hP _ (by rintro ⟨⟩))

theorem failsWith_balance (a : Account) (registered : Bool) : (Query.balance a registered).FailsWith P l := by
  intro f hf
  rw [h.eval_balance] at hf
  split_ifs at hf
  cases hf
  exact hP _ (by rintro ⟨⟩)

theorem failsWith_wallet (address : String) (type : TokenType) : (wallet address type).FailsWith P l :=
  (h.failsWith_symbolsOfType type).bind fun _ _ =>
    .mapM fun _ _ => (h.failsWith_balance hP _ _).bind fun _ _ => failsWith_pure _

theorem failsWith_registerToken (t : Token) (holder : String) : (registerToken t holder).plan.FailsWith P l := by
  intro f hf
  rw [h.eval_registerToken] at hf
  split_ifs at hf with hlisted hheld
  · cases hf
    exact hP _ (by rintro ⟨⟩)
  · cases hf
    exact hP _ (by rintro ⟨⟩)
  · rw [Token.requireIntegralSupply] at hf
    split_ifs at hf
    · cases hf
    · cases hf
      exact hP _ (by rintro ⟨⟩)

theorem failsWith_removeToken (symbol : String) : (removeToken symbol).plan.FailsWith P l := by
  rw [plan_removeToken]
  exact (h.failsWith_token hP symbol).bind fun _ _ => failsWith_pure _

theorem failsWith_updateToken (t : Token) : (updateToken t).plan.FailsWith P l := by
  intro f hf
  rw [h.eval_updateToken] at hf
  cases hcurrent : token? l t.symbol with
  | none =>
    simp only [hcurrent, Except.error.injEq] at hf
    subst hf
    exact hP _ (by rintro ⟨⟩)
  | some current =>
    simp only [hcurrent] at hf
    cases hs : { t with supply := current.supply : Token }.requireIntegralSupply with
    | error e =>
      simp only [hs, Except.bind, Except.error.injEq] at hf
      subst hf
      exact hP _ (foreseen_requireIntegralSupply _ _ hs)
    | ok _ =>
      simp only [hs, Except.bind] at hf
      split at hf
      · cases hf
        exact hP _ (by rintro ⟨⟩)
      · cases hf

theorem failsWith_transferableToken (symbol : String) (date : Timestamp) (amount : Amount) :
    (transferableToken symbol date amount).FailsWith P l := by
  refine (h.failsWith_token hP symbol).bind fun t _ => ?_
  by_cases hd : date < t.lockUpDate
  · simpa [hd] using failsWith_throw (hP (.lockedUp t.symbol t.lockUpDate date) (by rintro ⟨⟩))
  · cases ha : t.type.admits amount with
    | true => simpa [hd] using failsWith_pure t
    | false => simpa [hd] using failsWith_throw (hP (.fractionalMovement .transfer t.type amount) (by rintro ⟨⟩))

theorem failsWith_touched_transfer (m : Touched) (t : Transfer) : (m.transfer t).FailsWith P l := by
  have hbalance (a : Account) (registered : Bool) : (m.balance a registered).FailsWith P l := by
    rw [Touched.balance]
    split
    · exact failsWith_pure _
    · exact h.failsWith_balance hP a registered
  refine (h.failsWith_transferableToken hP _ _ _).bind fun _ _ => ?_
  refine (hbalance _ _).bind fun sender _ => (hbalance _ _).bind fun receiver _ => ?_
  refine (failsWith_of_foreseen (Amount.foreseen_sub _ _) hP).bind fun sent _ => ?_
  exact (failsWith_of_foreseen (Amount.foreseen_add _ _) hP).bind fun received _ => failsWith_pure _

theorem failsWith_transfer (t : Transfer) : (transfer t).plan.FailsWith P l := by
  rw [plan_transfer]
  by_cases hs : t.sender = t.receiver
  · simpa [hs] using failsWith_throw (hP .selfTransfer (by rintro ⟨⟩))
  · cases hz : t.amount.isZero with
    | true => simpa [hs] using failsWith_throw (hP (.nothingMoved .transfer) (by rintro ⟨⟩))
    | false => simpa [hs] using (h.failsWith_touched_transfer hP ∅ t).bind fun _ _ => failsWith_pure _

theorem failsWith_multitransfer (ts : List Transfer) : (multitransfer ts).plan.FailsWith P l := by
  rw [plan_multitransfer]
  exact (FailsWith.foldlM (h.failsWith_touched_transfer hP) _ ∅).bind fun _ _ => failsWith_pure _

theorem failsWith_suppliedToken (k : Movement) (r : Transfer) : (suppliedToken k r).FailsWith P l := by
  rw [suppliedToken]
  cases hz : r.amount.isZero with
  | true => simpa using failsWith_throw (hP (.nothingMoved k) (by rintro ⟨⟩))
  | false =>
    refine (h.failsWith_token hP r.token).bind fun t _ => ?_
    cases ha : t.type.admits r.amount with
    | true => simpa using failsWith_pure t
    | false => simpa using failsWith_throw (hP (.fractionalMovement k t.type r.amount) (by rintro ⟨⟩))

theorem failsWith_mint (r : Transfer) : (mint r).plan.FailsWith P l := by
  rw [plan_mint]
  refine (h.failsWith_suppliedToken hP _ r).bind fun t _ => (h.failsWith_balance hP _ _).bind fun b _ => ?_
  refine (failsWith_of_foreseen (Amount.foreseen_add _ _) hP).bind fun held _ => ?_
  exact (failsWith_of_foreseen (Amount.foreseen_add _ _) hP).bind fun supply _ => failsWith_pure _

theorem failsWith_burn (r : Transfer) : (burn r).plan.FailsWith P l := by
  rw [plan_burn]
  refine (h.failsWith_suppliedToken hP _ r).bind fun t _ => (h.failsWith_balance hP _ _).bind fun b _ => ?_
  refine (failsWith_of_foreseen (Amount.foreseen_sub _ _) hP).bind fun held _ => ?_
  exact (failsWith_of_foreseen (Amount.foreseen_sub _ _) hP).bind fun supply _ => failsWith_pure _

omit h in
theorem failsWith_initialiseScores (actor : String) (s : Scores) : (initialiseScores actor s).plan.FailsWith P l := by
  rw [plan_initialiseScores]
  exact (failsWith_of_foreseen s.foreseen_validate hP).bind fun _ _ => failsWith_pure _

section Instructions

variable {c : Contract} {op : Operation} {args : List String}

theorem failsWith_question {q : Question} (hq : Question.Spelled op args q) (hop : op ≠ .getFinancialScores) :
    q.answer.FailsWith P l := by
  cases hq with
  | token symbol => exact FailsWith.encode (h.failsWith_token hP symbol) _ _
  | tokensOfType => exact FailsWith.encode (h.failsWith_tokensOfType _) _ _
  | symbolsOfType => exact FailsWith.encode (h.failsWith_symbolsOfType _) _ _
  | addressExists address => exact (failsWith_requireAddress hP address).bind fun _ _ => failsWith_pure _
  | wallet address => exact FailsWith.encode (h.failsWith_wallet hP address _) _ _
  | balanceOf address symbol => exact FailsWith.encode (h.failsWith_balance hP _ _) _ _
  | scores => exact absurd rfl hop
  | balancesOfAddress address => exact FailsWith.encode (h.failsWith_balancesOfAddress address) _ _
  | balancesOfToken symbol => exact FailsWith.encode (h.failsWith_balancesOfToken symbol) _ _
  | holders symbol => exact FailsWith.encode ((h.failsWith_balancesOfToken symbol).bind fun _ _ => failsWith_pure _) _ _

variable (hc : ∀ f, c.Relays f → P f)

include hc

theorem failsWith_order (o : Order) : (o.carryOut c).plan.FailsWith P l := by
  cases o with
  | registerToken t holder => exact h.failsWith_registerToken hP t holder
  | updateToken t => exact h.failsWith_updateToken hP t
  | transfer t digest signature =>
    rw [Order.carryOut, Action.plan_except_bind]
    refine FailsWith.bind (failsWith_liftM fun f hf => ?_) fun _ _ => h.failsWith_transfer hP t
    rw [authorise] at hf
    split_ifs at hf
    · exact hc f (.inl ⟨_, _, _, hf⟩)
    · cases hf
      exact hP _ (by rintro ⟨⟩)
  | multitransfer ts => exact h.failsWith_multitransfer hP ts
  | mint r => exact h.failsWith_mint hP r
  | burn r => exact h.failsWith_burn hP r

theorem failsWith_filing (f : Filing) : (f.carryOut c).plan.FailsWith P l := by
  cases f with
  | removeToken symbol => exact h.failsWith_removeToken hP symbol
  | registerAddress address =>
    rw [Filing.carryOut, plan_registerAddress]
    refine (failsWith_of_ok (Live.eval_addressExists address)).bind fun known _ => ?_
    cases known with
    | true => exact failsWith_throw (hP _ (by rintro ⟨⟩))
    | false => exact failsWith_pure _
  | initialiseBalance address symbol =>
    rw [plan_file_initialiseBalance, plan_initialiseBalance]
    exact ((h.failsWith_balance hP _ _).bind fun _ _ => failsWith_pure _).map _
  | initialiseScores actor s => exact failsWith_initialiseScores hP actor s
  | updateScores actor s =>
    rw [Filing.carryOut, plan_updateScores]
    refine (failsWith_liftM fun f hf => hc f (.inr ⟨_, hf⟩)).bind fun known _ => ?_
    cases known with
    | true => exact plan_initialiseScores actor s ▸ failsWith_initialiseScores hP actor s
    | false => exact failsWith_throw (hP _ (by rintro ⟨⟩))

/-- An instruction that does not read scores fails for what it was asked, or because the check of signatures
or the register of actors does. -/
theorem failsWith_instruction {i : Instruction} (hi : Instruction.Spelled op args i) (hop : op ≠ .getFinancialScores) :
    (i.carryOut c).plan.FailsWith P l := by
  cases hi with
  | ask hq => exact Instruction.plan_ask c _ ▸ (h.failsWith_question hP hq hop).map _
  | @order o => exact Instruction.plan_order c o ▸ (h.failsWith_order hP hc o).map _
  | @file f => exact Instruction.plan_file c f ▸ (h.failsWith_filing hP hc f).map _

end Instructions

theorem failsWith_request {c : Contract} (hc : ∀ f, c.Relays f → P f) (role : Option Role) {name : String}
    (hname : name ≠ Operation.getFinancialScores.name) (args : List String) :
    (c.request role name args).plan.FailsWith P l := by
  rw [c.plan_request]
  refine (failsWith_of_foreseen (Operation.foreseen_parse name) hP).bind fun op hop => ?_
  refine (failsWith_of_foreseen (op.foreseen_permit role) hP).bind fun _ _ => ?_
  refine failsWith_operate (fun f hf => hP f (hf ▸ nofun)) fun i hi => h.failsWith_instruction hP hc hi ?_
  rintro rfl
  rw [eval_liftM] at hop
  exact hname (Operation.name_of_parse hop)

end Live.Coherent

/-- In whatever order a contract has been used, every record stands under a key where it belongs, and no
invocation fails internally unless it asks for scores: it only passes on what the check of signatures or the
register of actors says, and Ed25519 itself never says this. -/
theorem filed_foreseen {c : Contract} {x : Session} (h : c.Reaches x) :
    (∀ text b, x.store.value? text = some b → ∃ k, Key.decode text = .ok k ∧ k.Holds b) ∧
    ∀ (tx : String) (role : Option Role) (name : String) (args : List String) (f : Failure),
      (c.invoke x.store (x.transaction tx) role name args).1 = .error f → name ≠ "getFinancialScores" →
      f.kind = .internal → c.Relays f ∧ (c.verify = ed25519Verifier → ∃ actor, c.isActor actor = .error f) := by
  constructor
  · intro text b hb
    rw [← Store.getElem?_live] at hb
    exact h.coherent.store.holds hb
  · intro tx role name args f hf hname
    have hf := (Query.perform_eq_error _ _ _).mp (c.invoke_eq .. ▸ hf)
    refine (h.coherent.view tx).failsWith_request (P := fun f => f.kind = .internal → c.Relays f ∧
      (c.verify = ed25519Verifier → ∃ actor, c.isActor actor = .error f)) ?_ ?_ role hname args f hf
    · exact fun f hkind hinternal => absurd hinternal hkind
    · refine fun f hrelays hinternal => ⟨hrelays, fun hverify => ?_⟩
      rcases hrelays with ⟨key, digest, signature, hf⟩ | hactor
      · rw [hverify] at hf
        exact absurd hinternal (foreseen_ed25519Verifier key digest signature f hf)
      · exact hactor

/-- So a request that is refused on a small ledger is not refused internally. -/
theorem filed_foreseen_unknown : ∃ f, (Contract.signing.invoke listed.store (listed.transaction "t") none
    "balanceOf" ["bob", "GLD"]).1 = .error f ∧ f.kind ≠ .internal := by
  have hf : (Contract.signing.invoke listed.store (listed.transaction "t") none "balanceOf" ["bob", "GLD"]).1 =
      .error (.addressUnknown "bob") := by decide +kernel
  refine ⟨_, hf, fun hinternal => ?_⟩
  obtain ⟨-, hrelays⟩ := (filed_foreseen reaches_listed).2 "t" none "balanceOf" ["bob", "GLD"] _ hf (by decide)
    hinternal
  obtain ⟨actor, hactor⟩ := hrelays rfl
  cases hactor

end TokenLedger
