import TokenLedger.Proofs.Writing

/-! What an operation is told by its arguments. All that is said of operations in general is said of the questions,
orders and filings that they come to. -/

namespace TokenLedger

theorem Operation.name_of_parse {name : String} {op : Operation} (h : Operation.parse name = .ok op) :
    name = op.name := by
  rw [parse] at h
  cases hn : ofName? name with
  | none => simp [hn] at h
  | some o =>
    simp only [hn, Except.ok.injEq] at h
    have hname := List.find?_some hn
    rw [← h]
    exact (beq_iff_eq.mp hname).symm

theorem Operation.eq_of_parse {op o : Operation} (h : Operation.parse op.name = .ok o) : o = op := by
  simpa [Operation.parse] using h.symm

inductive Question.Spelled : Operation → List String → Question → Prop
  | token (symbol : String) : Question.Spelled .getToken [symbol] (.token symbol)
  | tokensOfType {name : String} {type : TokenType} (read : TokenType.parse name = .ok type) :
      Question.Spelled .getTokenInfoByType [name] (.tokensOfType type)
  | symbolsOfType {name : String} {type : TokenType} (read : TokenType.parse name = .ok type) :
      Question.Spelled .getTokenListByType [name] (.symbolsOfType type)
  | addressExists (address : String) : Question.Spelled .checkAddressExist [address] (.addressExists address)
  | wallet (address : String) {name : String} {type : TokenType} (read : TokenType.parse name = .ok type) :
      Question.Spelled .getWalletType [address, name] (.wallet address type)
  | balanceOf (address symbol : String) : Question.Spelled .balanceOf [address, symbol] (.balanceOf address symbol)
  | scores (actor : String) : Question.Spelled .getFinancialScores [actor] (.scores actor)
  | balancesOfAddress (address : String) : Question.Spelled .getBalancesOfAddress [address] (.balancesOfAddress address)
  | balancesOfToken (symbol : String) : Question.Spelled .getBalancesOfTokenHolders [symbol] (.balancesOfToken symbol)
  | holders (symbol : String) : Question.Spelled .getTokenHolderList [symbol] (.holders symbol)

inductive Order.Spelled : Operation → List String → Order → Prop
  | registerToken {text : String} {t : Token} (read : Argument.token.read Token.codec text = .ok t) (holder : String) :
      Order.Spelled .registerToken [text, holder] (.registerToken t holder)
  | updateToken {text : String} {t : Token} (read : Argument.token.read Token.codec text = .ok t) :
      Order.Spelled .updateTokenInfo [text] (.updateToken t)
  | transfer {request : String} {t : Transfer} (read : Argument.transfer.read Transfer.codec request = .ok t)
      (digest signature : String) : Order.Spelled .transfer [request, digest, signature] (.transfer t digest signature)
  | multitransfer {request : String} {requests : List String} {ts : List Transfer}
      (read : (request :: requests).mapM (Argument.transfer.read Transfer.codec) = .ok ts) :
      Order.Spelled .multitransfer (request :: requests) (.multitransfer ts)
  | mint {request : String} {r : Transfer} (read : Argument.mintRequest.read Transfer.codec request = .ok r) :
      Order.Spelled .mint [request] (.mint r)
  | burn {request : String} {r : Transfer} (read : Argument.burnRequest.read Transfer.codec request = .ok r) :
      Order.Spelled .burn [request] (.burn r)

inductive Filing.Spelled : Operation → List String → Filing → Prop
  | removeToken (symbol : String) : Filing.Spelled .removeToken [symbol] (.removeToken symbol)
  | registerAddress (address : String) : Filing.Spelled .registerAddress [address] (.registerAddress address)
  | initialiseBalance (address symbol : String) :
      Filing.Spelled .initialiseBalance [address, symbol] (.initialiseBalance address symbol)
  | initialiseScores (actor : String) {text : String} {s : Scores}
      (read : Argument.scores.read Scores.codec text = .ok s) :
      Filing.Spelled .initialiseFinancialScores [actor, text] (.initialiseScores actor s)
  | updateScores (actor : String) {text : String} {s : Scores}
      (read : Argument.scores.read Scores.codec text = .ok s) :
      Filing.Spelled .updateFinancialScores [actor, text] (.updateScores actor s)

/-- An operation on arguments that spell an instruction. -/
inductive Instruction.Spelled (op : Operation) (args : List String) : Instruction → Prop
  | ask {q : Question} (asks : Question.Spelled op args q) : Instruction.Spelled op args (.ask q)
  | order {o : Order} (orders : Order.Spelled op args o) : Instruction.Spelled op args (.order o)
  | file {f : Filing} (files : Filing.Spelled op args f) : Instruction.Spelled op args (.file f)

section Spelled

variable {op : Operation} {args : List String} {i : Instruction}

theorem Instruction.read_eq_ok : read op args = .ok i ↔ Instruction.Spelled op args i := by
  constructor
  · intro h
    unfold read at h
    split at h
    case h_22 => cases h
    case h_2 | h_4 | h_7 | h_8 | h_10 | h_11 | h_18 | h_19 | h_20 | h_21 =>
      cases h
      constructor
      constructor
    all_goals
      obtain ⟨x, hx, h⟩ := Query.bind_eq_ok.mp h
      cases h
      constructor
      constructor
      exact hx
  · intro h
    cases h with
    | ask h => cases h <;> first | rfl | (simp only [read, *]; rfl)
    | order h => cases h <;> (simp only [read, *]; rfl)
    | file h => cases h <;> first | rfl | (simp only [read, *]; rfl)

theorem Argument.kind_of_read {α : Type} {a : Argument} {c : Json.Codec α} {s : String} {f : Failure}
    (h : a.read c s = .error f) : f.kind = .validation := by
  rw [read] at h
  split at h
  · cases h
  · cases h
    rfl

theorem TokenType.kind_of_parse {s : String} {f : Failure} (h : parse s = .error f) : f.kind = .validation := by
  rw [parse] at h
  split at h
  · cases h
  · cases h
    rfl

theorem kind_of_mapM {α β : Type} {g : α → Except Failure β} {k : Failure.Kind}
    (hg : ∀ a f, g a = .error f → f.kind = k)
    {as : List α} {f : Failure} (h : as.mapM g = .error f) : f.kind = k := by
  induction as generalizing f with
  | nil => cases h
  | cons a as ih =>
    rw [List.mapM_cons] at h
    cases ha : g a with
    | error e =>
      rw [ha] at h
      cases h
      exact hg a _ ha
    | ok b =>
      rw [ha] at h
      cases has : as.mapM g with
      | error e =>
        rw [has] at h
        cases h
        exact ih has
      | ok bs =>
        rw [has] at h
        cases h

theorem Instruction.kind_of_read {f : Failure} (h : read op args = .error f) : f.kind = .validation := by
  have hbind {α : Type} {x : Except Failure α} {g : α → Instruction} (hx : ∀ e, x = .error e → e.kind = .validation)
      (h : (do return g (← x) : Except Failure Instruction) = .error f) : f.kind = .validation := by
    cases x with
    | ok a => cases h
    | error e =>
      cases h
      exact hx _ rfl
  unfold read at h
  split at h
  case h_22 =>
    cases h
    rfl
  case h_2 | h_4 | h_7 | h_8 | h_10 | h_11 | h_18 | h_19 | h_20 | h_21 => cases h
  case h_5 | h_6 | h_9 => exact hbind (fun _ => TokenType.kind_of_parse) h
  case h_13 => exact hbind (fun _ => kind_of_mapM fun _ _ => Argument.kind_of_read) h
  all_goals exact hbind (fun _ => Argument.kind_of_read) h

variable {c : Contract} {l : Table Bytes} {e : Effect Bytes}

/-- An operation fails on arguments that spell no instruction, and else carries out the one that they spell. -/
theorem Contract.plan_operate (c : Contract) (op : Operation) (args : List String) : (c.operate op args).plan =
    match Instruction.read op args with
    | .ok i => (i.carryOut c).plan
    | .error f => throw f := by
  rw [operate, Action.plan_except_bind]
  cases Instruction.read op args <;> rfl

theorem Instruction.Spelled.plan_operate (h : Instruction.Spelled op args i) (c : Contract) :
    (c.operate op args).plan = (i.carryOut c).plan := by
  rw [c.plan_operate, Instruction.read_eq_ok.mpr h]

/-- What two sides make of every instruction alike they make of the operation alike. -/
theorem eval_operate_congr {m : Table Bytes}
    (h : ∀ i, Instruction.Spelled op args i → (i.carryOut c).plan.eval m = (i.carryOut c).plan.eval l) :
    (c.operate op args).plan.eval m = (c.operate op args).plan.eval l := by
  cases hi : Instruction.read op args with
  | error f => simp only [c.plan_operate, hi, Query.eval_throw]
  | ok i =>
    have hi := Instruction.read_eq_ok.mp hi
    rw [hi.plan_operate c, h i hi]

theorem Contract.plan_request (c : Contract) (role : Option Role) (name : String) (args : List String) :
    (c.request role name args).plan = (do
      let op ← liftM (Operation.parse name)
      liftM (op.permit role)
      (c.operate op args).plan) := by
  simp only [request, Action.plan_except_bind]

theorem operate_eq_ok : (c.operate op args).plan.eval l = .ok e ↔
    ∃ i, Instruction.Spelled op args i ∧ (i.carryOut c).plan.eval l = .ok e := by
  rw [c.plan_operate]
  cases h : Instruction.read op args with
  | error f =>
    refine ⟨nofun, fun ⟨i, hi, _⟩ => ?_⟩
    rw [Instruction.read_eq_ok.mpr hi] at h
    cases h
  | ok i =>
    refine ⟨fun he => ⟨i, Instruction.read_eq_ok.mp h, he⟩, fun ⟨j, hj, he⟩ => ?_⟩
    rw [Instruction.read_eq_ok.mpr hj] at h
    cases h
    exact he

end Spelled
end TokenLedger
