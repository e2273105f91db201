import TokenLedger.Proofs.Document
import TokenLedger.Proofs.Key
import TokenLedger.Proofs.Plan

/-! Live values as the ledger reads them. `Coherent` values are those that changes of the ledger have
left: each stands under the key of its own record, so every record is found and none is broken. -/

namespace TokenLedger

/-- A change as the operations make it. -/
def Change.Plain : Change → Prop
  | .balance b => b.Plain
  | _ => True

namespace Live

def apply (l : Table Bytes) (c : Change) : Table Bytes :=
  match c.document with
  | some b => l.insert c.key.encode b
  | none => l.erase c.key.encode

def applyAll (l : Table Bytes) (cs : List Change) : Table Bytes := cs.foldl apply l

@[simp] theorem applyAll_nil (l : Table Bytes) : applyAll l [] = l := rfl

@[simp] theorem applyAll_cons (l : Table Bytes) (c : Change) (cs : List Change) :
    applyAll l (c :: cs) = applyAll (apply l c) cs := rfl

theorem getElem?_apply (l : Table Bytes) (c : Change) (k : String) :
    (apply l c)[k]? = if c.key.encode = k then c.document else l[k]? := by
  unfold apply
  cases hd : c.document with
  | some b =>
    rw [Std.ExtTreeMap.getElem?_insert]
    simp
  | none =>
    rw [Std.ExtTreeMap.getElem?_erase]
    simp

theorem view_apply (s : Store) (t : Transaction) (c : Change) :
    (t.apply c).view s = apply (t.view s) c := by
  refine Std.ExtTreeMap.ext_getElem? fun k => ?_
  have hw : (t.apply c).writes[k]? = if c.key.encode = k then some c.document else t.writes[k]? := by
    change (t.writes.insert c.key.encode c.document)[k]? = _
    rw [Std.ExtTreeMap.getElem?_insert]
    simp
  rw [getElem?_apply, Transaction.getElem?_view, hw]
  by_cases hk : c.key.encode = k
  · rw [if_pos hk, if_pos hk]
  · rw [if_neg hk, if_neg hk, Transaction.getElem?_view]

@[simp] theorem view_applyAll (s : Store) (t : Transaction) (cs : List Change) :
    (t.applyAll cs).view s = applyAll (t.view s) cs := by
  induction cs generalizing t with
  | nil => rfl
  | cons c cs ih => rw [Transaction.applyAll_cons, ih, view_apply, applyAll_cons]

def token? (l : Table Bytes) (symbol : String) : Option Token :=
  l[(Key.token symbol).encode]?.bind fun b => (Token.codec.decode b).toOption

def balance? (l : Table Bytes) (a : Account) : Option Balance :=
  l[a.key.encode]?.bind fun b => (Balance.codec.decode b).toOption

/-- The balance of an account, zero where nothing is recorded. -/
def balance (l : Table Bytes) (a : Account) : Balance := (balance? l a).getD (.zero a)

/-- The units that an account holds. -/
def held (l : Table Bytes) (a : Account) : Nat := (balance l a).amount.units

theorem held_congr {l m : Table Bytes} {a : Account} (h : m[a.key.encode]? = l[a.key.encode]?) :
    held m a = held l a := by
  rw [held, held, balance, balance, balance?, balance?, h]

def registered (l : Table Bytes) (address : String) : Bool := l[(Key.wallet address).encode]?.isSome

/-- Every value is one that a change has left under its key. -/
def Coherent (l : Table Bytes) : Prop :=
  ∀ k b, l[k]? = some b → ∃ c : Change, c.Plain ∧ c.key.encode = k ∧ c.document = some b

theorem coherent_empty : Coherent ∅ := by
  intro k b h
  simp at h

theorem Coherent.change {l : Table Bytes} (h : Coherent l) {c : Change} (hc : c.Plain) :
    Coherent (apply l c) := by
  intro k b hb
  rw [getElem?_apply] at hb
  split at hb
  · rename_i hk
    exact ⟨c, hc, hk, hb⟩
  · exact h k b hb

theorem Coherent.changes {l : Table Bytes} (h : Coherent l) {cs : List Change} (hc : ∀ c ∈ cs, c.Plain) :
    Coherent (applyAll l cs) := by
  induction cs generalizing l with
  | nil => exact h
  | cons c cs ih => exact ih (h.change (hc c (by simp))) fun d hd => hc d (by simp [hd])

section Coherent

variable {l : Table Bytes} (h : Coherent l)

include h

/-- What is stored under the key of a token is this token. -/
theorem Coherent.token_cases {symbol : String} {b : Bytes} (hb : l[(Key.token symbol).encode]? = some b) :
    ∃ t : Token, t.symbol = symbol ∧ b = Token.codec.write t := by
  obtain ⟨c, -, hk, hd⟩ := h _ _ hb
  have hk := Key.encode_injective hk
  cases c with
  | token t =>
    have hs : [t.symbol] = [symbol] := congrArg Key.components hk
    exact ⟨t, by simpa using hs, (Option.some.inj hd).symm⟩
  | unlist s => cases hd
  | wallet a => cases congrArg Key.ns hk
  | balance b => cases congrArg Key.ns hk
  | scores a s => cases congrArg Key.ns hk

/-- What is stored under a key of the balances is the balance of this account. -/
theorem Coherent.balances_cases {k : Key} (hns : k.ns = .balances) {b : Bytes}
    (hb : l[k.encode]? = some b) :
    ∃ r : Balance, r.Plain ∧ k = r.account.key ∧ b = Balance.codec.write r := by
  obtain ⟨c, hp, hk, hd⟩ := h _ _ hb
  have hk := Key.encode_injective hk
  subst hk
  cases c with
  | balance r => exact ⟨r, hp, rfl, (Option.some.inj hd).symm⟩
  | token t => cases hns
  | unlist s => cases hns
  | wallet a => cases hns
  | scores a s => cases hns

theorem Coherent.balance_cases {a : Account} {b : Bytes} (hb : l[a.key.encode]? = some b) :
    ∃ r : Balance, r.Plain ∧ r.account = a ∧ b = Balance.codec.write r := by
  obtain ⟨r, hp, hk, hd⟩ := h.balances_cases (k := a.key) rfl hb
  exact ⟨r, hp, (Account.key_injective hk).symm, hd⟩

theorem Coherent.token?_symbol {symbol : String} {t : Token} (ht : token? l symbol = some t) :
    t.symbol = symbol := by
  obtain ⟨b, hb, hd⟩ := Option.bind_eq_some_iff.mp ht
  obtain ⟨u, hu, rfl⟩ := h.token_cases hb
  rw [Token.decode_write] at hd
  exact (Option.some.inj hd) ▸ hu

/-- What stands under the key of a token is the listed token. -/
theorem Coherent.listed {symbol : String} {document : Bytes}
    (hd : l[(Key.token symbol).encode]? = some document) :
    ∃ t, Token.codec.decode document = .ok t ∧ token? l symbol = some t := by
  obtain ⟨t, -, rfl⟩ := h.token_cases hd
  refine ⟨t, Token.decode_write t, ?_⟩
  rw [token?, hd]
  simp [Except.toOption]

theorem Coherent.token?_eq_none_iff {symbol : String} :
    token? l symbol = none ↔ l[(Key.token symbol).encode]? = none := by
  constructor
  · intro hnone
    by_contra hne
    obtain ⟨b, hb⟩ := Option.ne_none_iff_exists'.mp hne
    obtain ⟨t, -, ht⟩ := h.listed hb
    rw [hnone] at ht
    cases ht
  · intro hnone
    rw [token?, hnone]
    rfl

theorem Coherent.balance?_plain {a : Account} {r : Balance} (hr : balance? l a = some r) :
    r.Plain ∧ r.account = a := by
  obtain ⟨b, hb, hd⟩ := Option.bind_eq_some_iff.mp hr
  obtain ⟨q, hq, ha, rfl⟩ := h.balance_cases hb
  rw [Balance.decode_write hq] at hd
  exact (Option.some.inj hd) ▸ ⟨hq, ha⟩

theorem Coherent.balance_plain (a : Account) : (balance l a).Plain ∧ (balance l a).account = a := by
  unfold balance
  cases hb : balance? l a with
  | some r => exact h.balance?_plain hb
  | none => exact ⟨Balance.plain_zero a, Balance.account_zero a⟩

end Coherent

section Apply

variable (l : Table Bytes) (c : Change)

theorem getElem?_apply_of_ne {k : Key} (h : c.key ≠ k) : (apply l c)[k.encode]? = l[k.encode]? := by
  rw [getElem?_apply, if_neg fun he => h (Key.encode_injective he)]

theorem token?_apply_of_ne {symbol : String} (h : c.key ≠ .token symbol) :
    token? (apply l c) symbol = token? l symbol := by
  rw [token?, token?, getElem?_apply_of_ne l c h]

theorem balance?_apply_of_ne {a : Account} (h : c.key ≠ a.key) : balance? (apply l c) a = balance? l a := by
  rw [balance?, balance?, getElem?_apply_of_ne l c h]

theorem registered_apply_of_ne {address : String} (h : c.key ≠ .wallet address) :
    registered (apply l c) address = registered l address := by
  rw [registered, registered, getElem?_apply_of_ne l c h]

theorem getElem?_apply_self : (apply l c)[c.key.encode]? = c.document := by
  rw [getElem?_apply, if_pos rfl]

theorem token?_apply_token (t : Token) (symbol : String) :
    token? (apply l (.token t)) symbol = if t.symbol = symbol then some t else token? l symbol := by
  by_cases hs : t.symbol = symbol
  · have hk := getElem?_apply_self l (.token t)
    subst hs
    rw [if_pos rfl, token?, show Key.token t.symbol = (Change.token t).key from rfl, hk]
    simp [Change.document, Except.toOption]
  · rw [if_neg hs, token?_apply_of_ne]
    intro he
    have hc : [t.symbol] = [symbol] := congrArg Key.components he
    exact hs (List.singleton_inj.mp hc)

theorem token?_apply_unlist (s symbol : String) :
    token? (apply l (.unlist s)) symbol = if s = symbol then none else token? l symbol := by
  by_cases hs : s = symbol
  · have hk := getElem?_apply_self l (.unlist s)
    subst hs
    rw [if_pos rfl, token?, show Key.token s = (Change.unlist s).key from rfl, hk]
    rfl
  · rw [if_neg hs, token?_apply_of_ne]
    intro he
    have hc : [s] = [symbol] := congrArg Key.components he
    exact hs (List.singleton_inj.mp hc)

theorem balance?_apply_balance {b : Balance} (hb : b.Plain) (a : Account) :
    balance? (apply l (.balance b)) a = if b.account = a then some b else balance? l a := by
  by_cases ha : b.account = a
  · have hk := getElem?_apply_self l (.balance b)
    subst ha
    rw [if_pos rfl, balance?, show b.account.key = (Change.balance b).key from rfl, hk]
    simp [Change.document, Balance.decode_write hb, Except.toOption]
  · rw [if_neg ha, balance?_apply_of_ne]
    exact fun he => ha (Account.key_injective he)

theorem balance_apply_balance {b : Balance} (hb : b.Plain) (a : Account) :
    balance (apply l (.balance b)) a = if b.account = a then b else balance l a := by
  rw [balance, balance?_apply_balance l hb, balance]
  split <;> rfl

theorem held_apply_balance {b : Balance} (hb : b.Plain) (a : Account) :
    held (apply l (.balance b)) a = if b.account = a then b.amount.units else held l a := by
  rw [held, balance_apply_balance l hb, held]
  split <;> rfl

theorem held_apply_of_ne {a : Account} (h : c.key ≠ a.key) : held (apply l c) a = held l a :=
  held_congr (getElem?_apply_of_ne l c h)

end Apply

section Eval

variable {l : Table Bytes}

@[simp] theorem eval_addressExists (address : String) :
    (Query.addressExists address).eval l = .ok (registered l address) := rfl

@[simp] theorem eval_requireAddress (address : String) : (Query.requireAddress address).eval l =
    if registered l address then .ok () else .error (.addressUnknown address) := by
  rw [Query.requireAddress, Query.eval_bind, eval_addressExists]
  cases registered l address <;> rfl

theorem Coherent.eval_token? (h : Coherent l) (symbol : String) :
    (Query.token? symbol).eval l = .ok (token? l symbol) := by
  rw [Query.token?, Query.record?, Query.eval_bind, Query.eval_get, token?]
  cases hb : l[(Key.token symbol).encode]? with
  | none => rfl
  | some b =>
    obtain ⟨t, -, rfl⟩ := h.token_cases hb
    simp [Query.decoded, Except.bind, Except.toOption]

theorem Coherent.eval_token (h : Coherent l) (symbol : String) : (Query.token symbol).eval l =
    match token? l symbol with
    | some t => .ok t
    | none => .error (.tokenUnknown symbol) := by
  rw [Query.token, Query.eval_bind, h.eval_token?]
  cases token? l symbol <;> rfl

theorem Coherent.eval_balance (h : Coherent l) (a : Account) (check : Bool) :
    (Query.balance a check).eval l =
      if check && !registered l a.address then .error (.addressUnknown a.address)
      else .ok (balance l a) := by
  have hr : (Query.record? Balance.codec a.key).eval l = .ok (balance? l a) := by
    rw [Query.record?, Query.eval_bind, Query.eval_get, balance?]
    cases hb : l[a.key.encode]? with
    | none => rfl
    | some b =>
      obtain ⟨r, hp, -, rfl⟩ := h.balance_cases hb
      simp [Query.decoded, Except.bind, Except.toOption, Balance.decode_write hp]
  cases check with
  | false => simp [Query.balance, hr, balance, Except.map]
  | true =>
    cases hreg : registered l a.address <;>
      simp [Query.balance, hreg, Except.bind, Except.map, hr, balance]

end Eval
end Live
end TokenLedger
