import TokenLedger.Proofs.Coherence
import TokenLedger.Proofs.Matching
import TokenLedger.Proofs.Removal

/-! Tokens side by side. Whatever else is on the ledger, an operation on one token answers the same and leaves
the same of this token, and it touches no record of another one. The balances of all tokens are under one
prefix, and some operations go through them all, but the keys of two tokens never have the same text. -/

namespace TokenLedger

/-- The operations on single tokens, and on what is held of them. -/
def Operation.onTokens : Operation → Bool
  | .registerToken | .removeToken | .updateTokenInfo | .getToken | .initialiseBalance | .balanceOf | .transfer
  | .multitransfer | .mint | .burn | .getBalancesOfTokenHolders | .getTokenHolderList => true
  | _ => false

theorem Change.key_of_symbol {ch : Change} {symbol : String} (h : ch.symbol? = some symbol) :
    ch.key = .token symbol ∨ ∃ address, ch.key = Account.key ⟨address, symbol⟩ := by
  cases ch with
  | token t => exact .inl (congrArg Key.token (Option.some.inj h))
  | unlist s => exact .inl (congrArg Key.token (Option.some.inj h))
  | balance b => exact .inr ⟨b.address, by rw [← Option.some.inj h]; rfl⟩
  | wallet | scores => cases h

namespace Live

/-- Live values with the same wallets and the same records about one token. -/
structure AgreeOn (symbol : String) (l m : Table Bytes) : Prop where
  wallets : ∀ address, m[(Key.wallet address).encode]? = l[(Key.wallet address).encode]?
  token : m[(Key.token symbol).encode]? = l[(Key.token symbol).encode]?
  balances : ∀ address, m[(Account.key ⟨address, symbol⟩).encode]? = l[(Account.key ⟨address, symbol⟩).encode]?

section AgreeOn

variable {symbol : String} {l m : Table Bytes} (h : AgreeOn symbol l m)

include h

theorem AgreeOn.after {α : Type} {q : Query (Effect α)} (hq : q.eval m = q.eval l) :
    AgreeOn symbol (after q l) (after q m) where
  wallets address := related_after hq (R := fun v w => w = v) (fun _ => rfl) (h.wallets address)
  token := related_after hq (R := fun v w => w = v) (fun _ => rfl) h.token
  balances address := related_after hq (R := fun v w => w = v) (fun _ => rfl) (h.balances address)

theorem AgreeOn.balance? {a : Account} (ha : a.token = symbol) : balance? m a = balance? l a := by
  subst ha
  rw [Live.balance?, Live.balance?, h.balances a.address]

variable (hl : Coherent l) (hm : Coherent m)

include hl hm

theorem AgreeOn.matching : Matching (· = symbol) l m where
  left := hl
  right := hm
  registered address := by rw [registered, registered, h.wallets]
  token? s hs := by rw [hs, token?, token?, h.token]
  balance a ha := by rw [balance, balance, h.balance? ha]

theorem AgreeOn.eval_balancesOfToken :
    (Query.balancesOfToken symbol).eval m = (Query.balancesOfToken symbol).eval l := by
  rw [hm.eval_balancesOfToken, hl.eval_balancesOfToken, foundList, foundList, found_congr hl hm]
  intro a
  by_cases ha : a.token = symbol
  · rw [h.balance? ha]
  · have hnone {n : Table Bytes} (hn : Coherent n) : (Live.balance? n a).filter (·.token == symbol) = none := by
      rw [Option.filter_eq_none_iff]
      intro r hr
      obtain ⟨-, rfl⟩ := hn.balance?_plain hr
      simpa [Balance.account] using ha
    rw [hnone hl, hnone hm]

/-- An operation on a token answers and changes the same, whatever there is about others. -/
theorem AgreeOn.eval_operate {c : Contract} {op : Operation} {args : List String} (hop : op.onTokens)
    (hs : ∀ s ∈ op.symbols args, s = symbol) : (c.operate op args).plan.eval m = (c.operate op args).plan.eval l := by
  cases henumerates : op.enumerates with
  | false =>
    refine (h.matching hl hm).eval_operate hs henumerates ?_
    rintro rfl
    cases hop
  | true =>
    refine eval_operate_congr fun i hi => ?_
    cases hi with
    | ask hq =>
      rw [Instruction.plan_ask, Query.eval_map, Query.eval_map]
      congr 1
      cases hq with
      | balancesOfToken s =>
        obtain rfl := hs s (by simp [Operation.symbols])
        rw [Question.answer, Query.encode_bind, Query.eval_map, Query.eval_map, h.eval_balancesOfToken hl hm]
      | holders s =>
        obtain rfl := hs s (by simp [Operation.symbols])
        rw [Question.answer, Query.encode_bind, Query.eval_map, Query.eval_map]
        exact congrArg _ (Query.eval_bind_congr (h.eval_balancesOfToken hl hm) fun _ _ => rfl)
      | token | addressExists | balanceOf | scores => cases henumerates
      | tokensOfType | symbolsOfType | wallet | balancesOfAddress => cases hop
    | order ho => cases ho <;> cases henumerates
    | file hf => cases hf <;> cases henumerates

end AgreeOn

theorem AgreeOn.of_changes {symbol : String} (l : Table Bytes) {cs : List Change}
    (hcs : ∀ ch ∈ cs, ch.symbol? ≠ some symbol ∧ ch.key.ns ≠ .wallets) :
    AgreeOn symbol l (applyAll l cs) where
  wallets _ := getElem?_applyAll_of_forall fun ch hch he =>
    (hcs ch hch).2 (congrArg Key.ns (Key.encode_injective he))
  token := getElem?_applyAll_of_forall fun ch hch he =>
    Change.key_ne_token (hcs ch hch).1 (Key.encode_injective he)
  balances address := getElem?_applyAll_of_forall fun ch hch he =>
    Change.key_ne_account (a := ⟨address, symbol⟩) (hcs ch hch).1 (Key.encode_injective he)

structure Foreign (symbol k : String) : Prop where
  token : k ≠ (Key.token symbol).encode
  balances : ∀ address, k ≠ (Account.key ⟨address, symbol⟩).encode

section Confined

variable {symbol k : String} {l : Table Bytes} (hk : Foreign symbol k) (h : Coherent l)

include hk

theorem Foreign.getElem?_apply {ch : Change} (hch : ch.symbol? = some symbol) : (apply l ch)[k]? = l[k]? := by
  rw [Live.getElem?_apply, if_neg]
  intro he
  rcases ch.key_of_symbol hch with hkey | ⟨address, hkey⟩
  · exact hk.token (by rw [← he, hkey])
  · exact hk.balances address (by rw [← he, hkey])

theorem Foreign.getElem?_applyAll {cs : List Change} (hcs : ∀ ch ∈ cs, ch.symbol? = some symbol) :
    (applyAll l cs)[k]? = l[k]? := by
  induction cs generalizing l with
  | nil => rfl
  | cons ch cs ih =>
    rw [applyAll_cons, ih fun ch hch => hcs ch (by simp [hch]), hk.getElem?_apply (hcs ch (by simp))]

include h

theorem Foreign.getElem?_settle {t : Transfer} (ht : t.token = symbol) {s r : Balance}
    (hmove : move l t = .ok (s, r)) : (settle l (s, r))[k]? = l[k]? := by
  obtain ⟨-, hs, -, hr⟩ := h.move_plain hmove
  rw [settle, hk.getElem?_apply, hk.getElem?_apply]
  · exact congrArg some ((congrArg Account.token hs).trans ht)
  · exact congrArg some ((congrArg Account.token hr).trans ht)

theorem Foreign.carried {c : Contract} {op : Operation} {args : List String} {cs : List Change}
    (hc : Carried c l op args cs) (hop : op.onTokens) (hs : ∀ s ∈ op.symbols args, s = symbol) :
    (applyAll l cs)[k]? = l[k]? := by
  have hsupplied {a : Account} {t : Token} {x y : Amount} (ha : a.token = symbol)
      (ht : token? l a.token = some t) : (applyAll l [.balance { balance l a with amount := x },
        .token { t with supply := y }])[k]? = l[k]? := by
    have hb : (balance l a).token = a.token := congrArg Account.token (h.balance_plain a).2
    exact hk.getElem?_applyAll (by simp [Change.symbol?, hb, h.token?_symbol ht, ha])
  cases hc with
  | nothing => rfl
  | register read =>
    have ht := hs _ (mem_symbolsIn (by simp) read)
    exact hk.getElem?_applyAll (by simp [Change.symbol?, Balance.zero, ht])
  | @remove s =>
    obtain rfl := hs s (by simp [Operation.symbols])
    exact hk.getElem?_applyAll (by simp [Change.symbol?])
  | update read =>
    have ht := hs _ (mem_symbolsIn (by simp) read)
    exact hk.getElem?_applyAll (by simp [Change.symbol?, ht])
  | wallet | firstScores | newScores => cases hop
  | initialise address s =>
    obtain rfl := hs s (by simp [Operation.symbols])
    have hb : (balance l ⟨address, s⟩).token = s := congrArg Account.token (h.balance_plain ⟨address, s⟩).2
    exact hk.getElem?_applyAll (by simp [Change.symbol?, hb])
  | transfer read signed effective moved =>
    have hover := h.overlay_pair moved
    rw [overlay] at hover
    rw [hover]
    exact hk.getElem?_settle h (hs _ (mem_symbolsIn (by simp) read)) moved
  | @multitransfer requests ts m read moved =>
    refine (h.transferAll_induction (P := fun n => n[k]? = l[k]?) ?_ fits_empty (by rw [overlay_empty]) moved).2
    intro m t s r ht _ hfits hmove hP
    obtain ⟨text, hmem, hread⟩ := exists_of_mapM_eq_ok read ht
    have htoken : (waive m t).token = symbol := hs t.token (mem_symbolsIn hmem hread)
    rw [hk.getElem?_settle (hfits.coherent_overlay h) htoken hmove, hP]
  | @mint _ r t x y read listed =>
    exact hsupplied (a := ⟨r.receiver, r.token⟩) (hs _ (mem_symbolsIn (by simp) read)) listed
  | @burn _ r t x y read listed =>
    exact hsupplied (a := ⟨r.sender, r.token⟩) (hs _ (mem_symbolsIn (by simp) read)) listed

theorem Foreign.after {c : Contract} {op : Operation} {args : List String} (hop : op.onTokens)
    (hs : ∀ s ∈ op.symbols args, s = symbol) (role : Option Role) :
    (after (c.request role op.name args).plan l)[k]? = l[k]? := by
  rw [Live.after]
  cases he : (c.request role op.name args).plan.eval l with
  | error f => rfl
  | ok e =>
    obtain ⟨o, ho, -, hc⟩ := h.carried_request he
    exact hk.carried h (Operation.eq_of_parse ho ▸ hc) hop hs

end Confined
end Live

open Live

/-- Tokens do not interfere. On two stores that sessions have come to and that have the same wallets and the
same records about one token, an operation on this token has the same outcome: it answers or fails the same,
the stores after it have the same records about the token again, and no record of another one is changed on
either. -/
theorem tokens_separate {c : Contract} {x y : Session} (hx : c.Reaches x) (hy : c.Reaches y) {symbol : String}
    (h : AgreeOn symbol x.store.live y.store.live) {op : Operation} (hop : op.onTokens) {args : List String}
    (hs : ∀ s ∈ op.symbols args, s = symbol) (role : Option Role) :
    (c.execute y.store role op.name args).1 = (c.execute x.store role op.name args).1 ∧
      AgreeOn symbol (c.execute x.store role op.name args).2.live (c.execute y.store role op.name args).2.live ∧
      ∀ k, Foreign symbol k → (c.execute x.store role op.name args).2.value? k = x.store.value? k ∧
        (c.execute y.store role op.name args).2.value? k = y.store.value? k := by
  have hl := hx.coherent.store
  have hm := hy.coherent.store
  have hrequest : (c.request role op.name args).plan.eval y.store.live = (c.request role op.name args).plan.eval x.store.live :=
    eval_request_congr (fun o ho => by rw [Operation.eq_of_parse ho, h.eval_operate hl hm hop hs]) role
  obtain ⟨hx₁, hx₂⟩ := c.execute_eq x.store role op.name args
  obtain ⟨hy₁, hy₂⟩ := c.execute_eq y.store role op.name args
  refine ⟨by rw [hx₁, hy₁, hrequest], ?_, fun k hk => ⟨?_, ?_⟩⟩
  · rw [hx₂, hy₂]
    exact h.after hrequest
  · rw [← Store.getElem?_live, hx₂, hk.after hl hop hs, Store.getElem?_live]
  · rw [← Store.getElem?_live, hy₂, hk.after hm hop hs, Store.getElem?_live]

def marked : List Step :=
  [.run none (.invoke (some .admin) "registerToken"
    ["\x7b\"TokenType\":\"CRYPTO\",\"Symbol\":\"A/%2F\",\"Supply\":5\x7d", "u/"]),
   .run none (.invoke none "registerAddress" ["u/"])]

def remarked : List Step :=
  marked ++ [.run none (.invoke (some .admin) "registerToken"
    ["\x7b\"TokenType\":\"CRYPTO\",\"Symbol\":\"%2F\",\"Supply\":7\x7d", "u//A"])]

theorem tokens_separate_marked :
    let x := (Session.run .signing .empty marked).2.store
    let y := (Session.run .signing .empty remarked).2.store
    let args := ["\x7b\"Token\":\"A/%2F\",\"From\":\"u/\",\"Amount\":1\x7d"]
    (Contract.signing.execute y none "burn" args).1 = (Contract.signing.execute x none "burn" args).1 ∧
      (Contract.signing.execute y none "burn" args).2.value? (Account.key ⟨"u//A", "%2F"⟩).encode =
        y.value? (Account.key ⟨"u//A", "%2F"⟩).encode := by
  intro x y args
  have hlive : y.live = applyAll x.live [.token ⟨"", .crypto, "%2F", ⟨700000000, by decide⟩, 0⟩,
      .balance ⟨"u//A", "%2F", ⟨700000000, by decide⟩, .zero false, 0⟩] := by
    decide +kernel
  have hagree : AgreeOn "A/%2F" x.live y.live := by
    rw [hlive]
    exact .of_changes x.live (by decide)
  have h := @tokens_separate .signing _ _ ⟨marked, .of_interleaves _ (by decide), rfl⟩
    ⟨remarked, .of_interleaves _ (by decide), rfl⟩ _ hagree .burn rfl args (by decide +kernel) none
  refine ⟨h.1, (h.2.2 _ ⟨?_, fun address => ?_⟩).2⟩
  · simp [Account.key, Key.token]
  · simp [Account.key]

end TokenLedger
