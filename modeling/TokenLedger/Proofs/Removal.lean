import TokenLedger.Proofs.Invariant

/-! Tokens that were removed. The balances of such a token stay where they are, and as long as one of them
is not zero the symbol cannot be listed again: nothing is ever done with it any more. Once all of them are
zero it can be listed as if it were new. -/

namespace TokenLedger

def Change.symbol? : Change → Option String
  | .token t => some t.symbol
  | .unlist s => some s
  | .balance b => some b.token
  | .wallet _ | .scores _ _ => none

theorem Change.key_ne_token {ch : Change} {symbol : String} (h : ch.symbol? ≠ some symbol) :
    ch.key ≠ .token symbol := by
  intro he
  cases ch with
  | token t => exact h (congrArg some (List.singleton_inj.mp (congrArg Key.components he)))
  | unlist s => exact h (congrArg some (List.singleton_inj.mp (congrArg Key.components he)))
  | wallet | balance | scores => cases congrArg Key.ns he

theorem Change.key_ne_account {ch : Change} {a : Account} (h : ch.symbol? ≠ some a.token) : ch.key ≠ a.key := by
  intro he
  cases ch with
  | balance b =>
    have ha : b.account = a := Account.key_injective he
    exact h (ha ▸ rfl)
  | wallet | token | unlist | scores => cases congrArg Key.ns he

namespace Live

theorem Coherent.nonzeroList_eq_nil {l : Table Bytes} (h : Coherent l) {symbol : String}
    (h0 : ∀ a : Account, a.token = symbol → held l a = 0) : nonzeroList l symbol = [] := by
  rw [nonzeroList, List.map_eq_nil_iff, List.eq_nil_iff_forall_not_mem]
  rintro ⟨k, r⟩ hr
  have hr := Std.ExtTreeMap.mem_toList_iff_getElem?_eq_some.mp hr
  have hk : ∃ a : Account, k = a.key.encode := by
    rw [nonzero, Std.ExtTreeMap.getElem?_filterMap', Option.bind_eq_some_iff] at hr
    obtain ⟨b, hb, -⟩ := hr
    obtain ⟨r, -, hk, -⟩ := h.under_cases hb
    exact ⟨r.account, hk⟩
  obtain ⟨a, rfl⟩ := hk
  rw [h.getElem?_nonzero] at hr
  split_ifs at hr with ha
  exact ha.2 (h0 a ha.1)

section Carried

variable {c : Contract} {l : Table Bytes} {op : Operation} {args : List String} {cs : List Change}
  {symbol : String}

theorem Carried.unlisted (h : Coherent l) (hc : Carried c l op args cs) (hnone : token? l symbol = none) :
    (∀ a : Account, a.token = symbol → held l a = 0) ∨
      token? (applyAll l cs) symbol = none ∧
        ∀ a : Account, a.token = symbol → held (applyAll l cs) a = held l a := by
  have hne {s : String} {t : Token} (ht : token? l s = some t) : s ≠ symbol := by
    rintro rfl
    rw [hnone] at ht
    cases ht
  have hother (hs : ∀ ch ∈ cs, ch.symbol? ≠ some symbol) : token? (applyAll l cs) symbol = none ∧
      ∀ a : Account, a.token = symbol → held (applyAll l cs) a = held l a := by
    refine ⟨?_, fun a ha => ?_⟩
    · rw [token?_applyAll fun ch hch => Change.key_ne_token (hs ch hch), hnone]
    · exact held_applyAll_of_forall fun ch hch => Change.key_ne_account (ha ▸ hs ch hch)
  have hsupplied {a : Account} {t : Token} {x y : Amount} (ht : token? l a.token = some t) :
      ∀ ch ∈ [Change.balance { balance l a with amount := x }, .token { t with supply := y }],
        ch.symbol? ≠ some symbol := by
    have hb : (balance l a).token = a.token := congrArg Account.token (h.balance_plain a).2
    simp [Change.symbol?, hb, h.token?_symbol ht, hne ht]
  cases hc with
  | nothing => exact .inr ⟨hnone, fun _ _ => rfl⟩
  | @register text holder t read unlisted unheld =>
    by_cases hs : t.symbol = symbol
    · exact .inl (hs ▸ unheld)
    · exact .inr (hother (by simp [Change.symbol?, Balance.zero, hs]))
  | remove listed => exact .inr (hother (by simp [Change.symbol?, hne listed]))
  | update read listed => exact .inr (hother (by simp [Change.symbol?, hne listed]))
  | wallet | firstScores | newScores => exact .inr (hother (by simp [Change.symbol?]))
  | initialise address token =>
    refine .inr ⟨(token?_apply_balance _ symbol).trans hnone, fun a _ => ?_⟩
    obtain ⟨hp, hb⟩ := h.balance_plain ⟨address, token⟩
    rw [applyAll_cons, applyAll_nil, held_apply_balance l hp, hb]
    split
    · rename_i ha
      rw [← ha, held]
    · rfl
  | transfer read signed effective moved =>
    obtain ⟨hs, -, hr, -⟩ := h.move_plain moved
    obtain ⟨u, hu, -⟩ := h.move_admitted moved
    refine .inr ⟨(((fits_empty.put hs).put hr).token?_overlay symbol).trans hnone, fun a ha => ?_⟩
    have hover := h.overlay_pair moved
    rw [overlay] at hover
    rw [hover, h.held_settle_of_ne moved (ha ▸ (hne hu).symm)]
  | @multitransfer requests ts m read moved =>
    refine .inr ⟨((h.transferAll_fits fits_empty moved).token?_overlay symbol).trans hnone, fun a ha => ?_⟩
    refine (h.transferAll_induction (P := fun n => held n a = held l a) ?_ fits_empty (by rw [overlay_empty]) moved).2
    intro m t s r _ _ hfits hmove hP
    have hcoherent := hfits.coherent_overlay h
    obtain ⟨u, hu, -⟩ := hcoherent.move_admitted hmove
    rw [hfits.token?_overlay] at hu
    rw [hcoherent.held_settle_of_ne hmove (ha ▸ (hne hu).symm), hP]
  | @mint request r t x y read listed => exact .inr (hother (hsupplied (a := ⟨r.receiver, r.token⟩) listed))
  | @burn request r t x y read listed => exact .inr (hother (hsupplied (a := ⟨r.sender, r.token⟩) listed))

end Carried

/-- A symbol is not listed, and this is what everybody holds of it. -/
structure Frozen (symbol : String) (holdings : Account → Nat) (l : Table Bytes) : Prop where
  unlisted : token? l symbol = none
  held : ∀ a : Account, a.token = symbol → Live.held l a = holdings a

theorem preserved_frozen (c : Contract) {holdings : Account → Nat} {a : Account} (ha : holdings a ≠ 0) :
    Preserved c (Frozen a.token holdings) := by
  intro l op args cs h hl hc
  rcases hc.unlisted h hl.unlisted with hzero | ⟨hnone, hheld⟩
  · rw [← hl.held a rfl, hzero a rfl] at ha
    exact absurd rfl ha
  · exact ⟨hnone, fun b hb => by rw [hheld b hb, hl.held b hb]⟩

theorem Coherent.eval_relist {l : Table Bytes} (h : Coherent l) {t : Token} (holder : String)
    (hnone : token? l t.symbol = none) (h0 : ∀ a : Account, a.token = t.symbol → held l a = 0)
    (hadmits : t.type.admits t.supply) : ∃ e, (registerToken t holder).plan.eval l = .ok e ∧
      e.changes = [.token t, .balance { Balance.zero ⟨holder, t.symbol⟩ with amount := t.supply }] := by
  rw [h.eval_registerToken, hnone, h.nonzeroList_eq_nil h0, Token.requireIntegralSupply, if_pos hadmits]
  exact ⟨_, rfl, rfl⟩

theorem listed_applyAll (l : Table Bytes) (t : Token) (holder : String) :
    token? (applyAll l [.token t, .balance { Balance.zero ⟨holder, t.symbol⟩ with amount := t.supply }])
        t.symbol = some t ∧
      ∀ a : Account, held (applyAll l
          [.token t, .balance { Balance.zero ⟨holder, t.symbol⟩ with amount := t.supply }]) a =
        if a = ⟨holder, t.symbol⟩ then t.supply.units else held l a := by
  rw [applyAll_cons, applyAll_cons, applyAll_nil]
  refine ⟨?_, fun a => ?_⟩
  · rw [token?_apply_balance, token?_apply_token, if_pos rfl]
  · have hplain := (Balance.plain_zero ⟨holder, t.symbol⟩).with_amount t.supply
    have htoken : (Change.token t).key ≠ a.key := fun he => by cases congrArg Key.ns he
    rw [held_apply_balance _ hplain, held_apply_of_ne _ _ htoken]
    exact if_congr eq_comm rfl rfl

end Live

open Live

/-- A token that is not listed and that somebody holds stays as it is, whatever is done. A token that is not
listed and that nobody holds can be listed by an administrator, and all of it is then with one address. -/
theorem unlisted_outcome {c : Contract} {as : List Step} (h : Contractual c as)
    (hn : (Journal.run c .empty .empty as).committed.length < UInt64.size) {symbol : String}
    (hnone : (Session.run c .empty as).2.store.value? (Key.token symbol).encode = none) :
    ((∃ a : Account, a.token = symbol ∧ held (Session.run c .empty as).2.store.live a ≠ 0) →
      ∀ bs : List Step, (∀ b ∈ bs, b.interleaves ∨ b = .reload) →
        (Journal.run c .empty .empty (as ++ bs)).committed.length < UInt64.size →
        (Session.run c .empty (as ++ bs)).2.store.value? (Key.token symbol).encode = none ∧
          ∀ a : Account, a.token = symbol → held (Session.run c .empty (as ++ bs)).2.store.live a =
            held (Session.run c .empty as).2.store.live a) ∧
    ((∀ a : Account, a.token = symbol → held (Session.run c .empty as).2.store.live a = 0) →
      ∀ (text holder : String) (t : Token), Argument.token.read Token.codec text = .ok t → t.symbol = symbol →
        t.type.admits t.supply →
        ∃ b s', c.execute (Session.run c .empty as).2.store (some .admin) "registerToken" [text, holder] =
            (.ok b, s') ∧ token? s'.live symbol = some t ∧
          ∀ a : Account, a.token = symbol →
            held s'.live a = if a = ⟨holder, symbol⟩ then t.supply.units else 0) := by
  have hcoherent := (h.followed hn).sound.coherent
  rw [← Store.getElem?_live, ← hcoherent.token?_eq_none_iff] at hnone
  constructor
  · rintro ⟨a, rfl, ha⟩ bs hbs hn'
    have hfrozen := (preserved_frozen c ha).continue_run h hbs hn' ⟨hnone, fun _ _ => rfl⟩
    refine ⟨?_, hfrozen.held⟩
    rw [← Store.getElem?_live, ← Coherent.token?_eq_none_iff]
    · exact hfrozen.unlisted
    · exact ((h.append hbs).followed hn').sound.coherent
  · rintro h0 text holder t hread rfl hadmits
    obtain ⟨e, he, hchanges⟩ := hcoherent.eval_relist holder hnone h0 hadmits
    have hrequest : (c.request (some .admin) "registerToken" [text, holder]).plan.eval
        (Session.run c .empty as).2.store.live = .ok (e.map (·.write)) := by
      refine request_eq_ok.mpr ⟨.registerToken, rfl, rfl, ?_⟩
      rw [Instruction.Spelled.plan_operate (.order (.registerToken hread holder)), Instruction.plan_order, Query.eval_map]
      exact congrArg (Except.map _) he
    obtain ⟨s', hs', hlive⟩ := Contract.execute_eq_ok hrequest
    refine ⟨_, s', hs', ?_⟩
    have hlisted := listed_applyAll (Session.run c .empty as).2.store.live t holder
    rw [hlive, Effect.map, hchanges]
    refine ⟨hlisted.1, fun a ha => ?_⟩
    rw [hlisted.2, h0 a ha]

def removal : List Step :=
  [.begin "t", .run (some "t") (.invoke none "multitransfer"
    ["\x7b\"Token\":\"GLD\",\"From\":\"alice\",\"To\":\"bob\",\"AvoidCheckTo\":true,\"Amount\":1\x7d"]),
   .run none (.invoke (some .admin) "removeToken" ["GLD"])]

/-- The rest of the move, and an attempt to list the token for bob. -/
def relisting : List Step :=
  [.commit "t", .reload, .run none (.invoke (some .admin) "registerToken"
    ["\x7b\"TokenType\":\"CRYPTO\",\"Symbol\":\"GLD\",\"Supply\":7\x7d", "bob"])]

theorem unlisted_outcome_removal :
    ((Session.run .signing .empty (listing ++ removal ++ relisting)).2.store.value? (Key.token "GLD").encode = none ∧
      held (Session.run .signing .empty (listing ++ removal ++ relisting)).2.store.live ⟨"alice", "GLD"⟩ = 500000000 ∧
      held (Session.run .signing .empty (listing ++ removal ++ relisting)).2.store.live ⟨"bob", "GLD"⟩ = 0) ∧
    ∃ b s', Contract.signing.execute (Session.run .signing .empty (listing ++ removal)).2.store (some .admin)
        "registerToken" ["\x7b\"TokenType\":\"CRYPTO\",\"Symbol\":\"SLV\",\"Supply\":7\x7d", "bob"] = (.ok b, s') ∧
      held s'.live ⟨"bob", "SLV"⟩ = 700000000 := by
  have h : Contractual .signing (listing ++ removal) := .of_interleaves .signing (by decide)
  have hn : (Journal.run .signing .empty .empty (listing ++ removal)).committed.length < UInt64.size :=
    lt_of_le_of_lt (Journal.committed_run_le .signing .empty .empty _) (by decide)
  obtain ⟨hgold, hsilver, halice, hbob, hnil⟩ :
      (Session.run .signing .empty (listing ++ removal)).2.store.value? (Key.token "GLD").encode = none ∧
        (Session.run .signing .empty (listing ++ removal)).2.store.value? (Key.token "SLV").encode = none ∧
        held (Session.run .signing .empty (listing ++ removal)).2.store.live ⟨"alice", "GLD"⟩ = 500000000 ∧
        held (Session.run .signing .empty (listing ++ removal)).2.store.live ⟨"bob", "GLD"⟩ = 0 ∧
        nonzeroList (Session.run .signing .empty (listing ++ removal)).2.store.live "SLV" = [] := by
    decide +kernel
  constructor
  · obtain ⟨hnone, hheld⟩ := (unlisted_outcome h hn hgold).1 ⟨⟨"alice", "GLD"⟩, rfl, by rw [halice]; decide⟩
      relisting (by simp [relisting, Step.interleaves, Deed.isInvocation])
      (lt_of_le_of_lt (Journal.committed_run_le .signing .empty .empty _) (by decide))
    exact ⟨hnone, (hheld _ rfl).trans halice, (hheld _ rfl).trans hbob⟩
  · have hcoherent := (h.followed hn).sound.coherent
    obtain ⟨b, s', hs', -, hheld⟩ := (unlisted_outcome h hn hsilver).2
      (fun a ha => hcoherent.held_of_nonzero_nil (ha ▸ hnil))
      "\x7b\"TokenType\":\"CRYPTO\",\"Symbol\":\"SLV\",\"Supply\":7\x7d" "bob"
      ⟨"", .crypto, "SLV", ⟨700000000, by decide⟩, 0⟩ (by decide +kernel) rfl (by decide)
    exact ⟨b, s', hs', (hheld _ rfl).trans (if_pos rfl)⟩

end TokenLedger
