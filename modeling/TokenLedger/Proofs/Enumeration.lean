import TokenLedger.Proofs.Filed

/-! Lists of records. The ledger finds records by their keys, by what their keys begin with and by a member of
their documents. Where every record stands under its own key the three agree: each list has exactly the records
that a look under each key would show, and has them once. -/

namespace TokenLedger

/-- A list of the records that have a property, each of them once and stored under its own key. -/
structure Lists {κ α : Type} (stored : κ → Option α) (key : α → κ) (p : κ → α → Prop) (as : List α) : Prop where
  nodup : (as.map key).Nodup
  mem_iff : ∀ k a, stored k = some a ∧ p k a ↔ a ∈ as ∧ key a = k

namespace Live

def record? {α : Type} (c : Json.Codec α) (l : Table Bytes) (k : Key) : Option α :=
  l[k.encode]?.bind fun b => (c.decode b).toOption

section Records

variable {l : Table Bytes} {α : Type} {c : Json.Codec α} {key : α → Key} {good : α → Prop}

theorem Coherent.scan_records (h : Coherent l) (hread : ∀ a, good a → c.decode (c.write a) = .ok a)
    (ns : Namespace) (hrecord : ∀ (k : Key) b, k.ns = ns → l[k.encode]? = some b → ∃ a, good a ∧ key a = k ∧ c.write a = b)
    (components : List String) :
    ∃ as : List α, (∀ a ∈ as, good a) ∧
      (Query.scan ns components).eval l = .ok (as.map fun a => (key a, c.write a)) ∧ (as.map key).Nodup ∧
      ∀ k : Key, k.ns = ns → ∀ a, record? c l k = some a ∧ (∃ cs, cs ≠ [] ∧ k.components = components ++ cs) ↔
        a ∈ as ∧ key a = k := by
  obtain ⟨hits, hscan, hordered, hmem⟩ := h.keyed.eval_scan ns components
  have hhits : ∀ hit ∈ hits, hit ∈ Set.range fun a : {a // good a} => (key a, c.write a) := by
    rintro ⟨k, b⟩ hm
    obtain ⟨hb, hns, -⟩ := (hmem k b).mp hm
    obtain ⟨a, ha, rfl, rfl⟩ := hrecord k b hns hb
    exact ⟨⟨a, ha⟩, rfl⟩
  obtain ⟨as, rfl⟩ : hits ∈ Set.range (List.map fun a : {a // good a} => (key a, c.write a)) := by
    rw [Set.range_list_map]
    exact hhits
  refine ⟨as.map (↑), ?_, by rw [hscan, List.map_map]; rfl, ?_, fun k hns a => ⟨?_, ?_⟩⟩
  · intro a ha
    obtain ⟨b, -, rfl⟩ := List.mem_map.mp ha
    exact b.2
  · have hnodup := nodup_of_ordered hordered
    rw [List.map_map] at hnodup ⊢
    exact hnodup
  · rintro ⟨hrec, hcs⟩
    obtain ⟨b, hb, hdecode⟩ := Option.bind_eq_some_iff.mp hrec
    obtain ⟨d, hd, he⟩ := List.mem_map.mp ((hmem k b).mpr ⟨hb, hns, hcs⟩)
    simp only [Prod.mk.injEq] at he
    rw [← he.2, hread d d.2] at hdecode
    exact ⟨List.mem_map.mpr ⟨d, hd, Option.some.inj hdecode⟩, Option.some.inj hdecode ▸ he.1⟩
  · rintro ⟨ha, rfl⟩
    obtain ⟨d, hd, rfl⟩ := List.mem_map.mp ha
    obtain ⟨hb, -, hcs⟩ := (hmem (key d) (c.write d)).mp (List.mem_map.mpr ⟨d, hd, rfl⟩)
    refine ⟨?_, hcs⟩
    rw [record?, hb, Option.bind_some, hread d d.2]
    rfl

theorem eval_records (hread : ∀ a, good a → c.decode (c.write a) = .ok a) {as : List α} (has : ∀ a ∈ as, good a) :
    (Query.records c (as.map fun a => (key a, c.write a))).eval l = .ok as := by
  induction as with
  | nil => rfl
  | cons a as ih =>
    have hrest := ih fun b hb => has b (by simp [hb])
    have hfirst : (Query.decoded c (key a) (c.write a)).eval l = .ok a := by
      simp only [Query.decoded, hread a (has a (by simp)), Query.eval_pure]
    rw [Query.records] at hrest
    rw [List.map_cons, Query.records, List.mapM_cons, Query.eval_bind, hfirst, Except.bind, Query.eval_bind, hrest]
    rfl

theorem eval_select_records (sel : Selector) {q : α → Bool} (hq : ∀ a, good a → sel.accepts (c.write a) = q a)
    {as : List α} (has : ∀ a ∈ as, good a)
    (hscan : (Query.scan sel.ns []).eval l = .ok (as.map fun a => (key a, c.write a))) :
    (Query.select sel).eval l = .ok ((as.filter q).map fun a => (key a, c.write a)) := by
  rw [eval_select, hscan, Except.map, List.filter_map]
  congr 2
  exact List.filter_congr fun a ha => hq a (has a ha)

end Records

section Enumerations

variable {l : Table Bytes} (h : Coherent l)

include h

theorem Coherent.scan_balances (components : List String) :
    ∃ bs : List Balance, (∀ b ∈ bs, b.Plain) ∧
      (Query.scan .balances components).eval l = .ok (bs.map fun b => (b.account.key, Balance.codec.write b)) ∧
      Lists (balance? l) Balance.account (fun a _ => ∃ cs, cs ≠ [] ∧ a.key.components = components ++ cs) bs := by
  have hrecord (k : Key) (document : Bytes) (hns : k.ns = .balances) (hd : l[k.encode]? = some document) :
      ∃ b : Balance, b.Plain ∧ b.account.key = k ∧ Balance.codec.write b = document := by
    obtain ⟨b, hb, hk, he⟩ := h.balances_cases hns hd
    exact ⟨b, hb, hk.symm, he.symm⟩
  obtain ⟨bs, hplain, hscan, hnodup, hmem⟩ :=
    h.scan_records (fun _ hb => Balance.decode_write hb) .balances hrecord components
  refine ⟨bs, hplain, hscan, ⟨?_, fun a b => ?_⟩⟩
  · rw [← Function.comp_def Account.key, ← List.map_map] at hnodup
    exact hnodup.of_map
  · exact (hmem a.key rfl b).trans (and_congr_right fun _ => ⟨fun he => Account.key_injective he, fun he => he ▸ rfl⟩)

/-- A balance that is listed is the one that is found under its account. -/
theorem Coherent.eval_balance_of_lists {p : Account → Balance → Prop} {bs : List Balance}
    (hbs : Lists (balance? l) Balance.account p bs) {b : Balance} (hb : b ∈ bs) {check : Bool}
    (hcheck : check → registered l b.address) : (Query.balance b.account check).eval l = .ok b := by
  have hb := ((hbs.mem_iff b.account b).mpr ⟨hb, rfl⟩).1
  rw [h.eval_balance, balance, hb]
  cases check with
  | false => rfl
  | true => simp [Balance.account, hcheck rfl]

theorem Coherent.balance?_eq_none_iff {a : Account} : balance? l a = none ↔ l[a.key.encode]? = none := by
  refine ⟨fun ha => ?_, fun ha => by rw [balance?, ha, Option.bind_none]⟩
  by_contra hne
  obtain ⟨document, hd⟩ := Option.ne_none_iff_exists'.mp hne
  obtain ⟨b, hb, -, rfl⟩ := h.balance_cases hd
  rw [balance?, hd, Option.bind_some, Balance.decode_write hb] at ha
  cases ha

/-- The balances of an address, found by the beginning of their keys. -/
theorem Coherent.balancesOfAddress_lists (address : String) :
    ∃ bs, (Query.balancesOfAddress address).eval l = .ok bs ∧
      Lists (balance? l) Balance.account (fun a _ => a.address = address) bs := by
  obtain ⟨bs, hplain, hscan, hlists⟩ := h.scan_balances [address]
  refine ⟨bs, ?_, ⟨hlists.nodup, fun a b => ?_⟩⟩
  · rw [Query.balancesOfAddress, Query.eval_bind, hscan]
    exact eval_records (fun _ hb => Balance.decode_write hb) hplain
  · have hextends : (∃ cs, cs ≠ [] ∧ a.key.components = [address] ++ cs) ↔ a.address = address := by
      simp [Account.key]
    rw [← hlists.mem_iff, hextends]

theorem Coherent.balancesOfToken_lists (symbol : String) :
    ∃ bs, (Query.balancesOfToken symbol).eval l = .ok bs ∧
      Lists (balance? l) Balance.account (fun a _ => a.token = symbol) bs := by
  obtain ⟨bs, hplain, hscan, hlists⟩ := h.scan_balances []
  have hselect := eval_select_records (.text .balances "Token" symbol)
    (fun b hb => Balance.accepts_token hb .balances symbol) hplain hscan
  refine ⟨bs.filter (·.token == symbol), ?_, ⟨hlists.nodup.sublist (List.filter_sublist.map _), fun a b => ?_⟩⟩
  · rw [Query.balancesOfToken, Query.eval_bind, hselect]
    exact eval_records (fun _ hb => Balance.decode_write hb) fun b hb => hplain b (List.mem_filter.mp hb).1
  · have hmem := hlists.mem_iff a b
    simp only [Account.key, List.nil_append, ne_eq, exists_eq_right', reduceCtorEq, not_false_eq_true, and_true]
      at hmem
    rw [hmem, List.mem_filter, beq_iff_eq]
    constructor
    · rintro ⟨⟨hb, rfl⟩, ha⟩
      exact ⟨⟨hb, ha⟩, rfl⟩
    · rintro ⟨⟨hb, ha⟩, rfl⟩
      exact ⟨⟨hb, rfl⟩, ha⟩

theorem Coherent.tokensOfType_lists (type : TokenType) :
    ∃ ts, (Query.tokensOfType type).eval l = .ok ts ∧
      Lists (token? l) Token.symbol (fun _ t => t.type = type) ts := by
  have hread (t : Token) (_ : True) : Token.codec.decode (Token.codec.write t) = .ok t := Token.decode_write t
  have hrecord (k : Key) (document : Bytes) (hns : k.ns = .tokens) (hd : l[k.encode]? = some document) :
      ∃ t : Token, True ∧ Key.token t.symbol = k ∧ Token.codec.write t = document := by
    obtain ⟨ch, -, hk, hch⟩ := h _ _ hd
    have hk := Key.encode_injective hk
    subst hk
    cases ch with
    | token t => exact ⟨t, trivial, rfl, Option.some.inj hch⟩
    | unlist => cases hch
    | wallet | balance | scores => cases hns
  obtain ⟨ts, hgood, hscan, hnodup, hmem⟩ := h.scan_records hread .tokens hrecord []
  have hselect := eval_select_records (.text .tokens "TokenType" type.name)
    (fun t _ => Token.accepts_type t .tokens type) hgood hscan
  have hsymbols : (ts.map Token.symbol).Nodup := by
    rw [← Function.comp_def Key.token, ← List.map_map] at hnodup
    exact hnodup.of_map
  refine ⟨ts.filter (·.type == type), ?_, ⟨hsymbols.sublist (List.filter_sublist.map _), fun symbol t => ?_⟩⟩
  · rw [Query.tokensOfType, Query.eval_bind, hselect]
    exact eval_records hread fun _ _ => trivial
  · have hmem := hmem (.token symbol) rfl t
    simp only [Key.token, List.nil_append, ne_eq, exists_eq_right', reduceCtorEq, not_false_eq_true, and_true,
      Key.mk.injEq, List.cons.injEq, true_and] at hmem
    rw [show token? l symbol = record? Token.codec l (.token symbol) from rfl, Key.token, hmem, List.mem_filter,
      beq_iff_eq]
    constructor
    · rintro ⟨⟨ht, rfl⟩, htype⟩
      exact ⟨⟨ht, htype⟩, rfl⟩
    · rintro ⟨⟨ht, htype⟩, rfl⟩
      exact ⟨⟨ht, rfl⟩, htype⟩

theorem Coherent.eval_balanceOf {address : String} (haddress : registered l address) (symbol : String) :
    (Query.balanceOf address symbol).eval l = .ok (balance l ⟨address, symbol⟩) := by
  rw [Query.balanceOf, h.eval_balance]
  simp [haddress]

theorem Coherent.eval_wallet {address : String} (haddress : registered l address) {type : TokenType}
    {ts : List Token} (hts : (Query.tokensOfType type).eval l = .ok ts) :
    (Query.wallet address type).eval l =
      .ok ((ts.map Token.symbol).map fun symbol => (symbol, balance l ⟨address, symbol⟩)) := by
  have hsymbols : (Query.symbolsOfType type).eval l = .ok (ts.map Token.symbol) := by
    rw [Query.symbolsOfType, Query.eval_bind, hts]
    rfl
  rw [Query.wallet, Query.eval_bind, hsymbols, Except.bind,
    Query.eval_mapM (g := fun symbol => (symbol, balance l ⟨address, symbol⟩))]
  intro symbol _
  rw [Query.eval_bind, h.eval_balanceOf haddress]
  rfl

end Enumerations
end Live

def Live.purse (l : Table Bytes) (address : String) (symbols : List String) : Table Balance :=
  .ofList (symbols.map fun symbol => (symbol, balance l ⟨address, symbol⟩))

theorem Live.getElem?_purse (l : Table Bytes) (address : String) {symbols : List String} (h : symbols.Nodup)
    (symbol : String) : (purse l address symbols)[symbol]? =
      if symbol ∈ symbols then some (balance l ⟨address, symbol⟩) else none := by
  rw [purse]
  split
  · rename_i hk
    refine Std.ExtTreeMap.getElem?_ofList_of_mem Std.compare_self ?_ (List.mem_map.mpr ⟨symbol, hk, rfl⟩)
    rw [List.pairwise_map]
    exact h.imp fun hne he => hne (Std.compare_eq_iff_eq.mp he)
  · rename_i hk
    refine Std.ExtTreeMap.getElem?_ofList_of_contains_eq_false ?_
    simpa using hk

theorem Live.mem_purse {l : Table Bytes} {address : String} {symbols : List String} (h : symbols.Nodup)
    {symbol : String} : symbol ∈ purse l address symbols ↔ symbol ∈ symbols := by
  rw [Std.ExtTreeMap.mem_iff_isSome_getElem?, getElem?_purse l address h]
  split <;> simp_all

open Live Json

theorem Question.Spelled.execute {op : Operation} {args : List String} {q : Question} (h : Question.Spelled op args q)
    (c : Contract) (s : Store) (role : Option Role) : (c.execute s role op.name args).1 = q.answer.eval s.live := by
  have hparse : Operation.parse op.name = .ok op := by simp [Operation.parse]
  have hpermit : op.permit role = .ok () := by cases h <;> rfl
  rw [(c.execute_eq s role op.name args).1, c.plan_request, Query.eval_bind, Query.eval_liftM, hparse, Except.bind,
    Query.eval_bind, Query.eval_liftM, hpermit, Except.bind, Instruction.Spelled.plan_operate (.ask h), Instruction.plan_ask,
    Query.eval_map]
  cases q.answer.eval s.live <;> rfl

theorem Live.Coherent.answers_ofType {l : Table Bytes} (h : Coherent l) {type : TokenType} {ts : List Token}
    (hts : (Query.tokensOfType type).eval l = .ok ts) :
    (Question.tokensOfType type).answer.eval l = .ok ((Codec.list Token.codec).write ts) ∧
    (Question.symbolsOfType type).answer.eval l = .ok ((Codec.list .text).write (ts.map Token.symbol)) ∧
    ∀ address, registered l address → (Question.wallet address type).answer.eval l =
      .ok ((Codec.entries Balance.codec).write (purse l address (ts.map Token.symbol)).toList) := by
  refine ⟨?_, ?_, fun address haddress => ?_⟩
  · rw [Question.answer, Query.encode_bind, Query.eval_map, hts]
    rfl
  · rw [Question.answer, Query.encode_bind, Query.eval_map, Query.symbolsOfType, Query.eval_bind, hts]
    rfl
  · rw [Question.answer, Query.eval_bind, h.eval_wallet haddress hts, Except.bind]
    simp only [payload_encode, Query.eval_liftM]
    rfl

/-- In whatever order a contract has been used, its lists agree with what it shows of single records. They pass
over no record, have each one once, and show it as a look under its key does; the tokens of a type are
those that are described by it, and a wallet shows what `balanceOf` does for each of their symbols. -/
theorem lists_agree {c : Contract} {x : Session} (h : c.Reaches x) (role : Option Role) :
    let l := x.store.live
    let ask := fun (op : Operation) args => (c.execute x.store role op.name args).1
    let shown := fun b : Balance => ∀ check : Bool, (check → registered l b.address) →
      ((Query.balance b.account check).run x.store .empty).1 = .ok b
    (∀ address, ∃ bs, ask .getBalancesOfAddress [address] = .ok ((Codec.list Balance.codec).write bs) ∧
      Lists (balance? l) Balance.account (fun a _ => a.address = address) bs ∧ ∀ b ∈ bs, shown b) ∧
    (∀ symbol, ∃ bs, ask .getBalancesOfTokenHolders [symbol] = .ok ((Codec.list Balance.codec).write bs) ∧
      ask .getTokenHolderList [symbol] = .ok ((Codec.list .text).write (bs.map Balance.address)) ∧
      Lists (balance? l) Balance.account (fun a _ => a.token = symbol) bs ∧ ∀ b ∈ bs, shown b) ∧
    (∃ tokens : TokenType → List Token,
      (∀ type, Lists (token? l) Token.symbol (fun _ t => t.type = type) (tokens type) ∧
        (∀ t ∈ tokens type, ask .getToken [t.symbol] = .ok (Token.codec.write t)) ∧
        ∀ name, TokenType.ofName? name = some type →
          ask .getTokenInfoByType [name] = .ok ((Codec.list Token.codec).write (tokens type)) ∧
          ask .getTokenListByType [name] = .ok ((Codec.list .text).write ((tokens type).map Token.symbol)) ∧
          ∀ address, registered l address → ∃ held : Table Balance,
            ask .getWalletType [address, name] = .ok ((Codec.entries Balance.codec).write held.toList) ∧
            (∀ symbol, symbol ∈ held ↔ symbol ∈ (tokens type).map Token.symbol) ∧
            ∀ symbol b, held[symbol]? = some b →
              ask .balanceOf [address, symbol] = .ok (Balance.codec.write b)) ∧
      ∀ symbol t, token? l symbol = some t → ∃! type, t ∈ tokens type) ∧
    (∀ a, balance? l a = none → l[a.key.encode]? = none) ∧
    ∀ symbol, token? l symbol = none → l[(Key.token symbol).encode]? = none := by
  intro l ask shown
  have hl : Coherent l := h.coherent.store
  have hshown {p : Account → Balance → Prop} {bs : List Balance} (hbs : Lists (balance? l) Balance.account p bs) :
      ∀ b ∈ bs, shown b := by
    intro b hb check hcheck
    rw [Query.run_fst]
    exact hl.eval_balance_of_lists hbs hb hcheck
  have hask {op : Operation} {args : List String} {q : Question} (hq : Question.Spelled op args q) :
      ask op args = q.answer.eval l := hq.execute c x.store role
  refine ⟨fun address => ?_, fun symbol => ?_, ?_, fun a => hl.balance?_eq_none_iff.mp,
    fun symbol => hl.token?_eq_none_iff.mp⟩
  · obtain ⟨bs, hbs, hlists⟩ := hl.balancesOfAddress_lists address
    refine ⟨bs, ?_, hlists, hshown hlists⟩
    rw [hask (.balancesOfAddress address), Question.answer, Query.encode_bind, Query.eval_map, hbs]
    rfl
  · obtain ⟨bs, hbs, hlists⟩ := hl.balancesOfToken_lists symbol
    refine ⟨bs, ?_, ?_, hlists, hshown hlists⟩
    · rw [hask (.balancesOfToken symbol), Question.answer, Query.encode_bind, Query.eval_map, hbs]
      rfl
    · rw [hask (.holders symbol), Question.answer, Query.encode_bind, Query.eval_map, Query.holders, Query.eval_bind, hbs]
      rfl
  · choose tokens htokens hlists using hl.tokensOfType_lists
    have hlisted {type : TokenType} {t : Token} : token? l t.symbol = some t ∧ t.type = type ↔ t ∈ tokens type := by
      simpa using (hlists type).mem_iff t.symbol t
    refine ⟨tokens, fun type => ⟨hlists type, fun t ht => ?_, fun name hname => ?_⟩, fun symbol t ht => ?_⟩
    · rw [hask (.token t.symbol), Question.answer, Query.encode_bind, Query.eval_map, hl.eval_token, (hlisted.mpr ht).1]
      rfl
    · obtain ⟨hinfo, hsymbols, hwallet⟩ := hl.answers_ofType (htokens type)
      have hparse : TokenType.parse name = .ok type := by rw [TokenType.parse, hname]
      refine ⟨?_, ?_, fun address haddress => ⟨purse l address ((tokens type).map Token.symbol), ?_,
        fun symbol => mem_purse (hlists type).nodup, fun symbol b hb => ?_⟩⟩
      · exact (hask (.tokensOfType hparse)).trans hinfo
      · exact (hask (.symbolsOfType hparse)).trans hsymbols
      · exact (hask (.wallet address hparse)).trans (hwallet address haddress)
      · rw [getElem?_purse l address (hlists type).nodup] at hb
        split_ifs at hb
        rw [hask (.balanceOf address symbol), Question.answer, Query.encode_bind, Query.eval_map, hl.eval_balanceOf haddress,
          Option.some.inj hb]
        rfl
    · obtain rfl := hl.token?_symbol ht
      exact ⟨t.type, hlisted.mp ⟨ht, rfl⟩, fun type hm => (hlisted.mpr hm).2.symm⟩

/-- A token and a holder whose names have marks of keys in them. -/
def carving : List Step := listing ++ [.run none (.invoke (some .admin) "registerToken"
  ["\x7b\"TokenType\":\"NFT_POD\",\"Symbol\":\"50%/GLD\",\"Supply\":2\x7d", "al/ice"])]

theorem lists_agree_carving :
    let x := (Session.run .signing .empty carving).2
    Contract.signing.Reaches x ∧
      (∃ bs, (Contract.signing.execute x.store none "getBalancesOfTokenHolders" ["50%/GLD"]).1 =
          .ok ((Codec.list Balance.codec).write bs) ∧ ∃ b ∈ bs, b.account = ⟨"al/ice", "50%/GLD"⟩) ∧
      ∃ ts, (Contract.signing.execute x.store none "getTokenInfoByType" ["NFT_POD"]).1 =
          .ok ((Codec.list Token.codec).write ts) ∧ ∃ t ∈ ts, t.symbol = "50%/GLD" := by
  intro x
  have hx : Contract.signing.Reaches x := ⟨carving, .of_interleaves .signing (by decide), rfl⟩
  obtain ⟨-, hholders, ⟨tokens, htokens, -⟩, -, -⟩ := lists_agree hx none
  refine ⟨hx, ?_, ?_⟩
  · obtain ⟨bs, hbs, -, hlists, -⟩ := hholders "50%/GLD"
    have hsome : (balance? x.store.live ⟨"al/ice", "50%/GLD"⟩).isSome := by decide +kernel
    obtain ⟨b, hb⟩ := Option.isSome_iff_exists.mp hsome
    exact ⟨bs, hbs, b, (hlists.mem_iff _ b).mp ⟨hb, rfl⟩⟩
  · obtain ⟨hlists, -, hnamed⟩ := htokens .nftPod
    have hsome : ((token? x.store.live "50%/GLD").filter (·.type = .nftPod)).isSome := by decide +kernel
    obtain ⟨t, ht⟩ := Option.isSome_iff_exists.mp hsome
    obtain ⟨ht, htype⟩ := Option.filter_eq_some_iff.mp ht
    exact ⟨tokens .nftPod, (hnamed "NFT_POD" (by decide)).1, t,
      (hlists.mem_iff _ t).mp ⟨ht, of_decide_eq_true htype⟩⟩

end TokenLedger
