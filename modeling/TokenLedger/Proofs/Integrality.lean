import TokenLedger.Proofs.Invariant

/-! Supplies and balances are amounts that the type of their token admits. A type can change while balances
stay, and symbols can be listed again, but then all balances are gone through. -/

namespace TokenLedger

namespace TokenType

variable {t : TokenType} {a b c : Amount}

theorem admits_iff : t.admits a ↔ (t.isIntegral → Amount.scale ∣ a.units) := by
  cases h : t.isIntegral <;> simp [admits, h, Amount.isIntegral, Nat.dvd_iff_mod_eq_zero]

theorem admits_iff_nftPod : t.admits a ↔ (t = .nftPod → Amount.scale ∣ a.units) := by
  rw [admits_iff, isIntegral, beq_iff_eq]

theorem admits_of_units_eq_zero (h : a.units = 0) : t.admits a :=
  admits_iff.mpr fun _ => h ▸ Nat.dvd_zero _

theorem admits_of_add (ha : t.admits a) (hb : t.admits b) (h : c.units = a.units + b.units) : t.admits c :=
  admits_iff.mpr fun ht => h ▸ Nat.dvd_add (admits_iff.mp ha ht) (admits_iff.mp hb ht)

theorem admits_of_sub (ha : t.admits a) (hb : t.admits b) (h : c.units + b.units = a.units) : t.admits c :=
  admits_iff.mpr fun ht => (Nat.dvd_add_left (admits_iff.mp hb ht)).mp (h ▸ admits_iff.mp ha ht)

theorem admits_of_isIntegral {u : TokenType} (hu : u.isIntegral) (ha : u.admits a) : t.admits a :=
  admits_iff.mpr fun _ => admits_iff.mp ha hu

end TokenType

namespace Live

/-- The supply of each listed token and all balances of it are amounts that its type admits. -/
def Admitted (l : Table Bytes) : Prop :=
  ∀ symbol t, token? l symbol = some t →
    t.type.admits t.supply ∧ ∀ a : Account, a.token = symbol → t.type.admits (balance l a).amount

theorem admitted_empty : Admitted ∅ := by
  intro symbol t ht
  simp [token?] at ht

namespace Admitted

variable {l : Table Bytes} (hl : Admitted l)

include hl

theorem other (ch : Change) (htoken : ch.key.ns ≠ .tokens) (hbalance : ch.key.ns ≠ .balances) :
    Admitted (apply l ch) := by
  intro symbol t ht
  rw [token?_apply_of_ne l ch fun he => htoken (by rw [he]; rfl)] at ht
  obtain ⟨hsupply, hheld⟩ := hl symbol t ht
  refine ⟨hsupply, fun a ha => ?_⟩
  rw [balance, balance?_apply_of_ne l ch fun he => hbalance (by rw [he]; rfl)]
  exact hheld a ha

theorem unlist (s : String) : Admitted (apply l (.unlist s)) := by
  intro symbol t ht
  rw [token?_apply_unlist] at ht
  split_ifs at ht with hs
  obtain ⟨hsupply, hheld⟩ := hl symbol t ht
  refine ⟨hsupply, fun a ha => ?_⟩
  rw [balance, balance?_apply_of_ne l _ (by simp [Change.key, Key.token, Account.key])]
  exact hheld a ha

theorem balance {b : Balance} (hb : b.Plain)
    (hadmits : ∀ t, token? l b.token = some t → t.type.admits b.amount) : Admitted (apply l (.balance b)) := by
  intro symbol t ht
  rw [token?_apply_balance] at ht
  obtain ⟨hsupply, hheld⟩ := hl symbol t ht
  refine ⟨hsupply, fun a ha => ?_⟩
  rw [balance_apply_balance l hb]
  split
  · rename_i he
    have hsymbol : b.token = symbol := (congrArg Account.token he).trans ha
    exact hadmits t (hsymbol ▸ ht)
  · exact hheld a ha

/-- A token is written whose type admits the supply and what is held. -/
theorem token {t : Token} (hsupply : t.type.admits t.supply)
    (hheld : ∀ a : Account, a.token = t.symbol → t.type.admits (Live.balance l a).amount) :
    Admitted (apply l (.token t)) := by
  intro symbol u hu
  have hbalance (a : Account) : Live.balance (apply l (.token t)) a = Live.balance l a := by
    rw [Live.balance, balance?_apply_of_ne l _ (by simp [Change.key, Key.token, Account.key]), Live.balance]
  rw [token?_apply_token] at hu
  simp only [hbalance]
  split_ifs at hu with hs
  · cases hu
    exact ⟨hsupply, fun a ha => hheld a (ha.trans hs.symm)⟩
  · exact hl symbol u hu

theorem settle (h : Coherent l) {t : Transfer} {s r : Balance} (hmove : move l t = .ok (s, r)) :
    Admitted (Live.settle l (s, r)) := by
  obtain ⟨hps, has, hpr, har⟩ := h.move_plain hmove
  obtain ⟨hsent, hreceived⟩ := h.move_units hmove
  obtain ⟨u, hu, -, hamount⟩ := h.move_admitted hmove
  have hheld := (hl t.token u hu).2
  have hs : s.token = t.token := congrArg Account.token has
  have hr : r.token = t.token := congrArg Account.token har
  refine (hl.balance hps fun v hv => ?_).balance hpr fun v hv => ?_
  · rw [hs, hu] at hv
    cases hv
    exact TokenType.admits_of_sub (hheld s.account hs) hamount hsent
  · rw [token?_apply_balance, hr, hu] at hv
    cases hv
    exact TokenType.admits_of_add (hheld r.account hr) hamount hreceived

theorem supply (h : Coherent l) {t : Token} {a : Account} {x y : Amount} (ht : token? l a.token = some t)
    (hx : t.type.admits x) (hy : t.type.admits y) :
    Admitted (applyAll l [.balance { Live.balance l a with amount := x }, .token { t with supply := y }]) := by
  obtain ⟨hp, ha⟩ := h.balance_plain a
  have htoken : (Live.balance l a).token = a.token := congrArg Account.token ha
  have hfirst : Admitted (apply l (.balance { Live.balance l a with amount := x })) :=
    hl.balance (hp.with_amount x) fun u hu => by
      rw [htoken, ht] at hu
      cases hu
      exact hx
  have hlisted : token? (apply l (.balance { Live.balance l a with amount := x })) t.symbol = some t := by
    rw [token?_apply_balance, h.token?_symbol ht, ht]
  exact hfirst.token hy (hfirst t.symbol t hlisted).2

/-- A symbol of which nobody holds anything is listed with a supply that its type admits. -/
theorem register {t : Token} {holder : String} (hsupply : t.type.admits t.supply)
    (h0 : ∀ a : Account, a.token = t.symbol → held l a = 0) :
    Admitted (applyAll l [.token t, .balance { Balance.zero ⟨holder, t.symbol⟩ with amount := t.supply }]) := by
  have hfirst := hl.token hsupply fun a ha => TokenType.admits_of_units_eq_zero (h0 a ha)
  refine hfirst.balance ((Balance.plain_zero _).with_amount t.supply) fun u hu => ?_
  have hsymbol : t.symbol = (Balance.zero ⟨holder, t.symbol⟩).token := rfl
  rw [token?_apply_token, if_pos hsymbol] at hu
  cases hu
  exact hsupply

end Admitted

section Carried

variable {c : Contract} {l : Table Bytes} {op : Operation} {args : List String} {cs : List Change}

theorem Carried.admitted (h : Coherent l) (hl : Admitted l) (hc : Carried c l op args cs) :
    Admitted (applyAll l cs) := by
  cases hc with
  | nothing => exact hl
  | register read unlisted unheld admitted => exact hl.register admitted unheld
  | remove => exact hl.unlist _
  | @update text t current read listed admitted held =>
    refine hl.token (t := { t with supply := current.supply }) admitted fun a ha => ?_
    cases hcurrent : current.type.isIntegral with
    | false => exact held hcurrent a ha
    | true => exact TokenType.admits_of_isIntegral hcurrent ((hl t.symbol current listed).2 a ha)
  | wallet address => exact hl.other (.wallet address) (by rintro ⟨⟩) (by rintro ⟨⟩)
  | initialise address symbol =>
    obtain ⟨hp, ha⟩ := h.balance_plain ⟨address, symbol⟩
    refine hl.balance hp fun u hu => ?_
    have htoken : (balance l ⟨address, symbol⟩).token = symbol := congrArg Account.token ha
    exact (hl symbol u (htoken ▸ hu)).2 ⟨address, symbol⟩ rfl
  | transfer read signed effective moved =>
    have hover := h.overlay_pair moved
    rw [overlay] at hover
    rw [hover]
    exact hl.settle h moved
  | @multitransfer requests ts m read moved =>
    refine (h.transferAll_induction (P := Admitted) ?_ fits_empty (by rwa [overlay_empty]) moved).2
    intro m t s r _ _ hfits hmove hm
    exact hm.settle (hfits.coherent_overlay h) hmove
  | @mint request r t x y read listed added issued admitted =>
    obtain ⟨hsupply, hheld⟩ := hl r.token t listed
    exact hl.supply h (a := ⟨r.receiver, r.token⟩) listed
      (TokenType.admits_of_add (hheld ⟨r.receiver, r.token⟩ rfl) admitted added)
      (TokenType.admits_of_add hsupply admitted issued)
  | @burn request r t x y read listed taken destroyed admitted =>
    obtain ⟨hsupply, hheld⟩ := hl r.token t listed
    exact hl.supply h (a := ⟨r.sender, r.token⟩) listed
      (TokenType.admits_of_sub (hheld ⟨r.sender, r.token⟩ rfl) admitted taken)
      (TokenType.admits_of_sub hsupply admitted destroyed)
  | firstScores actor text s => exact hl.other (.scores actor s) (by rintro ⟨⟩) (by rintro ⟨⟩)
  | newScores actor text s => exact hl.other (.scores actor s) (by rintro ⟨⟩) (by rintro ⟨⟩)

theorem kept_admitted (c : Contract) : Kept c Admitted := ⟨admitted_empty, fun h hl hc => hc.admitted h hl⟩

end Carried

end Live

open Live

/-- Whatever is done with the contract, in any order, the supply of a listed token that comes in whole
numbers is a whole number, and so is every balance of it. -/
theorem integral_holdings {c : Contract} {as : List Step} (h : Contractual c as)
    (hn : (Journal.run c .empty .empty as).committed.length < UInt64.size) {symbol : String} {document : Bytes}
    (hlisted : (Session.run c .empty as).2.store.value? (Key.token symbol).encode = some document) :
    ∃ t, Token.codec.decode document = .ok t ∧ (t.type = .nftPod →
      Amount.scale ∣ t.supply.units ∧ ∀ (k : String) (b : Bytes), balancesPrefix.toList.isPrefixOf k.toList →
        (Session.run c .empty as).2.store.value? k = some b →
        ∃ r, Balance.codec.decode b = .ok r ∧ k = r.account.key.encode ∧
          (r.token = symbol → Amount.scale ∣ r.amount.units)) := by
  have hcoherent := (h.followed hn).sound.coherent
  have hadmitted := (kept_admitted c).run h hn
  rw [← Store.getElem?_live] at hlisted
  obtain ⟨t, hd, ht⟩ := hcoherent.listed hlisted
  obtain ⟨hsupply, hheld⟩ := hadmitted symbol t ht
  refine ⟨t, hd, fun htype => ?_⟩
  have hwhole : t.type.isIntegral := by rw [htype]; rfl
  refine ⟨TokenType.admits_iff.mp hsupply hwhole, fun k b hk hb => ?_⟩
  rw [← Store.getElem?_live] at hb
  obtain ⟨r, hr, hkey, hbalance⟩ := hcoherent.recorded hk hb
  refine ⟨r, hr, hkey, fun hs => ?_⟩
  have hamount := hheld r.account hs
  rw [hbalance] at hamount
  exact TokenType.admits_iff.mp hamount hwhole

def halving : List Step :=
  [.begin "t", .begin "u",
   .run (some "t") (.invoke (some .admin) "updateTokenInfo"
    ["\x7b\"TokenType\":\"NFTPOD\",\"Symbol\":\"GLD\"\x7d"]),
   .run (some "u") (.invoke none "multitransfer"
    ["\x7b\"Token\":\"GLD\",\"From\":\"alice\",\"To\":\"bob\",\"AvoidCheckTo\":true,\"Amount\":0.5\x7d"]),
   .commit "t", .commit "u"]

theorem integral_holdings_halving :
    ∃ t, Token.codec.decode (Token.codec.write ⟨"", .nftPod, "GLD", ⟨500000000, by decide⟩, 0⟩) = .ok t ∧
      (t.type = .nftPod → Amount.scale ∣ t.supply.units ∧
        ∀ (k : String) (b : Bytes), balancesPrefix.toList.isPrefixOf k.toList →
          (Session.run .signing .empty (listing ++ halving)).2.store.value? k = some b →
          ∃ r, Balance.codec.decode b = .ok r ∧ k = r.account.key.encode ∧
            (r.token = "GLD" → Amount.scale ∣ r.amount.units)) := by
  have hlisted : (Session.run .signing .empty (listing ++ halving)).2.store.value? (Key.token "GLD").encode =
      some (Token.codec.write ⟨"", .nftPod, "GLD", ⟨500000000, by decide⟩, 0⟩) := by
    decide +kernel
  refine integral_holdings (.of_interleaves .signing (by decide)) ?_ hlisted
  exact lt_of_le_of_lt (Journal.committed_run_le .signing .empty .empty (listing ++ halving)) (by decide)

end TokenLedger
