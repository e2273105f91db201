import TokenLedger.Proofs.Enumeration
import TokenLedger.Proofs.Order
import Mathlib.Data.Char

/-! The order in which the balances of an address are listed. It is the order of the symbols as they are written in
keys. A slash is written with the mark of an escape, and so comes before the characters between the mark and
itself; all other symbols are in their own order. -/

namespace TokenLedger

namespace Key

/-- Where two names differ first, the one goes on with a slash and the other with a character that comes before it
but behind the mark of an escape. -/
def Overtakes (s t : List Char) : Prop :=
  ∃ p c u v, s = p ++ '/' :: u ∧ t = p ++ c :: v ∧ '%' < c ∧ c < '/'

theorem escape_append (s t : List Char) : escape (s ++ t) = escape s ++ escape t := List.flatMap_append

theorem escape_lt_of_overtakes {s t : List Char} (h : Overtakes s t) : escape s < escape t := by
  obtain ⟨p, c, u, v, rfl, rfl, hc, hc'⟩ := h
  have hplain : escapeChar c = [c] := escapeChar_of_ne hc.ne' hc'.ne
  rw [escape_append, escape_append, escape_cons, escape_cons, hplain]
  exact List.append_left_lt (List.cons_lt_cons_iff.mpr (.inl hc))

/-- The first of two characters is written before the other one, unless the other one is a slash and it comes
behind the mark. -/
theorem escapeChar_append_lt {c d : Char} (h : c < d) (hd : d = '/' → ¬ '%' < c) (s t : List Char) :
    escapeChar c ++ s < escapeChar d ++ t := by
  have hslash : ('%' : Char) < '/' := by decide
  have hfirst {a b : Char} {s t : List Char} (h : a < b) : a :: s < b :: t := List.cons_lt_cons_iff.mpr (.inl h)
  have hsame {a : Char} {s t : List Char} (h : s < t) : a :: s < a :: t := List.cons_lt_cons_iff.mpr (.inr ⟨rfl, h⟩)
  by_cases hc : c = '%'
  · subst hc
    by_cases hd' : d = '/'
    · subst hd'
      exact hsame (hsame (hfirst (by decide)))
    · rw [escapeChar_of_ne h.ne' hd']
      exact hfirst h
  · by_cases hc' : c = '/'
    · subst hc'
      rw [escapeChar_of_ne (hslash.trans h).ne' h.ne']
      exact hfirst (hslash.trans h)
    · rw [escapeChar_of_ne hc hc']
      by_cases hd₁ : d = '%'
      · subst hd₁
        exact hfirst h
      · by_cases hd₂ : d = '/'
        · subst hd₂
          exact hfirst (lt_of_le_of_ne (not_lt.mp (hd rfl)) hc)
        · rw [escapeChar_of_ne hd₁ hd₂]
          exact hfirst h

theorem escape_lt_of_lt {s t : List Char} (h : s < t) (hn : ¬ Overtakes t s) : escape s < escape t := by
  induction h with
  | @nil d t =>
    rw [escape_cons]
    have hne : escapeChar d ≠ [] := by
      unfold escapeChar
      split <;> simp
    obtain ⟨e, r, he⟩ := List.exists_cons_of_ne_nil hne
    rw [he]
    exact List.nil_lt_cons e _
  | @rel c s d t hcd =>
    rw [escape_cons, escape_cons]
    refine escapeChar_append_lt hcd (fun hd hc => hn ?_) _ _
    subst hd
    exact ⟨[], c, t, s, rfl, rfl, hc, hcd⟩
  | @cons c s t _ ih =>
    rw [escape_cons, escape_cons]
    refine List.append_left_lt (ih fun hlater => hn ?_)
    obtain ⟨p, d, u, v, rfl, rfl, hd, hd'⟩ := hlater
    exact ⟨c :: p, d, u, v, rfl, rfl, hd, hd'⟩

theorem escape_lt_escape {s t : List Char} : escape s < escape t ↔ Overtakes s t ∨ s < t ∧ ¬ Overtakes t s := by
  constructor
  · intro h
    rcases lt_trichotomy s t with hlt | rfl | hgt
    · exact .inr ⟨hlt, fun ho => lt_asymm h (escape_lt_of_overtakes ho)⟩
    · exact absurd h (lt_irrefl _)
    · by_contra hn
      exact lt_asymm h (escape_lt_of_lt hgt fun ho => hn (.inl ho))
  · rintro (ho | ⟨hlt, hn⟩)
    · exact escape_lt_of_overtakes ho
    · exact escape_lt_of_lt hlt hn

theorem Overtakes.lt {s t : List Char} (h : Overtakes s t) : t < s := by
  obtain ⟨p, c, u, v, rfl, rfl, -, hc⟩ := h
  exact List.append_left_lt (List.cons_lt_cons_iff.mpr (.inl hc))

theorem pairwise_lt_iff {α : Type} (name : α → List Char) {as : List α}
    (h : as.Pairwise fun a b => escape (name a) < escape (name b)) :
    as.Pairwise (fun a b => name a < name b) ↔ ∀ a ∈ as, ∀ b ∈ as, ¬ Overtakes (name a) (name b) := by
  constructor
  · intro hlt
    let apart (a b : α) : Prop := ¬ Overtakes (name a) (name b) ∧ ¬ Overtakes (name b) (name a)
    have : Std.Symm apart := ⟨fun _ _ hab => hab.symm⟩
    have hself : ∀ a ∈ as, apart a a := fun a _ => ⟨fun ho => lt_irrefl _ ho.lt, fun ho => lt_irrefl _ ho.lt⟩
    have hapart : as.Pairwise apart := by
      refine (hlt.and h).imp fun hab => ⟨fun ho => lt_asymm hab.1 ho.lt, fun ho => ?_⟩
      exact lt_asymm hab.2 (escape_lt_of_overtakes ho)
    exact fun a ha b hb => (hapart.forall_of_forall hself ha hb).1
  · intro hn
    exact h.imp_of_mem fun ha hb hab => (escape_lt_escape.mp hab).elim (fun ho => absurd ho (hn _ ha _ hb)) And.left

theorem escape_lt_of_encode_lt {address s t : String}
    (h : (Account.key ⟨address, s⟩).encode < (Account.key ⟨address, t⟩).encode) :
    escape s.toList < escape t.toList := by
  have hencode (token : String) : (Account.key ⟨address, token⟩).encode.toList =
      Namespace.balances.tag.toList ++ '/' :: escape address.toList ++ ['/'] ++ escape token.toList := by
    simp [encode, encodeChars, Account.key]
  rw [String.lt_iff, hencode, hencode] at h
  rcases lt_trichotomy (escape s.toList) (escape t.toList) with hlt | heq | hgt
  · exact hlt
  · rw [heq] at h
    exact absurd h (lt_irrefl _)
  · exact absurd h (lt_asymm (List.append_left_lt hgt))

end Key

/-- In whatever order a contract has been used, the recorded balances of an address, all of them and each once, are
listed in the order in which their symbols are written in keys. This is the order of the symbols, octet by octet,
exactly if among them there are no two of which one overtakes the other by its slash. -/
theorem balancesOfAddress_order {c : Contract} {x : Session} (h : c.Reaches x) (tx address : String) :
    ∃ bs, ((Query.balancesOfAddress address).run x.store (x.transaction tx)).1 = .ok bs ∧
      Lists (Live.balance? ((x.transaction tx).view x.store)) Balance.account (fun a _ => a.address = address) bs ∧
      bs.Pairwise (fun a b => Key.escape a.token.toList < Key.escape b.token.toList) ∧
      (bs.Pairwise (fun a b => Text.utf8 a.token < Text.utf8 b.token) ↔
        ∀ a ∈ bs, ∀ b ∈ bs, ¬ Key.Overtakes a.token.toList b.token.toList) := by
  have hl := h.coherent.view tx
  obtain ⟨bs, hbs, hlists⟩ := hl.balancesOfAddress_lists address
  have hwritten : bs.Pairwise fun a b => Key.escape a.token.toList < Key.escape b.token.toList := by
    obtain ⟨cs, hplain, hscan, -⟩ := hl.scan_balances [address]
    obtain ⟨hits, hhits, hordered, -⟩ := hl.keyed.eval_scan .balances [address]
    obtain rfl : cs = bs := by
      rw [Query.balancesOfAddress, Query.eval_bind, hscan] at hbs
      exact Except.ok.inj ((Live.eval_records (fun _ hb => Balance.decode_write hb) hplain).symm.trans hbs)
    rw [hscan, Except.ok.injEq] at hhits
    rw [← hhits, List.pairwise_map] at hordered
    refine hordered.imp_of_mem fun {a b} ha hb hlt => ?_
    have haddress {b : Balance} (hb : b ∈ cs) : b.account = ⟨address, b.token⟩ := by
      rw [← ((hlists.mem_iff b.account b).mpr ⟨hb, rfl⟩).2]
      rfl
    rw [haddress ha, haddress hb] at hlt
    exact Key.escape_lt_of_encode_lt (Text.compare_eq_lt.mp hlt)
  refine ⟨bs, by rw [Query.run_fst, hbs], hlists, hwritten, ?_⟩
  simp only [Text.utf8_lt_utf8, String.lt_iff]
  exact Key.pairwise_lt_iff (fun b : Balance => b.token.toList) hwritten

def dashing : List Step :=
  [.run none (.invoke none "registerAddress" ["alice"]),
   .run none (.invoke none "initialiseBalance" ["alice", "A-B"]),
   .run none (.invoke none "initialiseBalance" ["alice", "A/B"])]

theorem balancesOfAddress_order_dashing :
    let x := (Session.run .signing .empty dashing).2
    Contract.signing.Reaches x ∧
      ∃ bs, ((Query.balancesOfAddress "alice").run x.store (x.transaction "t")).1 = .ok bs ∧
        ¬ bs.Pairwise (fun a b => Text.utf8 a.token < Text.utf8 b.token) := by
  intro x
  have hx : Contract.signing.Reaches x := ⟨dashing, .of_interleaves .signing (by decide), rfl⟩
  obtain ⟨bs, hbs, hlists, -, hiff⟩ := balancesOfAddress_order hx "t" "alice"
  refine ⟨hx, bs, hbs, fun hordered => ?_⟩
  have hstored (symbol : String)
      (hs : (Live.balance? ((x.transaction "t").view x.store) ⟨"alice", symbol⟩).isSome) :
      ∃ b ∈ bs, b.token = symbol := by
    obtain ⟨b, hb⟩ := Option.isSome_iff_exists.mp hs
    obtain ⟨hm, ha⟩ := (hlists.mem_iff _ b).mp ⟨hb, rfl⟩
    exact ⟨b, hm, congrArg Account.token ha⟩
  obtain ⟨a, ha, hslash⟩ := hstored "A/B" (by decide +kernel)
  obtain ⟨b, hb, hdash⟩ := hstored "A-B" (by decide +kernel)
  refine hiff.mp hordered a ha b hb ?_
  rw [hslash, hdash]
  exact ⟨['A'], '-', ['B'], ['B'], by decide, by decide, by decide, by decide⟩

end TokenLedger
