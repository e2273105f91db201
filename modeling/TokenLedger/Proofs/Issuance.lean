import TokenLedger.Proofs.Debit
import TokenLedger.Proofs.Interleaving

/-! Issuing and describing tokens, which is for administrators. Without one, the tokens that are listed and
what is said of them stay the same, and there can only be less of each: burning writes the whole record of a
token, but of all that is in it changes the supply alone. A transaction that was open before and has written
no token cannot have issued anything, since what it has done can be repeated when it is committed. -/

namespace TokenLedger

open Live

structure Token.Dwindled (t u : Token) : Prop where
  name : u.name = t.name
  type : u.type = t.type
  symbol : u.symbol = t.symbol
  lockUpDate : u.lockUpDate = t.lockUpDate
  supply : u.supply.units ≤ t.supply.units

theorem Token.Dwindled.refl (t : Token) : t.Dwindled t := ⟨rfl, rfl, rfl, rfl, Nat.le_refl _⟩

theorem Token.Dwindled.trans {t u v : Token} (h : t.Dwindled u) (h' : u.Dwindled v) : t.Dwindled v :=
  ⟨h'.name.trans h.name, h'.type.trans h.type, h'.symbol.trans h.symbol, h'.lockUpDate.trans h.lockUpDate,
    h'.supply.trans h.supply⟩

theorem Token.Dwindled.rel_refl : ∀ o : Option Token, Option.Rel Token.Dwindled o o
  | none => .none
  | some t => .some (.refl t)

theorem Token.Dwindled.rel_trans {o p q : Option Token} (h : Option.Rel Token.Dwindled o p)
    (h' : Option.Rel Token.Dwindled p q) : Option.Rel Token.Dwindled o q := by
  cases h with
  | none => exact h'
  | some h => cases h' with | some h' => exact .some (h.trans h')

namespace Live

/-- The same tokens are listed, and there is no more of any. -/
structure Dwindled (l m : Table Bytes) : Prop where
  listed : ∀ symbol, Option.Rel Token.Dwindled (token? l symbol) (token? m symbol)
  circulating : ∀ symbol, total m symbol ≤ total l symbol

theorem Dwindled.refl (l : Table Bytes) : Dwindled l l :=
  ⟨fun _ => Token.Dwindled.rel_refl _, fun _ => Nat.le_refl _⟩

theorem Dwindled.trans {l m n : Table Bytes} (h : Dwindled l m) (h' : Dwindled m n) : Dwindled l n :=
  ⟨fun symbol => Token.Dwindled.rel_trans (h.listed symbol) (h'.listed symbol),
    fun symbol => (h'.circulating symbol).trans (h.circulating symbol)⟩

section Carried

variable {c : Contract} {l : Table Bytes} {op : Operation} {args : List String} {cs : List Change}

/-- An operation that writes no token leaves all of them, and as much of each. -/
theorem Carried.dwindled_of_forall (h : Coherent l) (hc : Carried c l op args cs)
    (hk : ∀ ch ∈ cs, ch.key.ns ≠ .tokens) : Dwindled l (applyAll l cs) where
  listed symbol := by
    rw [token?_applyAll fun ch hch he => hk ch hch (congrArg Key.ns he)]
    exact Token.Dwindled.rel_refl _
  circulating symbol := (hc.steady h fun ch hch he => hk ch hch (congrArg Key.ns he)).le

/-- What is burnt is gone from the supply and from what circulates. -/
theorem Coherent.dwindled_burn (h : Coherent l) {b : Balance} (hb : b.Plain) {t : Token}
    (ht : token? l b.token = some t) {y : Amount} (hx : b.amount.units ≤ held l b.account)
    (hy : y.units ≤ t.supply.units) : Dwindled l (applyAll l [.balance b, .token { t with supply := y }]) where
  listed symbol := by
    rw [applyAll_cons, applyAll_cons, applyAll_nil, token?_apply_token, token?_apply_balance]
    change Option.Rel _ _ (if t.symbol = symbol then _ else _)
    rw [h.token?_symbol ht]
    split_ifs with hs
    · rw [← hs, ht]
      exact .some ⟨rfl, rfl, (h.token?_symbol ht).symm, rfl, hy⟩
    · exact Token.Dwindled.rel_refl _
  circulating symbol := by
    have htotal := total_apply_balance l hb symbol
    rw [applyAll_cons, applyAll_cons, applyAll_nil, total_apply_token]
    split_ifs at htotal
    · omega
    · omega

theorem Carried.dwindled (h : Coherent l) (hc : Carried c l op args cs) (hop : op.requiresAdmin = false) :
    Dwindled l (applyAll l cs) := by
  have hbalances {m : Touched} (hm : Fits m) : ∀ ch ∈ m.changes, ch.key.ns ≠ .tokens := by
    intro ch hch
    obtain ⟨b, -, rfl⟩ := hm.mem_changes.mp hch
    nofun
  cases hc with
  | nothing => exact .refl l
  | register | remove | update | mint => cases hop
  | wallet address => exact Carried.dwindled_of_forall h (.wallet (c := c) address) (by simp [Change.key, Key.wallet])
  | initialise address symbol =>
    exact Carried.dwindled_of_forall h (.initialise (c := c) address symbol) (by simp [Change.key, Account.key])
  | transfer read signed effective moved =>
    obtain ⟨hs, -, hr, -⟩ := h.move_plain moved
    exact Carried.dwindled_of_forall h (.transfer read signed effective moved)
      (hbalances ((fits_empty.put hs).put hr))
  | multitransfer read moved =>
    exact Carried.dwindled_of_forall h (.multitransfer (c := c) read moved)
      (hbalances (h.transferAll_fits fits_empty moved))
  | @burn _ r t x y _ listed taken destroyed =>
    obtain ⟨hp, ha⟩ := h.balance_plain ⟨r.sender, r.token⟩
    have htoken : (balance l ⟨r.sender, r.token⟩).token = r.token := congrArg Account.token ha
    refine h.dwindled_burn (hp.with_amount x) (by rw [← htoken] at listed; exact listed) ?_ (by omega)
    change x.units ≤ held l (balance l ⟨r.sender, r.token⟩).account
    rw [ha]
    omega
  | firstScores actor text s =>
    exact Carried.dwindled_of_forall h (.firstScores (c := c) actor text s) (by simp [Change.key, Key.scores])
  | newScores actor text s =>
    exact Carried.dwindled_of_forall h (.newScores (c := c) actor text s) (by simp [Change.key, Key.scores])

theorem Coherent.issued (h : Coherent l) (hop : op.requiresAdmin) {e : Effect Bytes}
    (he : (c.operate op args).plan.eval l = .ok e) : ∃ symbol, ∃ ch ∈ e.changes, ch.key = .token symbol := by
  obtain ⟨i, hi, he⟩ := operate_eq_ok.mp he
  cases hi with
  | ask hq => cases hq <;> cases hop
  | order ho =>
    rw [Instruction.plan_order, Query.eval_map_eq_ok] at he
    obtain ⟨e', he', rfl⟩ := he
    cases ho with
    | @registerToken _ t =>
      exact ⟨t.symbol, .token t, by simp [Effect.map, (h.registerToken_eq_ok he').2.2.2], rfl⟩
    | @updateToken _ t =>
      obtain ⟨current, -, -, -, hch⟩ := h.updateToken_eq_ok he'
      exact ⟨t.symbol, .token { t with supply := current.supply }, by simp [Effect.map, hch], rfl⟩
    | mint =>
      obtain ⟨t, held, supply, -, -, -, -, hch⟩ := h.mint_eq_ok he'
      exact ⟨t.symbol, .token { t with supply }, by simp [Effect.map, hch], rfl⟩
    | transfer | multitransfer | burn => cases hop
  | file hf =>
    rw [Instruction.plan_file, Query.eval_map_eq_ok] at he
    obtain ⟨e', he', rfl⟩ := he
    cases hf with
    | removeToken symbol =>
      obtain ⟨t, -, hch⟩ := removeToken_changes h he'
      exact ⟨symbol, .unlist symbol, by simp [Effect.map, hch], rfl⟩
    | _ => cases hop

end Carried
end Live

def Deed.issues : Deed → Bool
  | .invoke _ name _ => (Operation.ofName? name).any (·.requiresAdmin)
  | _ => false

def Deed.byAdmin : Deed → Bool
  | .invoke role _ _ => role == some .admin
  | _ => false

def Step.byAdmin : Step → Bool
  | .run _ d => d.byAdmin
  | _ => false

def Exchange.Issued (e : Exchange) : Prop := e.1.issues ∧ e.2.isOk

theorem Deed.issues_of_parse {role : Option Role} {name : String} {args : List String} {op : Operation}
    (hop : Operation.parse name = .ok op) : (Deed.invoke role name args).issues = op.requiresAdmin := by
  rw [Operation.name_of_parse hop, issues, Operation.ofName?_name, Option.any_some]

/-- An operation for administrators is refused to others before anything is looked at. -/
theorem Contract.request_forbidden (c : Contract) {op : Operation} (hop : op.requiresAdmin) {role : Option Role}
    (hrole : role ≠ some .admin) (args : List String) :
    c.request role op.name args = .fail (.callForbidden op.name (Failure.roleMissing role .admin).message) := by
  have hparse : Operation.parse op.name = .ok op := by rw [Operation.parse, Operation.ofName?_name]
  have hpermit : op.permit role = .error (.callForbidden op.name (Failure.roleMissing role .admin).message) := by
    simp [Operation.permit, requireRole, hop, hrole]
  rw [request, hparse]
  change ((liftM (op.permit role) : Action Unit) >>= fun _ => c.operate op args) = _
  rw [hpermit]
  rfl

theorem Contract.invoke_forbidden (c : Contract) (s : Store) (t : Transaction) {op : Operation}
    (hop : op.requiresAdmin) {role : Option Role} (hrole : role ≠ some .admin) (args : List String) :
    c.invoke s t role op.name args =
      (.error (.callForbidden op.name (Failure.roleMissing role .admin).message), t) := by
  rw [invoke, c.request_forbidden hop hrole]
  rfl

section Perform

variable {c : Contract} {s : Store} {t : Transaction} {d : Deed}

theorem Deed.not_issued_perform (hadmin : d.byAdmin = false) : ¬ Exchange.Issued (d, (d.perform c s t).1) := by
  rintro ⟨hd, hok⟩
  cases d with
  | invoke role name args =>
    obtain ⟨op, hname, hop⟩ := (Option.any_eq_true _ _).mp hd
    have hrole : role ≠ some .admin := by simpa [Deed.byAdmin] using hadmin
    have hname : name = op.name := Operation.name_of_parse (by rw [Operation.parse, hname])
    rw [Deed.perform_invoke, hname, c.request_forbidden hop hrole] at hok
    cases hok
  | call | get | put | scan | select => cases hd

theorem Deed.exists_token_of_issued (h : Coherent (t.view s)) (hissued : Exchange.Issued (d, (d.perform c s t).1)) :
    ∃ symbol, (Key.token symbol).encode ∈ (d.perform c s t).2.writes := by
  obtain ⟨hd, hok⟩ := hissued
  cases d with
  | invoke role name args =>
    rw [Deed.perform_invoke, Query.perform_eq] at hok ⊢
    cases he : (c.request role name args).plan.eval (t.view s) with
    | error f =>
      rw [he] at hok
      cases hok
    | ok e =>
      obtain ⟨op, hop, -, he⟩ := request_eq_ok.mp he
      rw [Deed.issues_of_parse hop] at hd
      obtain ⟨symbol, ch, hch, hkey⟩ := h.issued hd he
      exact ⟨symbol, Transaction.mem_writes_applyAll.mpr (.inr ⟨ch, hch, by rw [hkey]⟩)⟩
  | call | get | put | scan | select => cases hd

theorem Deed.dwindled_perform (hd : d.isInvocation) (h : Coherent (t.view s))
    (hissued : ¬ Exchange.Issued (d, (d.perform c s t).1)) : Dwindled (t.view s) ((d.perform c s t).2.view s) := by
  obtain ⟨role, name, args, rfl⟩ := Deed.invocation_cases hd
  rw [Deed.perform_invoke, Query.perform_eq] at hissued
  rw [Deed.perform_invoke, Query.view_perform]
  cases he : (c.request role name args).plan.eval (t.view s) with
  | error f => exact .refl _
  | ok e =>
    obtain ⟨op, hop, -, hc⟩ := h.carried_request he
    refine hc.dwindled h ?_
    by_contra hadmin
    rw [he] at hissued
    exact hissued ⟨by rw [Deed.issues_of_parse hop]; simpa using hadmin, rfl⟩

/-- An exchange that is repeated and does not enumerate is the same again. -/
theorem Exchange.Agrees.issued {e : Exchange} {r : Except Failure Answer} (h : e.Agrees r) :
    Exchange.Issued (e.1, r) ↔ e.Issued := by
  by_cases hn : e.1.enumerates
  · have hd : e.1.issues = false := by
      obtain ⟨d, a⟩ := e
      cases d with
      | invoke role name args =>
        obtain ⟨op, hname, hop⟩ := (Option.any_eq_true _ _).mp hn
        rw [Deed.issues, hname, Option.any_some]
        cases op with
        | registerToken | removeToken | updateTokenInfo | mint => cases hop
        | _ => rfl
      | call | get | put | scan | select => rfl
    simp [Exchange.Issued, hd]
  · rw [h (by simpa using hn)]

end Perform

section PerformAll

variable {c : Contract} {s : Store} {t : Transaction} {es : List Exchange} (hes : ∀ e ∈ es, e.1.isInvocation)
  (h : Coherent (t.view s)) (hagree : List.Forall₂ Exchange.Agrees es (c.performAll s t (es.map Prod.fst)).1)

include hes h hagree

theorem dwindled_performAll (hu : ∀ e ∈ es, ¬ e.Issued) :
    Dwindled (t.view s) ((c.performAll s t (es.map Prod.fst)).2.view s) := by
  induction es generalizing t with
  | nil => exact .refl _
  | cons e es ih =>
    rw [List.map_cons, Contract.performAll_cons] at hagree ⊢
    obtain ⟨he, hrest⟩ := List.forall₂_cons.mp hagree
    have hd := hes e (by simp)
    have hfirst := Deed.dwindled_perform hd h (mt he.issued.mp (hu e (by simp)))
    exact hfirst.trans (ih (fun e he => hes e (by simp [he])) (perform_keeps hd h).coherent hrest
      fun e he => hu e (by simp [he]))

theorem exists_token_performAll {e : Exchange} (he : e ∈ es) (hissued : e.Issued) :
    ∃ symbol, (Key.token symbol).encode ∈ (c.performAll s t (es.map Prod.fst)).2.writes := by
  induction es generalizing t with
  | nil => cases he
  | cons f es ih =>
    rw [List.map_cons, Contract.performAll_cons] at hagree ⊢
    obtain ⟨hf, hrest⟩ := List.forall₂_cons.mp hagree
    have hd := hes f (by simp)
    have hlater : ∀ e ∈ es, e.1.isInvocation := fun e he => hes e (by simp [he])
    rcases List.mem_cons.mp he with rfl | he
    · obtain ⟨symbol, hk⟩ := Deed.exists_token_of_issued h (hf.issued.mpr hissued)
      refine ⟨symbol, mem_writes_performAll (fun d hd => ?_) hk⟩
      obtain ⟨e, he, rfl⟩ := List.mem_map.mp hd
      exact hlater e he
    · exact ih hlater (perform_keeps hd h).coherent hrest he

end PerformAll

/-- Unless a transaction is stale, nothing for administrators was done within it. -/
def Transaction.Unissued (s : Store) (t : Transaction) (es : List Exchange) : Prop :=
  t.stale? s = none → ∀ e ∈ es, ¬ e.Issued

section Tracked

variable {c : Contract} {s s' : Store} {t : Transaction} {es : List Exchange}

theorem Tracked.unissued (h : Tracked c s t es) (hs : s.Sound)
    (hw : ∀ symbol, (Key.token symbol).encode ∉ t.writes) : t.Unissued s es := by
  intro hnew e he hissued
  obtain ⟨hwrites, hagree⟩ := (h.repeatable hnew).again s hs.coherent (.refl t s)
  obtain ⟨symbol, hk⟩ := exists_token_performAll h.invocations hs.coherent hagree he hissued
  exact hw symbol (hwrites ▸ hk)

theorem Tracked.dwindled_commit (h : Tracked c s t es) (hs : s.Sound) (hu : t.Unissued s es)
    (hcommit : t.commit s = .ok s') : Dwindled s.live s'.live := by
  obtain ⟨hagain, hagree⟩ := h.commit_again hs hcommit
  rw [Transaction.live_commit hagain]
  exact dwindled_performAll h.invocations hs.coherent hagree (hu (Transaction.commit_eq_ok.mp hcommit).1)

end Tracked

/-- A session in a journal, with no transaction that could still issue anything. -/
structure Quiet (c : Contract) (n : Nat) (x : Session) (j : Journal) : Prop extends Followed c n x j where
  unissued : ∀ tx, (x.transaction tx).Unissued x.store (j.exchanges tx)

section Steps

variable {c : Contract} {n : Nat} {x : Session} {j : Journal} (h : Quiet c n x j)

include h

theorem Quiet.insert (tx : String) {t : Transaction} {es : List Exchange} (ht : Tracked c x.store t es)
    (hu : t.Unissued x.store es) :
    Quiet c n { x with opened := x.opened.insert tx t } { j with opened := j.opened.insert tx es } where
  toFollowed := h.toFollowed.insert tx ht
  unissued := Table.related_insert (R := Transaction.Unissued x.store) h.unissued tx hu

theorem Quiet.erase (tx : String) :
    Quiet c n { x with opened := x.opened.erase tx } { j with opened := j.opened.erase tx } where
  toFollowed := h.toFollowed.erase tx
  unissued := Table.related_erase (R := Transaction.Unissued x.store) h.unissued tx (by simp [Transaction.Unissued])

theorem Quiet.commit {t : Transaction} {es : List Exchange} (ht : Tracked c x.store t es) {s : Store}
    (hs : t.commit x.store = .ok s) (hn : n + j.committed.length + 1 < UInt64.size) :
    Quiet c n { x with store := s } { j with committed := j.committed ++ [es] } where
  toFollowed := h.toFollowed.commit ht hs hn
  unissued tx hnew := by
    have hh := h.height
    exact h.unissued tx ((h.tracked tx).stale?_before hs (by omega) hnew)

theorem Quiet.step {a : Step} (ha : a.interleaves) (hadmin : a.byAdmin = false)
    (hn : n + (j.note a (x.step c a).1).committed.length < UInt64.size) :
    Quiet c n (x.step c a).2 (j.note a (x.step c a).1) ∧ Dwindled x.store.live (x.step c a).2.store.live := by
  have hempty : Transaction.empty.Unissued x.store [] := by simp [Transaction.Unissued]
  cases a with
  | begin tx => exact ⟨h.insert tx (tracked_empty c x.store) hempty, .refl _⟩
  | drop tx => exact ⟨h.erase tx, .refl _⟩
  | committed k => exact ⟨h, .refl _⟩
  | save => exact ⟨h, .refl _⟩
  | reload => cases ha
  | load path b => cases ha
  | commit tx =>
    rw [Session.step] at hn ⊢
    cases hs : (x.transaction tx).commit x.store with
    | error f => exact ⟨h.erase tx, .refl _⟩
    | ok s =>
      simp only [hs, Journal.note, List.length_append, List.length_singleton] at hn
      exact ⟨(h.commit (h.tracked tx) hs (by omega)).erase tx,
        (h.tracked tx).dwindled_commit h.sound (h.unissued tx) hs⟩
  | run tx d =>
    have hlater {t : Transaction} {es : List Exchange} (ht : t.Unissued x.store es) :
        (d.perform c x.store t).2.Unissued x.store (es ++ [(d, (d.perform c x.store t).1)]) := by
      intro hnew e he
      rcases List.mem_append.mp he with he | he
      · exact ht (Deed.stale?_of_perform hnew) e he
      · rw [List.mem_singleton.mp he]
        exact Deed.not_issued_perform hadmin
    cases tx with
    | some tx => exact ⟨h.insert tx ((h.tracked tx).perform h.sound ha) (hlater (h.unissued tx)), .refl _⟩
    | none =>
      rw [Session.step] at hn ⊢
      rcases x.alone_cases c d with ⟨a, s, hr, hs, he⟩ | ⟨f, he⟩
      · have ht := (tracked_empty c x.store).perform h.sound ha
        have hu := ht.dwindled_commit h.sound (hlater hempty) hs
        rw [hr] at ht
        rw [he] at hn ⊢
        simp only [Journal.note, List.length_append, List.length_singleton] at hn
        exact ⟨h.commit ht hs (by omega), hu⟩
      · rw [he]
        exact ⟨h, .refl _⟩

end Steps

section Runs

variable {c : Contract} {as bs : List Step} (h : Contractual c as)
  (hq : Quiet c 0 (Session.run c .empty as).2 (Journal.run c .empty .empty as))

include h hq

theorem Quiet.snoc {b : Step} (hb : b.interleaves ∨ b = .reload) (hadmin : b.byAdmin = false)
    (hn : (Journal.run c .empty .empty (as ++ [b])).committed.length < UInt64.size) :
    Quiet c 0 (Session.run c .empty (as ++ [b])).2 (Journal.run c .empty .empty (as ++ [b])) ∧
      Dwindled (Session.run c .empty as).2.store.live (Session.run c .empty (as ++ [b])).2.store.live := by
  rcases hb with hb | rfl
  · rw [Session.run_append]
    rw [Journal.run_append] at hn ⊢
    exact hq.step hb hadmin (by rw [Nat.zero_add]; exact hn)
  · have hstore : (Session.run c .empty (as ++ [.reload])).2 = ⟨(Session.run c .empty as).2.store, ∅⟩ := by
      rw [Session.run_append]
      simp only [Session.run, Session.step, Session.load, Snapshot.load_save]
    refine ⟨⟨h.reload.followed hn, fun tx => ?_⟩, by rw [hstore]; exact .refl _⟩
    have hj : (Journal.run c .empty .empty (as ++ [.reload])).exchanges tx = [] := by
      rw [Journal.run_append]
      simp [Journal.run, Session.step, Session.load, Snapshot.load_save, Journal.note, Journal.exchanges]
    simp [Transaction.Unissued, hj]

theorem Quiet.continue_run (hbs : ∀ b ∈ bs, b.interleaves ∨ b = .reload) (hadmin : ∀ b ∈ bs, b.byAdmin = false)
    (hn : (Journal.run c .empty .empty (as ++ bs)).committed.length < UInt64.size) :
    Quiet c 0 (Session.run c .empty (as ++ bs)).2 (Journal.run c .empty .empty (as ++ bs)) ∧
      Dwindled (Session.run c .empty as).2.store.live (Session.run c .empty (as ++ bs)).2.store.live := by
  induction bs using List.reverseRecOn with
  | nil =>
    rw [List.append_nil]
    exact ⟨hq, .refl _⟩
  | append_singleton bs b ih =>
    have hearlier : ∀ b ∈ bs, b.interleaves ∨ b = .reload := fun b hb => hbs b (by simp [hb])
    rw [← List.append_assoc] at hn ⊢
    obtain ⟨hquiet, hfirst⟩ := ih hearlier (fun b hb => hadmin b (by simp [hb]))
      (Journal.committed_lt_of_earlier (List.prefix_append (as ++ bs) [b]) hn)
    obtain ⟨hend, hlast⟩ := hquiet.snoc (h.append hearlier) (hbs b (by simp)) (hadmin b (by simp)) hn
    exact ⟨hend, hfirst.trans hlast⟩

end Runs

/-- A store with the same tokens as another one, and no more of any. -/
structure Store.Dwindled (s r : Store) : Prop where
  listed : ∀ symbol, Option.Rel (fun b d => ∃ t u, Token.codec.decode b = .ok t ∧ Token.codec.decode d = .ok u ∧
    Token.Dwindled t u) (s.value? (Key.token symbol).encode) (r.value? (Key.token symbol).encode)
  circulating : ∀ symbol, ∃ m n, circulation? s.live symbol = some m ∧ circulation? r.live symbol = some n ∧ n ≤ m

theorem Live.Dwindled.store {s r : Store} (hs : Coherent s.live) (hr : Coherent r.live) (h : Dwindled s.live r.live) :
    s.Dwindled r where
  listed symbol := by
    have h := h.listed symbol
    rw [← Store.getElem?_live, ← Store.getElem?_live]
    cases hb : s.live[(Key.token symbol).encode]? with
    | none =>
      rw [hs.token?_eq_none_iff.mpr hb] at h
      cases hu : token? r.live symbol with
      | none =>
        rw [hr.token?_eq_none_iff.mp hu]
        exact .none
      | some u =>
        rw [hu] at h
        cases h
    | some b =>
      obtain ⟨t, ht, hlisted⟩ := hs.listed hb
      rw [hlisted] at h
      cases hd : r.live[(Key.token symbol).encode]? with
      | none =>
        rw [hr.token?_eq_none_iff.mpr hd] at h
        cases h
      | some d =>
        obtain ⟨u, hu, hlisted⟩ := hr.listed hd
        rw [hlisted] at h
        cases h with | some h => exact .some ⟨t, u, ht, hu, h⟩
  circulating symbol := ⟨_, _, hs.circulation?_eq symbol, hr.circulation?_eq symbol, h.circulating symbol⟩

/-- Without administrators nothing is issued and nothing is described anew. From any store that a session has
come to, while none of its open transactions has written a token, whatever others do in any order leaves the
same tokens listed under the same names, types and lock-up dates, and never more of any, be it in its supply
or in what circulates. What is for administrators is refused to them, and their transaction has neither read
nor written anything by it. -/
theorem dwindled_without_admin {c : Contract} {as bs ds : List Step} (h : Contractual c as)
    (hopen : ∀ tx symbol, (Key.token symbol).encode ∉ ((Session.run c .empty as).2.transaction tx).writes)
    (hsteps : ∀ b ∈ bs ++ ds, b.interleaves ∨ b = .reload) (hadmin : ∀ b ∈ bs ++ ds, b.byAdmin = false)
    (hn : (Journal.run c .empty .empty (as ++ (bs ++ ds))).committed.length < UInt64.size) :
    (Session.run c .empty (as ++ bs)).2.store.Dwindled (Session.run c .empty (as ++ (bs ++ ds))).2.store ∧
      ∀ (s : Store) (t : Transaction) (op : Operation) (role : Option Role) (args : List String),
        op.requiresAdmin → role ≠ some .admin →
          ∃ f : Failure, c.invoke s t role op.name args = (.error f, t) ∧ f.kind = .auth := by
  refine ⟨?_, fun s t op role args hop hrole => ⟨_, c.invoke_forbidden s t hop hrole args, rfl⟩⟩
  have hbs : ∀ b ∈ bs, b.interleaves ∨ b = .reload := fun b hb => hsteps b (by simp [hb])
  have hds : ∀ b ∈ ds, b.interleaves ∨ b = .reload := fun b hb => hsteps b (by simp [hb])
  rw [← List.append_assoc] at hn ⊢
  have hmiddle := Journal.committed_lt_of_earlier (List.prefix_append (as ++ bs) ds) hn
  have hlast := h.followed (Journal.committed_lt_of_earlier (List.prefix_append as bs) hmiddle)
  have hquiet : Quiet c 0 (Session.run c .empty as).2 (Journal.run c .empty .empty as) :=
    ⟨hlast, fun tx => (hlast.tracked tx).unissued hlast.sound (hopen tx)⟩
  obtain ⟨hquiet, -⟩ := hquiet.continue_run h hbs (fun b hb => hadmin b (by simp [hb])) hmiddle
  obtain ⟨hend, hdwindled⟩ :=
    hquiet.continue_run (h.append hbs) hds (fun b hb => hadmin b (by simp [hb])) hn
  exact hdwindled.store hquiet.sound.coherent hend.sound.coherent

/-- An administrator looks at a token, in a transaction that stays open. -/
def looking : List Step :=
  listing ++ [.begin "t", .run (some "t") (.invoke (some .admin) "getToken" ["GLD"])]

def destroying : List Step :=
  [.run (some "t") (.invoke (some .user) "burn" [fromAlice]),
   .run (some "t") (.invoke (some .user) "mint" [fromAlice]), .commit "t"]

theorem dwindled_without_admin_destroying :
    (Session.run .signing .empty (looking ++ [])).2.store.Dwindled
        (Session.run .signing .empty (looking ++ ([] ++ destroying))).2.store ∧
      ∃ f : Failure, Contract.signing.invoke .empty .empty (some .user) "mint" [fromAlice] = (.error f, .empty) ∧
        f.kind = .auth := by
  have hwrites : (Session.run .signing .empty looking).2.opened.toList.all fun (_, t) => t.writes.isEmpty := by
    decide +kernel
  have h := @dwindled_without_admin .signing looking [] destroying
    (.of_interleaves .signing (by decide)) ?_ (fun b hb => .inl ?_) (by decide) ?_
  · exact ⟨h.1, h.2 .empty .empty .mint (some .user) [fromAlice] rfl (by decide)⟩
  · intro tx symbol hk
    rw [Session.transaction] at hk
    cases ht : (Session.run .signing .empty looking).2.opened[tx]? with
    | none => simp [ht, Transaction.empty] at hk
    | some t =>
      have he := List.all_eq_true.mp hwrites (tx, t) (Std.ExtTreeMap.mem_toList_iff_getElem?_eq_some.mpr ht)
      rw [ht, Option.getD_some, Std.ExtTreeMap.isEmpty_iff.mp he] at hk
      exact Std.ExtTreeMap.not_mem_empty hk
  · exact (by decide : ∀ b ∈ [] ++ destroying, b.interleaves) b hb
  · exact lt_of_le_of_lt (Journal.committed_run_le .signing .empty .empty _) (by decide)

end TokenLedger
