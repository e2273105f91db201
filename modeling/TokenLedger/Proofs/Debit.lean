import TokenLedger.Proofs.Coherence

/-! Who can take from an account. Administrators can, and whoever has the sender's signature under a
transfer; tokens can also be destroyed, and moved in batches, without either. -/

namespace TokenLedger

open Live

inductive Entitled (c : Contract) (a : Account) : Option Role → String → List String → Prop
  | admin (name : String) (args : List String) : Entitled c a (some .admin) name args
  /-- A transfer from the account, whose digest is signed under its address. -/
  | signed (role : Option Role) {request digest signature : String} {t : Transfer}
      (read : Argument.transfer.read Transfer.codec request = .ok t) (sender : t.sender = a.address)
      (token : t.token = a.token) (accepted : c.verify a.address (Hex.text t.digest) signature = .ok ()) :
      Entitled c a role "transfer" [request, digest, signature]
  /-- A request to destroy some of what the account holds. -/
  | burn (role : Option Role) {request : String} {r : Transfer}
      (read : Argument.burnRequest.read Transfer.codec request = .ok r) (sender : r.sender = a.address)
      (token : r.token = a.token) : Entitled c a role "burn" [request]
  /-- A batch with a transfer from the account. -/
  | batch (role : Option Role) {requests : List String} {ts : List Transfer} {t : Transfer}
      (read : requests.mapM (Argument.transfer.read Transfer.codec) = .ok ts) (entry : t ∈ ts)
      (effective : t.isEffective) (sender : t.sender = a.address) (token : t.token = a.token) :
      Entitled c a role "multitransfer" requests

theorem authorise_eq_ok {verify : Verifier} {t : Transfer} {digest signature : String}
    (h : authorise verify t digest signature = .ok ()) : verify t.sender (Hex.text t.digest) signature = .ok () := by
  simp only [authorise] at h
  split at h
  · exact h
  · cases h

theorem Operation.admin_of_permit {op : Operation} {role : Option Role} (hop : op.requiresAdmin)
    (h : op.permit role = .ok ()) : role = some .admin := by
  by_contra hne
  simp [permit, requireRole, hop, hne] at h

namespace Live

section Carried

variable {c : Contract} {l : Table Bytes} {op : Operation} {args : List String} {cs : List Change}
  {a : Account}

theorem Coherent.sender_of_batch (h : Coherent l) {ts : List Transfer} {m : Touched}
    (hm : (Touched.transferAll ∅ ts).eval l = .ok m) (hless : held (overlay l m) a < held l a) :
    ∃ t ∈ ts, t.isEffective ∧ a = ⟨t.sender, t.token⟩ := by
  by_contra hnone
  have hkept := (h.transferAll_induction (P := fun n => held l a ≤ held n a) (fun n t s r hmem heff hfits hmove hle =>
    hle.trans ((hfits.coherent_overlay h).held_le_settle hmove fun ha => hnone ⟨t, hmem, heff, ha⟩))
    fits_empty (by rw [overlay_empty]) hm).2
  omega

theorem Carried.entitled (h : Coherent l) (hc : Carried c l op args cs) (role : Option Role)
    (hop : op.requiresAdmin = false) (hless : held (applyAll l cs) a < held l a) :
    Entitled c a role op.name args := by
  have hother {ch : Change} (hns : ch.key.ns ≠ .balances) : ¬ held (applyAll l [ch]) a < held l a := by
    rw [applyAll_cons, applyAll_nil, held_apply_of_ne l ch fun he => hns (by rw [he]; rfl)]
    exact Nat.lt_irrefl _
  cases hc with
  | nothing => exact absurd hless (Nat.lt_irrefl _)
  | register | remove | update | mint => cases hop
  | wallet | firstScores | newScores => exact absurd hless (hother nofun)
  | initialise address symbol =>
    obtain ⟨hp, ha⟩ := h.balance_plain ⟨address, symbol⟩
    rw [applyAll_cons, applyAll_nil, held_apply_balance _ hp, ha] at hless
    split at hless
    · rename_i he
      rw [he] at hless
      exact absurd hless (Nat.lt_irrefl _)
    · exact absurd hless (Nat.lt_irrefl _)
  | @transfer request digest signature t s r read signed effective moved =>
    have ha : a = ⟨t.sender, t.token⟩ := by
      by_contra hne
      have hle := h.held_le_settle moved hne
      rw [← h.overlay_pair moved] at hle
      exact absurd hless (Nat.not_lt.mpr hle)
    subst ha
    exact .signed role read rfl rfl (authorise_eq_ok signed)
  | multitransfer read moved =>
    obtain ⟨t, ht, heff, rfl⟩ := h.sender_of_batch moved hless
    exact .batch role read ht heff rfl rfl
  | @burn request r t x y read listed taken =>
    obtain ⟨hp, ha⟩ := h.balance_plain ⟨r.sender, r.token⟩
    have htoken : (Change.token { t with supply := y }).key ≠ a.key := fun he => by cases congrArg Key.ns he
    rw [applyAll_cons, applyAll_cons, applyAll_nil, held_apply_of_ne _ _ htoken,
      held_apply_balance _ (hp.with_amount x)] at hless
    split at hless
    · rename_i he
      have he : (balance l ⟨r.sender, r.token⟩).account = a := he
      rw [ha] at he
      subst he
      exact .burn role read rfl rfl
    · exact absurd hless (Nat.lt_irrefl _)

end Carried

end Live

/-- An invocation that leaves less on an account is by an administrator, or the sender has signed it, or it
is one of those that nobody signs and that name the account as their sender. -/
theorem debit_entitled {c : Contract} {x : Session} (h : c.Reaches x) {tx : String} {role : Option Role}
    {name : String} {args : List String} {b : Bytes} {u : Transaction} {a : Account}
    (hok : c.invoke x.store (x.transaction tx) role name args = (.ok b, u))
    (hless : held (u.view x.store) a < held ((x.transaction tx).view x.store) a) :
    Entitled c a role name args := by
  have hview := h.coherent.view tx
  have hu := Query.view_perform (c.request role name args).plan x.store (x.transaction tx) x.store
  rw [c.invoke_eq] at hok
  rw [hok] at hu
  rw [Query.perform_eq] at hok
  cases he : (c.request role name args).plan.eval ((x.transaction tx).view x.store) with
  | error f => simp [he] at hok
  | ok e =>
    obtain ⟨op, hname, hpermit, hc⟩ := hview.carried_request he
    simp only [he] at hu
    rw [hu] at hless
    rw [Operation.name_of_parse hname]
    cases hop : op.requiresAdmin with
    | true =>
      rw [Operation.admin_of_permit hop hpermit]
      exact .admin _ _
    | false => exact hc.entitled hview role hop hless

def fromAlice : String :=
  "\x7b\"Token\":\"GLD\",\"From\":\"alice\",\"To\":\"bob\",\"AvoidCheckTo\":true,\"Amount\":1\x7d"

theorem taken_by_user {name : String} (hname : name = "burn" ∨ name = "multitransfer") :
    ∃ b u, Contract.signing.invoke listed.store (listed.transaction "t") (some .user) name [fromAlice] = (.ok b, u) ∧
      held (u.view listed.store) ⟨"alice", "GLD"⟩ <
        held ((listed.transaction "t").view listed.store) ⟨"alice", "GLD"⟩ := by
  have hpair {p : Except Failure Bytes × Transaction} {l : Table Bytes} {a : Account}
      (hp : p.1.isOk ∧ held (p.2.view listed.store) a < held l a) :
      ∃ b u, p = (.ok b, u) ∧ held (u.view listed.store) a < held l a := by
    obtain ⟨r, u⟩ := p
    cases r with
    | ok b => exact ⟨b, u, rfl, hp.2⟩
    | error f => cases hp.1
  rcases hname with rfl | rfl
  · exact hpair (by decide +kernel)
  · exact hpair (by decide +kernel)

theorem debit_entitled_burn : Entitled .signing ⟨"alice", "GLD"⟩ (some .user) "burn" [fromAlice] := by
  obtain ⟨b, u, hok, hless⟩ := taken_by_user (.inl rfl)
  exact debit_entitled reaches_listed hok hless

/-- That an operation of the contract takes from accounts for administrators and for signatures of the
sender only. -/
def SignedOnly (c : Contract) (name : String) : Prop :=
  ∀ (x : Session) (tx : String) (role : Option Role) (args : List String) (b : Bytes) (u : Transaction)
    (a : Account), c.Reaches x → c.invoke x.store (x.transaction tx) role name args = (.ok b, u) →
    held (u.view x.store) a < held ((x.transaction tx).view x.store) a →
    role = some .admin ∨ name = "transfer" ∧ ∃ request digest signature t,
      args = [request, digest, signature] ∧ Argument.transfer.read Transfer.codec request = .ok t ∧
      t.sender = a.address ∧ c.verify a.address (Hex.text t.digest) signature = .ok ()

/-- Burning takes from accounts without either, and so do batches. -/
theorem not_signedOnly : ¬ SignedOnly .signing "burn" ∧ ¬ SignedOnly .signing "multitransfer" := by
  have hrefuted {name : String} (hname : name = "burn" ∨ name = "multitransfer") :
      ¬ SignedOnly .signing name := by
    intro h
    obtain ⟨b, u, hok, hless⟩ := taken_by_user hname
    rcases h listed "t" (some .user) [fromAlice] b u _ reaches_listed hok hless with hadmin | ⟨htransfer, -⟩
    · cases hadmin
    · rcases hname with rfl | rfl
      · simp at htransfer
      · simp at htransfer
  exact ⟨hrefuted (.inl rfl), hrefuted (.inr rfl)⟩

end TokenLedger
