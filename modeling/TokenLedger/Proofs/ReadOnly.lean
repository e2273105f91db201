import TokenLedger.Proofs.Deed

/-! Invocations that write nothing. The writes of a request come last, so an invocation that fails has only read,
and so has every invocation that asks. This needs nothing of the store: its documents may be of any form. The
transaction can go on, and what is done in it later comes out as if the invocation had not been made. -/

namespace TokenLedger

def Operation.asks : Operation → Bool
  | .getToken | .getTokenInfoByType | .getTokenListByType | .checkAddressExist | .getWalletType
  | .balanceOf | .getFinancialScores | .getBalancesOfAddress | .getBalancesOfTokenHolders
  | .getTokenHolderList => true
  | _ => false

def Contract.carryOn (c : Contract) : Transaction → List (Store × Deed) →
    List (Except Failure Answer) × Transaction
  | t, [] => ([], t)
  | t, (s, d) :: later =>
    let (r, t) := d.perform c s t
    let (rs, t) := c.carryOn t later
    (r :: rs, t)

theorem Contract.carryOn_cons (c : Contract) (t : Transaction) (s : Store) (d : Deed) (later : List (Store × Deed)) :
    c.carryOn t ((s, d) :: later) =
      ((d.perform c s t).1 :: (c.carryOn (d.perform c s t).2 later).1,
        (c.carryOn (d.perform c s t).2 later).2) :=
  rfl

/-- What became of a transaction if it has only read since: it has kept versions of the store. Whatever
follows in it, whatever others do to the store meanwhile, answers and writes the same, and as long as
nobody rewrites what was read anew, a commit comes out the same. -/
structure Transaction.OnlyRead (c : Contract) (s : Store) (t u : Transaction) : Prop where
  writes : u.writes = t.writes
  reads : ∃ versions : Table UInt64, u = t.note versions ∧
    ∀ (k : String) (v : UInt64), versions[k]? = some v → v = s.version k
  answers : ∀ later, (c.carryOn u later).1 = (c.carryOn t later).1
  pending : ∀ later, (c.carryOn u later).2.writes = (c.carryOn t later).2.writes
  commits : ∀ (later : List (Store × Deed)) (r : Store),
    (∀ k ∈ u.reads, k ∉ t.reads →
      r.version k = s.version k ∧ ∀ p ∈ later, p.1.version k = s.version k) →
    (c.carryOn u later).2.commit r = (c.carryOn t later).2.commit r

namespace Transaction

theorem stale?_congr {s : Store} {t u : Transaction}
    (h : ∀ k, u.reads[k]?.filter (s.version k != ·) = t.reads[k]?.filter (s.version k != ·)) :
    u.stale? s = t.stale? s := by
  have hf (r : Transaction) : r.stale? s =
      (r.reads.filter fun k v => s.version k != v).toList.head?.map (·.1) := by
    rw [Std.ExtTreeMap.toList_filter, List.head?_filter]
    rfl
  rw [hf, hf]
  congr 3
  refine Std.ExtTreeMap.ext_getElem? fun k => ?_
  rw [Std.ExtTreeMap.getElem?_filter', Std.ExtTreeMap.getElem?_filter', h]

end Transaction

section Deeds

variable {c : Contract} {s : Store} {t u : Transaction} {later : List (Store × Deed)}

theorem carryOn_congr (h : u.writes = t.writes) : (c.carryOn u later).1 = (c.carryOn t later).1 ∧
    (c.carryOn u later).2.writes = (c.carryOn t later).2.writes := by
  induction later generalizing t u with
  | nil => exact ⟨rfl, h⟩
  | cons p later ih =>
    obtain ⟨s, d⟩ := p
    obtain ⟨hanswer, hwrites⟩ := Deed.perform_congr (c := c) (s := s) (d := d) h
    obtain ⟨hanswers, hrest⟩ := ih hwrites
    rw [Contract.carryOn_cons, Contract.carryOn_cons, hanswer, hanswers]
    exact ⟨rfl, hrest⟩

/-- A version that is kept in the end was kept before, or is one of the stores on which something was
done. -/
theorem carryOn_reads_cases {k : String} {v : UInt64} (h : (c.carryOn t later).2.reads[k]? = some v) :
    t.reads[k]? = some v ∨ ∃ p ∈ later, v = p.1.version k := by
  induction later generalizing t with
  | nil => exact .inl h
  | cons p later ih =>
    obtain ⟨s, d⟩ := p
    rw [Contract.carryOn_cons] at h
    rcases ih h with h | ⟨q, hq, rfl⟩
    · rw [Deed.getElem?_reads_perform, Option.or_eq_some_iff] at h
      rcases h with h | ⟨-, h⟩
      · exact .inl h
      · exact .inr ⟨(s, d), by simp, Deed.kept_eq_some h⟩
    · exact .inr ⟨q, by simp [hq], rfl⟩

theorem getElem?_reads_carryOn {o : Transaction} {versions : Table UInt64} (hw : u.writes = t.writes)
    (h : ∀ k : String, u.reads[k]? = o.reads[k]?.or (versions[k]?.or t.reads[k]?)) (k : String) :
    (c.carryOn u later).2.reads[k]? = o.reads[k]?.or (versions[k]?.or (c.carryOn t later).2.reads[k]?) := by
  induction later generalizing t u with
  | nil => exact h k
  | cons p later ih =>
    obtain ⟨s, d⟩ := p
    rw [Contract.carryOn_cons, Contract.carryOn_cons]
    refine ih (Deed.perform_congr hw).2 fun (j : String) => ?_
    rw [Deed.getElem?_reads_perform, Deed.getElem?_reads_perform, h, hw, Option.or_assoc, Option.or_assoc]

theorem getElem?_reads_carryOn_of_reads {k : String} {v : UInt64} (h : t.reads[k]? = some v) :
    (c.carryOn t later).2.reads[k]? = some v := by
  induction later generalizing t with
  | nil => exact h
  | cons p later ih =>
    obtain ⟨s, d⟩ := p
    rw [Contract.carryOn_cons]
    exact ih (by rw [Deed.getElem?_reads_perform, h, Option.some_or])

theorem stale?_carryOn_note {versions : Table UInt64} {r : Store}
    (hs : ∀ (k : String) (v : UInt64), versions[k]? = some v → v = s.version k)
    (hsame : ∀ k ∈ versions, k ∉ t.reads →
      r.version k = s.version k ∧ ∀ p ∈ later, p.1.version k = s.version k) :
    (c.carryOn (t.note versions) later).2.stale? r = (c.carryOn t later).2.stale? r := by
  have hfirst : ∀ k : String, (t.note versions).reads[k]? = t.reads[k]?.or (versions[k]?.or t.reads[k]?) := by
    intro k
    rw [Transaction.getElem?_reads_note]
    cases t.reads[k]? <;> simp
  refine Transaction.stale?_congr fun k => ?_
  rw [getElem?_reads_carryOn (Transaction.writes_note t versions) hfirst]
  cases ht : t.reads[k]? with
  | some v => rw [getElem?_reads_carryOn_of_reads ht, Option.some_or]
  | none =>
    rw [Option.none_or]
    cases hv : versions[k]? with
    | none => rw [Option.none_or]
    | some v =>
      obtain rfl := hs k v hv
      have hk : k ∈ versions := Std.ExtTreeMap.mem_iff_isSome_getElem?.mpr (by rw [hv]; rfl)
      have ho : k ∉ t.reads := fun hm => by
        simpa [ht] using Std.ExtTreeMap.mem_iff_isSome_getElem?.mp hm
      obtain ⟨hr, hlater⟩ := hsame k hk ho
      cases hkept : (c.carryOn t later).2.reads[k]? with
      | none => simp [Option.filter, hr]
      | some w =>
        rcases carryOn_reads_cases hkept with hkept | ⟨p, hp, rfl⟩
        · rw [ht] at hkept
          cases hkept
        · simp [Option.filter, hr, hlater p hp]

end Deeds

theorem Transaction.onlyRead_note (c : Contract) {s : Store} (t : Transaction) {versions : Table UInt64}
    (hs : ∀ (k : String) (v : UInt64), versions[k]? = some v → v = s.version k) :
    OnlyRead c s t (t.note versions) where
  writes := rfl
  reads := ⟨versions, rfl, hs⟩
  answers later := (carryOn_congr (writes_note t versions)).1
  pending later := (carryOn_congr (writes_note t versions)).2
  commits later r hsame := by
    have hw : (c.carryOn (t.note versions) later).2.writes = (c.carryOn t later).2.writes :=
      (carryOn_congr (writes_note t versions)).2
    have hnew : ∀ k ∈ versions, k ∈ (t.note versions).reads := fun k hk =>
      Std.ExtTreeMap.mem_union_of_left hk
    rw [commit, commit, hw, stale?_carryOn_note hs fun k hk => hsame k (hnew k hk)]

namespace Live

open Query

/-- The same by the name of the operation. -/
def asks (name : String) : Bool := (Operation.ofName? name).any (·.asks)

theorem changes_of_asks {c : Contract} {l : Table Bytes} {op : Operation} {args : List String} {e : Effect Bytes}
    (hop : op.asks) (he : (c.operate op args).plan.eval l = .ok e) : e.changes = [] := by
  obtain ⟨i, hi, he⟩ := operate_eq_ok.mp he
  cases hi with
  | ask hq =>
    rw [Instruction.plan_ask, eval_map_eq_ok] at he
    obtain ⟨b, -, rfl⟩ := he
    rfl
  | order ho => cases ho <;> cases hop
  | file hf => cases hf <;> cases hop

theorem changes_of_request {c : Contract} {l : Table Bytes} {role : Option Role} {name : String}
    {args : List String} {e : Effect Bytes} (hname : asks name)
    (he : (c.request role name args).plan.eval l = .ok e) : e.changes = [] := by
  obtain ⟨op, hop, -, he⟩ := request_eq_ok.mp he
  refine changes_of_asks ?_ he
  rw [asks, Option.any_eq_true] at hname
  obtain ⟨o, ho, hasks⟩ := hname
  have hparse : Operation.parse name = .ok o := by rw [Operation.parse, ho]
  rw [hop] at hparse
  cases hparse
  exact hasks

end Live

/-- An invocation that fails has only read, and so has one that asks, whatever it answers. -/
theorem invoke_onlyRead (c : Contract) (s : Store) (t : Transaction) (role : Option Role) (name : String)
    (args : List String)
    (h : (∃ f, (c.invoke s t role name args).1 = .error f) ∨ Live.asks name) :
    t.OnlyRead c s (c.invoke s t role name args).2 := by
  have hread : (c.invoke s t role name args).2 = t.note ((c.request role name args).plan.kept s t.writes) := by
    rw [Contract.invoke_eq, Query.perform_eq] at h ⊢
    cases he : (c.request role name args).plan.eval (t.view s) with
    | error f => exact Query.run_snd _ s t
    | ok e =>
      have hnothing : e.changes = [] := by
        rcases h with ⟨f, hf⟩ | hname
        · rw [he] at hf
          cases hf
        · exact Live.changes_of_request hname he
      dsimp only
      rw [hnothing, Transaction.applyAll_nil]
      exact Query.run_snd _ s t
  rw [hread]
  exact t.onlyRead_note c fun k v => Query.kept_eq_some

def tooMuch : String := "\x7b\"Token\":\"GLD\",\"From\":\"alice\",\"Amount\":9\x7d"

theorem invoke_onlyRead_tooMuch :
    let t := Transaction.empty.put (.wallet "bob") (some [])
    let p := Contract.signing.invoke listed.store t none "burn" [tooMuch]
    p.1 = .error (.insufficientFunds ⟨500000000, by decide⟩ ⟨900000000, by decide⟩) ∧
      t.OnlyRead .signing listed.store p.2 := by
  intro t p
  have hfails : p.1 = .error (.insufficientFunds ⟨500000000, by decide⟩ ⟨900000000, by decide⟩) := by
    decide +kernel
  exact ⟨hfails, invoke_onlyRead .signing listed.store t none "burn" [tooMuch] (.inl ⟨_, hfails⟩)⟩

end TokenLedger
