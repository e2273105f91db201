import TokenLedger.Proofs.Envelope
import TokenLedger.Proofs.ReadOnly

/-! What operations tell. Six operations answer with an envelope; whatever the store holds, it lists the records
that the operation writes and no other ones. All other operations write in one namespace at most. -/

namespace TokenLedger

open Live Query

section FiledBy

variable {κ α : Type} [Ord κ] [Std.TransOrd κ] {key : α → κ} {m : Std.ExtTreeMap κ α}

/-- Each record is kept under the key that it has itself. -/
def FiledBy (key : α → κ) (m : Std.ExtTreeMap κ α) : Prop := ∀ k a, m[k]? = some a → key a = k

theorem filedBy_empty : FiledBy key ∅ := by
  intro k a h
  simp at h

variable [Std.LawfulEqOrd κ]

theorem FiledBy.insert (h : FiledBy key m) (a : α) : FiledBy key (m.insert (key a) a) := by
  intro k b hb
  rw [Std.ExtTreeMap.getElem?_insert] at hb
  split at hb
  · rename_i hk
    cases hb
    exact Std.LawfulEqOrd.eq_of_compare hk
  · exact h k b hb

theorem FiledBy.eq_of_mem (h : FiledBy key m) {p : κ × α} (hp : p ∈ m.toList) : key p.2 = p.1 :=
  h p.1 p.2 (Std.ExtTreeMap.mem_toList_iff_getElem?_eq_some.mp hp)

end FiledBy

namespace Envelope

def changes (e : Envelope) : List Change :=
  (e.balances.getD ∅).toList.map (fun p => .balance p.2) ++ (e.tokens.getD ∅).toList.map fun p => .token p.2

structure Filed (e : Envelope) : Prop where
  balances : FiledBy Balance.account (e.balances.getD ∅)
  tokens : FiledBy Token.symbol (e.tokens.getD ∅)

theorem filed_empty : empty.Filed := ⟨filedBy_empty, filedBy_empty⟩

theorem Filed.withBalance {e : Envelope} (h : e.Filed) (b : Balance) : (e.withBalance b).Filed :=
  ⟨h.balances.insert b, h.tokens⟩

theorem Filed.withToken {e : Envelope} (h : e.Filed) (t : Token) : (e.withToken t).Filed :=
  ⟨h.balances, h.tokens.insert t⟩

theorem Filed.withTransfer {e : Envelope} (h : e.Filed) (t : Transfer) : (e.withTransfer t).Filed :=
  ⟨h.balances, h.tokens⟩

/-- The documents that are reported are those that the changes write. -/
theorem Filed.documents_report {e : Envelope} (h : e.Filed) :
    e.report.documents.map (fun p => (p.1, some p.2)) = e.changes.map fun ch => (ch.key, ch.document) := by
  simp only [Report.documents, report, changes, List.map_append, List.map_map]
  congr 1
  · refine List.map_congr_left fun p hp => ?_
    simp [Change.key, Change.document, h.balances.eq_of_mem hp]
  · refine List.map_congr_left fun p hp => ?_
    simp [Change.key, Change.document, h.tokens.eq_of_mem hp]

/-- No key of the state is reported twice. -/
theorem Filed.nodup_changes {e : Envelope} (h : e.Filed) : (e.changes.map Change.key).Nodup := by
  obtain ⟨hbalances, htokens⟩ := e.nodup_report
  have hkeys : e.changes.map Change.key = e.report.documents.map Prod.fst := by
    have hdocuments := congrArg (List.map Prod.fst) h.documents_report
    rw [List.map_map, List.map_map] at hdocuments
    exact hdocuments.symm
  have haccount : Function.Injective Account.key := fun a b => Account.key_injective
  have hsymbol : Function.Injective Key.token := fun s t hst => List.singleton_inj.mp (congrArg Key.components hst)
  rw [hkeys, Report.documents, List.map_append, List.map_map, List.map_map]
  refine List.nodup_append.mpr ⟨?_, ?_, ?_⟩
  · have hmap := hbalances.map haccount
    rwa [List.map_map] at hmap
  · have hmap := htokens.map hsymbol
    rwa [List.map_map] at hmap
  · intro j hj k hk he
    obtain ⟨p, -, rfl⟩ := List.mem_map.mp hj
    obtain ⟨q, -, rfl⟩ := List.mem_map.mp hk
    cases congrArg Key.ns he

end Envelope

structure Effect.Told (e : Effect Envelope) : Prop where
  filed : e.answer.Filed
  changes : e.changes.Perm e.answer.changes

section Told

variable {l : Table Bytes}

theorem told_registerToken {t : Token} {holder : String} {e : Effect Envelope}
    (he : (registerToken t holder).plan.eval l = .ok e) : e.Told := by
  rw [plan_registerToken, eval_bind_eq_ok] at he
  obtain ⟨listed, -, he⟩ := he
  split at he
  · cases he
  · rw [eval_bind_eq_ok] at he
    obtain ⟨held, -, he⟩ := he
    dsimp only at he
    split at he
    · simp only [eval_bind_eq_ok, eval_pure] at he
      obtain ⟨_, -, he⟩ := he
      cases he
      exact ⟨(Envelope.filed_empty.withToken t).withBalance _, List.Perm.swap ..⟩
    · cases he

theorem told_updateToken {t : Token} {e : Effect Envelope} (he : (updateToken t).plan.eval l = .ok e) : e.Told := by
  simp only [plan_updateToken, eval_bind_eq_ok] at he
  obtain ⟨current, -, _, -, he⟩ := he
  have htold (u : Token) : (⟨Envelope.empty.withToken u, [.token u]⟩ : Effect Envelope).Told :=
    ⟨Envelope.filed_empty.withToken u, List.Perm.refl _⟩
  split at he
  · simp only [eval_bind_eq_ok, eval_pure] at he
    obtain ⟨_, -, he⟩ := he
    cases he
    exact htold _
  · cases he
    exact htold _

theorem told_supplyEffect (r : Transfer) (t : Token) (b : Balance) : (supplyEffect r t b).Told where
  filed := ((Envelope.filed_empty.withBalance b).withToken t).withTransfer r
  changes := List.Perm.refl _

theorem told_mint {r : Transfer} {e : Effect Envelope} (he : (mint r).plan.eval l = .ok e) : e.Told := by
  simp only [plan_mint, eval_bind_eq_ok, eval_pure] at he
  obtain ⟨t, -, b, -, held, -, supply, -, he⟩ := he
  cases he
  exact told_supplyEffect _ _ _

theorem told_burn {r : Transfer} {e : Effect Envelope} (he : (burn r).plan.eval l = .ok e) : e.Told := by
  simp only [plan_burn, eval_bind_eq_ok, eval_pure] at he
  obtain ⟨t, -, b, -, held, -, supply, -, he⟩ := he
  cases he
  exact told_supplyEffect _ _ _

theorem filedBy_touched_transfer {m m' : Touched} {t : Transfer} (hm : FiledBy Balance.account m)
    (he : (m.transfer t).eval l = .ok m') : FiledBy Balance.account m' := by
  simp only [Touched.transfer, eval_bind_eq_ok, eval_pure] at he
  obtain ⟨_, -, s, -, r, -, sent, -, received, -, he⟩ := he
  cases he
  exact (hm.insert _).insert _

theorem filedBy_transferAll {m m' : Touched} {ts : List Transfer} (hm : FiledBy Balance.account m)
    (he : (m.transferAll ts).eval l = .ok m') : FiledBy Balance.account m' := by
  exact foldlM_induction (fun _ n => FiledBy Balance.account n) hm (fun _ _ _ _ _ => filedBy_touched_transfer) he

/-- The answer and the changes for the balances that a request has touched. -/
theorem told_touched {m : Touched} (hm : FiledBy Balance.account m) {e : Envelope} (he : e.tokens = none) :
    (⟨{ e with balances := some m }, m.changes⟩ : Effect Envelope).Told := by
  refine ⟨⟨hm, ?_⟩, ?_⟩
  · rw [he]
    exact filedBy_empty
  · rw [Envelope.changes, he]
    exact (List.append_nil _).symm ▸ List.Perm.refl _

theorem told_transfer {t : Transfer} {e : Effect Envelope} (he : (transfer t).plan.eval l = .ok e) : e.Told := by
  rw [eval_transfer] at he
  split_ifs at he
  cases hm : (Touched.transfer ∅ t).eval l with
  | error f =>
    rw [hm] at he
    cases he
  | ok m =>
    rw [hm] at he
    cases he
    exact told_touched (filedBy_touched_transfer filedBy_empty hm) rfl

theorem told_multitransfer {ts : List Transfer} {e : Effect Envelope} (he : (multitransfer ts).plan.eval l = .ok e) :
    e.Told := by
  simp only [plan_multitransfer, eval_bind_eq_ok, eval_pure] at he
  obtain ⟨m, hm, he⟩ := he
  have htokens (e : Envelope) (ts : List Transfer) : (ts.foldl Envelope.withTransfer e).tokens = e.tokens := by
    induction ts generalizing e with
    | nil => rfl
    | cons t ts ih => exact ih _
  cases he
  exact told_touched (filedBy_transferAll filedBy_empty hm) (htokens .empty _)

end Told

/-- The operations that answer with an envelope. -/
def Operation.tells : Operation → Bool
  | .registerToken | .updateTokenInfo | .transfer | .multitransfer | .mint | .burn => true
  | _ => false

def Operation.silent : Operation → Option Namespace
  | .removeToken => some .tokens
  | .initialiseBalance => some .balances
  | .registerAddress => some .wallets
  | .initialiseFinancialScores | .updateFinancialScores => some .scores
  | _ => none

section Operate

variable {c : Contract} {l : Table Bytes} {op : Operation} {args : List String} {e : Effect Bytes}

theorem Order.Spelled.told {o : Order} (ho : Order.Spelled op args o) {e : Effect Envelope}
    (he : (o.carryOut c).plan.eval l = .ok e) :
    e.Told := by
  cases ho with
  | registerToken => exact told_registerToken he
  | updateToken => exact told_updateToken he
  | transfer =>
    rw [Order.carryOut, Action.plan_except_bind, eval_bind_eq_ok] at he
    obtain ⟨_, -, he⟩ := he
    exact told_transfer he
  | multitransfer => exact told_multitransfer he
  | mint => exact told_mint he
  | burn => exact told_burn he

theorem told_operate (hop : op.tells) (he : (c.operate op args).plan.eval l = .ok e) :
    ∃ e' : Effect Envelope, e'.Told ∧ e = e'.map Envelope.write := by
  obtain ⟨i, hi, he⟩ := operate_eq_ok.mp he
  cases hi with
  | ask hq => cases hq <;> cases hop
  | order ho =>
    rw [Instruction.plan_order, eval_map_eq_ok] at he
    obtain ⟨e', he', rfl⟩ := he
    exact ⟨e', ho.told he', rfl⟩
  | file hf => cases hf <;> cases hop

theorem Filing.Spelled.silent {f : Filing} (hf : Filing.Spelled op args f) {e : Effect Unit}
    (he : (f.carryOut c).plan.eval l = .ok e) :
    ∀ ch ∈ e.changes, op.silent = some ch.key.ns := by
  cases hf with
  | removeToken symbol =>
    rw [Filing.carryOut, plan_removeToken, eval_bind_eq_ok] at he
    obtain ⟨t, -, he⟩ := he
    cases he
    exact List.forall_mem_singleton.mpr rfl
  | registerAddress address => exact registerAddress_changes he ▸ List.forall_mem_singleton.mpr rfl
  | initialiseBalance address symbol =>
    rw [plan_file_initialiseBalance, eval_map_eq_ok] at he
    obtain ⟨e', he', rfl⟩ := he
    rw [plan_initialiseBalance, eval_bind_eq_ok] at he'
    obtain ⟨b, -, he'⟩ := he'
    cases he'
    exact List.forall_mem_singleton.mpr rfl
  | initialiseScores => exact initialiseScores_changes he ▸ List.forall_mem_singleton.mpr rfl
  | updateScores => exact updateScores_changes he ▸ List.forall_mem_singleton.mpr rfl

/-- An operation without an envelope writes in one namespace at most. -/
theorem silent_operate (hop : op.tells = false) (he : (c.operate op args).plan.eval l = .ok e) :
    ∀ ch ∈ e.changes, op.silent = some ch.key.ns := by
  obtain ⟨i, hi, he⟩ := operate_eq_ok.mp he
  cases hi with
  | ask hq =>
    rw [Instruction.plan_ask, eval_map_eq_ok] at he
    obtain ⟨b, -, rfl⟩ := he
    exact fun ch hch => absurd hch List.not_mem_nil
  | order ho => cases ho <;> cases hop
  | file hf =>
    rw [Instruction.plan_file, eval_map_eq_ok] at he
    obtain ⟨e', he', rfl⟩ := he
    exact hf.silent he'

end Operate

end TokenLedger
