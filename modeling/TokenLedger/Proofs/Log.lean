import TokenLedger.Proofs.Settlement
import TokenLedger.Proofs.Told

/-! What a batch says of its transfers. The log in its answer lists them by their ids, and of several with one id only
the last. So it accounts for all that the batch has moved if the ids differ, and otherwise it does not. -/

namespace TokenLedger

open Live Transfer

namespace Envelope

/-- The transfers that an envelope lists, by their ids. -/
def log (e : Envelope) : Std.ExtTreeMap String Transfer := e.transfers.getD ∅

def ofTransfers (ts : List Transfer) : Envelope := ts.foldl withTransfer empty

theorem log_concat (ts : List Transfer) (t : Transfer) :
    (ofTransfers (ts ++ [t])).log = (ofTransfers ts).log.insert t.id t := by
  rw [ofTransfers, List.foldl_append]
  rfl

theorem getElem?_log (ts : List Transfer) (id : String) :
    (ofTransfers ts).log[id]? = ts.reverse.find? fun t => t.id = id := by
  induction ts using List.reverseRecOn with
  | nil => rfl
  | append_singleton ts t ih =>
    rw [log_concat, Std.ExtTreeMap.getElem?_insert, ih, List.reverse_concat, List.find?_cons]
    by_cases hid : t.id = id <;> simp [hid]

theorem filedBy_log (ts : List Transfer) : FiledBy Transfer.id (ofTransfers ts).log := by
  induction ts using List.reverseRecOn with
  | nil => exact filedBy_empty
  | append_singleton ts t ih =>
    rw [log_concat]
    exact ih.insert t

/-- The transfers of a log in the order of their ids. -/
def logged (e : Envelope) : List Transfer := e.log.toList.map Prod.snd

section Logged

variable (ts : List Transfer)

theorem map_id_logged : (ofTransfers ts).logged.map Transfer.id = (ofTransfers ts).log.keys := by
  rw [logged, List.map_map, ← Std.ExtTreeMap.map_fst_toList_eq_keys]
  exact List.map_congr_left fun p hp => (filedBy_log ts).eq_of_mem hp

theorem nodup_logged : (ofTransfers ts).logged.Nodup := by
  have hids : ((ofTransfers ts).logged.map Transfer.id).Nodup := by
    rw [map_id_logged]
    exact Std.ExtTreeMap.nodup_keys
  exact hids.of_map

theorem mem_of_logged {t : Transfer} (ht : t ∈ (ofTransfers ts).logged) : t ∈ ts := by
  obtain ⟨⟨id, t⟩, hp, rfl⟩ := List.mem_map.mp ht
  have hfound := Std.ExtTreeMap.mem_toList_iff_getElem?_eq_some.mp hp
  rw [getElem?_log] at hfound
  exact List.mem_reverse.mp (List.mem_of_find?_eq_some hfound)

theorem logged_subperm : (ofTransfers ts).logged.Subperm ts :=
  List.subperm_of_subset (nodup_logged ts) fun _ => mem_of_logged ts

theorem length_logged : (ofTransfers ts).logged.length = (ts.map Transfer.id).dedup.length := by
  have hmem (id : String) : id ∈ (ofTransfers ts).log.keys ↔ id ∈ (ts.map Transfer.id).dedup := by
    rw [Std.ExtTreeMap.mem_keys, Std.ExtTreeMap.mem_iff_isSome_getElem?, getElem?_log]
    simp
  have hperm := (List.perm_ext_iff_of_nodup Std.ExtTreeMap.nodup_keys (List.nodup_dedup _)).mpr hmem
  rw [← hperm.length_eq, ← map_id_logged, List.length_map]

/-- A log lists all transfers, and accounts for what they move, exactly if their ids differ. -/
theorem tfae_logged (hts : ∀ t ∈ ts, 0 < t.amount.units) : [
    (ts.map Transfer.id).Nodup,
    (ofTransfers ts).logged.length = ts.length,
    (ofTransfers ts).logged.Perm ts,
    ∀ token sender receiver : String,
      volume (fun t => t.token = token ∧ t.sender = sender ∧ t.receiver = receiver) (ofTransfers ts).logged =
        volume (fun t => t.token = token ∧ t.sender = sender ∧ t.receiver = receiver) ts].TFAE := by
  tfae_have 1 → 2 := by
    intro hids
    rw [length_logged, hids.dedup, List.length_map]
  tfae_have 2 → 1 := by
    intro hlength
    rw [length_logged, ← List.length_map Transfer.id] at hlength
    exact List.dedup_eq_self.mp ((List.dedup_sublist _).eq_of_length hlength)
  tfae_have 2 → 3 := fun hlength => (logged_subperm ts).perm_of_length_le hlength.ge
  tfae_have 3 → 4 := fun hperm _ _ _ => volume_perm _ hperm
  tfae_have 4 → 2 := by
    intro hvolume
    by_contra hne
    have hless := lt_of_le_of_ne (logged_subperm ts).length_le hne
    obtain ⟨t, ht⟩ := (logged_subperm ts).exists_of_length_lt hless
    have hle := volume_le (fun u => u.token = t.token ∧ u.sender = t.sender ∧ u.receiver = t.receiver) ht
    rw [volume_cons, hvolume, if_pos ⟨rfl, rfl, rfl⟩] at hle
    have hpositive := hts t (ht.subset (by simp))
    omega
  tfae_finish

end Logged
end Envelope

open Envelope

theorem log_multitransfer {s : Store} {t : Transaction} {ts : List Transfer} {e : Envelope} {u : Transaction}
    (hok : (multitransfer ts).perform s t = (.ok e, u)) : e.log = (ofTransfers (ts.filter (·.isEffective))).log := by
  rw [(writesLast_multitransfer ts).perform_eq] at hok
  obtain ⟨e', he, rfl, -⟩ := Query.perform_eq_ok hok
  simp only [plan_multitransfer, Query.eval_bind_eq_ok, Query.eval_pure] at he
  obtain ⟨m, -, he⟩ := he
  cases he
  rfl

/-- The log of a batch that succeeds lists the last of its transfers with each id, as it was asked for, of those that
have an effect. It lists all of these, as many as there are and with the same sums, exactly if no two have the same
id. -/
theorem multitransfer_log {s : Store} {t : Transaction} {ts : List Transfer} {e : Envelope} {u : Transaction}
    (hok : (multitransfer ts).perform s t = (.ok e, u)) :
    let entries := ts.filter (·.isEffective)
    (∀ id : String, e.log[id]? = entries.reverse.find? fun r => r.id = id) ∧
      e.logged.length = (entries.map Transfer.id).dedup.length ∧
      [(entries.map Transfer.id).Nodup,
        e.logged.length = entries.length,
        e.logged.Perm entries,
        ∀ token sender receiver : String,
          volume (fun r => r.token = token ∧ r.sender = sender ∧ r.receiver = receiver) e.logged =
            volume (fun r => r.token = token ∧ r.sender = sender ∧ r.receiver = receiver) entries].TFAE := by
  intro entries
  have hlog : e.log = (ofTransfers entries).log := log_multitransfer hok
  have hlogged : e.logged = (ofTransfers entries).logged := by rw [logged, hlog, logged]
  have hpositive : ∀ r ∈ entries, 0 < r.amount.units := fun r hr => (isEffective_iff.mp (List.mem_filter.mp hr).2).2
  rw [hlog, hlogged]
  exact ⟨getElem?_log entries, length_logged entries, tfae_logged entries hpositive⟩

def nameless : List Transfer :=
  [⟨"", "GLD", "alice", "bob", true, false, .whole 1, "", 0⟩,
   ⟨"", "GLD", "alice", "bob", true, false, .whole 2, "", 0⟩]

theorem multitransfer_log_nameless :
    ∃ e u, (multitransfer nameless).perform listed.store (listed.transaction "t") = (.ok e, u) ∧
      held (u.view listed.store) ⟨"bob", "GLD"⟩ = 300000000 ∧
      e.log[""]? = nameless[1]? ∧ e.logged.length = 1 ∧ ¬ e.logged.Perm nameless := by
  have hok : ((multitransfer nameless).perform listed.store (listed.transaction "t")).1.isOk := by decide +kernel
  have hheld : held (((multitransfer nameless).perform listed.store (listed.transaction "t")).2.view listed.store)
      ⟨"bob", "GLD"⟩ = 300000000 := by
    decide +kernel
  have hall : nameless.filter (·.isEffective) = nameless := by decide
  obtain ⟨e, hperformed⟩ := eq_ok_of_isOk hok
  obtain ⟨hlast, hlength, hiff⟩ := multitransfer_log hperformed
  rw [hall] at hlast hlength hiff
  refine ⟨e, _, hperformed, hheld, ?_, ?_, ?_⟩
  · rw [hlast]
    decide
  · rw [hlength]
    decide
  · intro hperm
    have hids : (nameless.map Transfer.id).Nodup := (hiff.out 2 0).mp hperm
    exact absurd hids (by decide)

end TokenLedger
