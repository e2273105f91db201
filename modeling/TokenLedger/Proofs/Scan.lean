import TokenLedger.Proofs.Deed

/-! Scans and selections on live values. They list what stands under keys that extend the components, each value
once. On values from which some have been left out they answer with the hits that are there still, provided that
the others are under texts of keys. -/

namespace TokenLedger

namespace Live

def spell (hit : String × Bytes) : Except Failure (Key × Bytes) :=
  match Key.decode hit.1 with
  | .ok k => .ok (k, hit.2)
  | .error e => .error (.badKey e)

/-- All hits, or the failure at the first text that is no key. -/
def spelled (hits : List (String × Bytes)) : Except Failure (List (Key × Bytes)) := hits.mapM spell

theorem spelled_cons (hit : String × Bytes) (hits : List (String × Bytes)) :
    spelled (hit :: hits) = (spell hit).bind fun k => (spelled hits).map (k :: ·) := by
  rw [spelled, List.mapM_cons]
  change ((spell hit).bind fun k => (spelled hits).bind fun ks => .ok (k :: ks)) = _
  cases spell hit with
  | error f => rfl
  | ok k => cases spelled hits <;> rfl

theorem scan_eq (ns : Namespace) (components : List String) :
    Query.scan ns components = .range (Key.scanPrefix ⟨ns, components⟩) fun hits => liftM (spelled hits) := by
  rw [Query.scan]
  congr 1
  funext hits
  rw [spelled, ← Query.mapM_liftM]
  congr 1
  funext hit
  rw [spell]
  cases hk : Key.decode hit.1 <;> simp only [hk] <;> rfl

theorem eval_scan (ns : Namespace) (components : List String) (l : Table Bytes) :
    (Query.scan ns components).eval l = spelled (Store.under (Key.scanPrefix ⟨ns, components⟩) l).toList := by
  rw [scan_eq, Query.eval, Query.eval_liftM]

theorem eval_select (sel : Selector) (l : Table Bytes) : (Query.select sel).eval l =
    ((Query.scan sel.ns []).eval l).map fun hits => hits.filter fun hit => sel.accepts hit.2 := by
  rw [Query.select, Query.eval_bind]
  cases (Query.scan sel.ns []).eval l <;> rfl

theorem spelled_filter {p : String → Bool} {hits : List (String × Bytes)}
    (h : ∀ hit ∈ hits, p hit.1 = false → ∃ k : Key, k.encode = hit.1) :
    spelled (hits.filter fun hit => p hit.1) =
      (spelled hits).map fun ks => ks.filter fun hit => p hit.1.encode := by
  induction hits with
  | nil => rfl
  | cons hit hits ih =>
    have ih := ih fun hit hm => h hit (by simp [hm])
    rw [spelled_cons]
    cases hk : Key.decode hit.1 with
    | error e =>
      have hspell : spell hit = .error (.badKey e) := by rw [spell, hk]
      have hp : p hit.1 = true := by
        by_contra hp
        obtain ⟨k, hencode⟩ := h hit (by simp) (by simpa using hp)
        rw [← hencode, Key.decode_encode] at hk
        cases hk
      rw [List.filter_cons, if_pos hp, spelled_cons, hspell]
      rfl
    | ok k =>
      have hspell : spell hit = .ok (k, hit.2) := by rw [spell, hk]
      have hencode := Key.encode_of_decode hk
      cases hp : p hit.1 with
      | true =>
        rw [List.filter_cons, if_pos hp, spelled_cons, hspell, ih]
        cases spelled hits <;> simp [Except.map, Except.bind, hencode, hp]
      | false =>
        rw [List.filter_cons, if_neg (by simp [hp]), hspell, ih]
        cases spelled hits <;> simp [Except.map, Except.bind, hencode, hp]

theorem spelled_encode (hits : List (Key × Bytes)) :
    spelled (hits.map fun hit => (hit.1.encode, hit.2)) = .ok hits := by
  induction hits with
  | nil => rfl
  | cons hit hits ih =>
    have hspell : spell (hit.1.encode, hit.2) = .ok hit := by rw [spell, Key.decode_encode]
    rw [List.map_cons, spelled_cons, hspell, ih]
    rfl

def Keyed (l : Table Bytes) : Prop := ∀ (text : String) (b : Bytes), l[text]? = some b → ∃ k : Key, k.encode = text

/-- A scan lists the values whose keys extend its components, in the order of the texts of their keys. -/
theorem Keyed.eval_scan {l : Table Bytes} (h : Keyed l) (ns : Namespace) (components : List String) :
    ∃ hits, (Query.scan ns components).eval l = .ok hits ∧
      hits.Pairwise (fun a b => compare a.1.encode b.1.encode = .lt) ∧
      ∀ k b, (k, b) ∈ hits ↔
        l[k.encode]? = some b ∧ k.ns = ns ∧ ∃ cs, cs ≠ [] ∧ k.components = components ++ cs := by
  have hmem (text : String) (b : Bytes) : (text, b) ∈ (Store.under (Key.scanPrefix ⟨ns, components⟩) l).toList ↔
      (Key.scanPrefix ⟨ns, components⟩).toList.isPrefixOf text.toList = true ∧ l[text]? = some b := by
    rw [Std.ExtTreeMap.mem_toList_iff_getElem?_eq_some, Store.getElem?_under]
    split <;> simp_all
  have hkeys : ∀ hit ∈ (Store.under (Key.scanPrefix ⟨ns, components⟩) l).toList,
      hit ∈ Set.range fun hit : Key × Bytes => (hit.1.encode, hit.2) := by
    rintro ⟨text, b⟩ hm
    obtain ⟨k, rfl⟩ := h text b ((hmem text b).mp hm).2
    exact ⟨(k, b), rfl⟩
  obtain ⟨hits, hhits⟩ : (Store.under (Key.scanPrefix ⟨ns, components⟩) l).toList ∈
      Set.range (List.map fun hit : Key × Bytes => (hit.1.encode, hit.2)) := by
    rw [Set.range_list_map]
    exact hkeys
  refine ⟨hits, by rw [Live.eval_scan, ← hhits, spelled_encode], ?_, fun k b => ?_⟩
  · have hordered := Std.ExtTreeMap.ordered_keys_toList (t := Store.under (Key.scanPrefix ⟨ns, components⟩) l)
    rw [← hhits, List.pairwise_map] at hordered
    exact hordered
  · have hlisted : (k.encode, b) ∈ (Store.under (Key.scanPrefix ⟨ns, components⟩) l).toList ↔ (k, b) ∈ hits := by
      rw [← hhits, List.mem_map]
      refine ⟨?_, fun hm => ⟨_, hm, rfl⟩⟩
      rintro ⟨hit, hm, he⟩
      simp only [Prod.mk.injEq, Key.encode_inj] at he
      exact he.1 ▸ he.2 ▸ hm
    rw [← hlisted, hmem, Key.isPrefixOf_scanPrefix, and_comm]

theorem nodup_of_ordered {hits : List (Key × Bytes)}
    (h : hits.Pairwise fun a b => compare a.1.encode b.1.encode = .lt) : (hits.map Prod.fst).Nodup := by
  refine List.pairwise_map.mpr (h.imp fun hlt he => ?_)
  rw [he, Std.compare_self] at hlt
  cases hlt

end Live
end TokenLedger
