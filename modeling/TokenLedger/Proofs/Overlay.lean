import TokenLedger.Proofs.Encounter
import TokenLedger.Proofs.Order
import TokenLedger.Proofs.Serial

/-! Scans and selections show what looks under single keys show. The texts with one beginning stand next to each
other, so a walk through the committed entries from the first that is not before it, up to the first that begins
otherwise, and a walk through the pending writes over it gather all that a transaction sees there. -/

namespace TokenLedger

namespace Text

section Beginning

variable {α : Type} [LT α]

theorem prefix_of_between {p s t : List α} (hps : ¬ s < p) (hst : s < t) (ht : p <+: t) : p <+: s := by
  induction p generalizing s t with
  | nil => exact List.nil_prefix
  | cons c p ih =>
    obtain ⟨r, rfl⟩ := ht
    cases s with
    | nil => exact absurd (List.nil_lt_cons c p) hps
    | cons d s =>
      rw [List.cons_append, List.cons_lt_cons_iff] at hst
      rw [List.cons_lt_cons_iff, not_or, not_and] at hps
      rcases hst with hd | ⟨rfl, hst⟩
      · exact absurd hd hps.1
      · exact List.cons_prefix_cons.mpr ⟨rfl, ih (hps.2 rfl) hst (List.prefix_append p r)⟩

theorem not_lt_of_prefix [Std.Irrefl fun a b : α => a < b] {p s : List α} (h : p <+: s) : ¬ s < p := by
  obtain ⟨r, rfl⟩ := h
  exact List.not_lt.mpr List.le_append_left

end Beginning

/-- Those inside are one run that starts where those before end, provided that only these and others inside come
ahead of one inside. -/
theorem filter_eq_run {α : Type} {before inside : α → Bool} {as : List α}
    (hapart : ∀ a, before a → ¬ inside a)
    (h : as.Pairwise fun a b => (before b → before a) ∧ (inside b → before a ∨ inside a)) :
    as.filter inside = (as.dropWhile before).takeWhile inside := by
  induction as with
  | nil => rfl
  | cons a as ih =>
    obtain ⟨ha, has⟩ := List.pairwise_cons.mp h
    have ih := ih has
    cases hbefore : before a with
    | true => rw [List.filter_cons_of_neg (hapart a hbefore), List.dropWhile_cons_of_pos hbefore, ih]
    | false =>
      have hnone : as.dropWhile before = as := by
        cases as with
        | nil => rfl
        | cons b as =>
          refine List.dropWhile_cons_of_neg fun hb => ?_
          rw [(ha b (by simp)).1 hb] at hbefore
          cases hbefore
      rw [hnone] at ih
      rw [List.dropWhile_cons_of_neg (by simp [hbefore]), List.filter_cons, List.takeWhile_cons]
      cases hinside : inside a with
      | true => rw [if_pos rfl, if_pos rfl, ih]
      | false =>
        rw [if_neg Bool.false_ne_true, if_neg Bool.false_ne_true, List.filter_eq_nil_iff]
        intro b hb hinb
        simpa [hbefore, hinside] using (ha b hb).2 hinb

end Text

namespace Store

variable {α : Type}

def stretch (p : String) (t : Table α) : List (String × α) :=
  (t.toList.dropWhile (·.1 < p)).takeWhile fun e => p.toList.isPrefixOf e.1.toList

theorem filter_eq_stretch {p : String} {es : List (String × α)} (h : es.Pairwise fun a b => a.1 < b.1) :
    es.filter (fun e => p.toList.isPrefixOf e.1.toList) =
      (es.dropWhile (·.1 < p)).takeWhile fun e => p.toList.isPrefixOf e.1.toList := by
  refine Text.filter_eq_run (fun a ha hp => ?_) (h.imp fun {a b} hab => ⟨fun hb => ?_, fun hp => ?_⟩)
  · rw [decide_eq_true_eq, String.lt_iff] at ha
    exact Text.not_lt_of_prefix (List.isPrefixOf_iff_prefix.mp hp) ha
  · rw [decide_eq_true_eq] at hb ⊢
    exact String.lt_trans hab hb
  · rw [List.isPrefixOf_iff_prefix] at hp ⊢
    rw [decide_eq_true_eq, String.lt_iff, or_iff_not_imp_left]
    exact fun hn => Text.prefix_of_between hn (String.lt_iff.mp hab) hp

theorem pairwise_toList (t : Table α) : t.toList.Pairwise fun a b => a.1 < b.1 :=
  Std.ExtTreeMap.ordered_keys_toList.imp Text.compare_eq_lt.mp

theorem toList_under (p : String) (t : Table α) : (under p t).toList = stretch p t := by
  rw [under, Std.ExtTreeMap.toList_filter, stretch, filter_eq_stretch (pairwise_toList t)]

theorem mem_stretch {p : String} {t : Table α} {k : String} {a : α} :
    (k, a) ∈ stretch p t ↔ p.toList.isPrefixOf k.toList = true ∧ t[k]? = some a := by
  rw [← toList_under, Std.ExtTreeMap.mem_toList_iff_getElem?_eq_some, getElem?_under]
  split <;> simp_all

theorem nodup_stretch (p : String) (t : Table α) : (stretch p t).Pairwise fun a b => a.1 ≠ b.1 := by
  rw [← toList_under]
  exact (pairwise_toList _).imp fun h => String.ne_of_lt h

/-- The values of a stretch of the committed entries, without the entries of deleted records. -/
def committed (p : String) (s : Store) : List (String × Option Bytes) :=
  (stretch p s.entries).filterMap fun e => e.2.value.map fun b => (e.1, some b)

theorem mem_committed {p : String} {s : Store} {k : String} {w : Option Bytes} :
    (k, w) ∈ committed p s ↔ p.toList.isPrefixOf k.toList = true ∧ w.isSome ∧ s.value? k = w := by
  rw [committed, List.mem_filterMap, value?_eq]
  constructor
  · rintro ⟨⟨j, e⟩, hm, he⟩
    obtain ⟨b, hb, he⟩ := Option.map_eq_some_iff.mp he
    cases he
    obtain ⟨hp, hj⟩ := mem_stretch.mp hm
    exact ⟨hp, rfl, by rw [hj, Option.bind_some, hb]⟩
  · rintro ⟨hp, hw, hk⟩
    obtain ⟨b, rfl⟩ := Option.isSome_iff_exists.mp hw
    obtain ⟨e, he, hb⟩ := Option.bind_eq_some_iff.mp hk
    exact ⟨(k, e), mem_stretch.mpr ⟨hp, he⟩, by rw [hb, Option.map_some]⟩

theorem nodup_committed (p : String) (s : Store) : (committed p s).Pairwise fun a b => a.1 ≠ b.1 := by
  refine (nodup_stretch p s.entries).filterMap _ fun a b hne c hc d hd => ?_
  obtain ⟨-, -, rfl⟩ := Option.map_eq_some_iff.mp hc
  obtain ⟨-, -, rfl⟩ := Option.map_eq_some_iff.mp hd
  exact hne

end Store

namespace Transaction

def lay (l : Table Bytes) (e : String × Option Bytes) : Table Bytes :=
  match e.2 with
  | some b => l.insert e.1 b
  | none => l.erase e.1

/-- The live values whose texts begin with `p`, gathered in two walks: those of the committed entries, and over
them what is pending. -/
def gather (s : Store) (t : Transaction) (p : String) : Table Bytes :=
  (s.committed p ++ Store.stretch p t.writes).foldl lay ∅

theorem getElem?_lay (l : Table Bytes) (e : String × Option Bytes) (k : String) :
    (lay l e)[k]? = if e.1 = k then e.2 else l[k]? := by
  obtain ⟨j, w⟩ := e
  cases w with
  | some b => simp [lay, Std.ExtTreeMap.getElem?_insert]
  | none => simp [lay, Std.ExtTreeMap.getElem?_erase]

section Lay

variable {es : List (String × Option Bytes)} {k : String} (l : Table Bytes)

theorem getElem?_foldl_of_notMem (h : ∀ w, (k, w) ∉ es) : (es.foldl lay l)[k]? = l[k]? := by
  induction es generalizing l with
  | nil => rfl
  | cons e es ih =>
    have he : e.1 ≠ k := fun he => h e.2 (by simp [← he])
    rw [List.foldl_cons, ih _ fun w hw => h w (by simp [hw]), getElem?_lay, if_neg he]

theorem getElem?_foldl_of_mem (hes : es.Pairwise fun a b => a.1 ≠ b.1) {w : Option Bytes} (h : (k, w) ∈ es) :
    (es.foldl lay l)[k]? = w := by
  induction es generalizing l with
  | nil => cases h
  | cons e es ih =>
    obtain ⟨he, hes⟩ := List.pairwise_cons.mp hes
    rw [List.foldl_cons]
    rcases List.mem_cons.mp h with rfl | h
    · rw [getElem?_foldl_of_notMem _ fun v hv => he (k, v) hv rfl, getElem?_lay, if_pos rfl]
    · exact ih _ hes h

end Lay

theorem gather_eq (s : Store) (t : Transaction) (p : String) : t.gather s p = Store.under p (t.view s) := by
  refine Std.ExtTreeMap.ext_getElem? fun k => ?_
  rw [gather, List.foldl_append, Store.getElem?_under]
  cases hp : p.toList.isPrefixOf k.toList with
  | false =>
    have hpending (w : Option Bytes) : (k, w) ∉ Store.stretch p t.writes := by simp [Store.mem_stretch, hp]
    have hcommitted (w : Option Bytes) : (k, w) ∉ s.committed p := by simp [Store.mem_committed, hp]
    rw [getElem?_foldl_of_notMem _ hpending, getElem?_foldl_of_notMem _ hcommitted]
    simp
  | true =>
    rw [if_pos rfl]
    cases hw : t.writes[k]? with
    | some w =>
      rw [getElem?_view_of_some hw, getElem?_foldl_of_mem _ (Store.nodup_stretch p t.writes)
        (Store.mem_stretch.mpr ⟨hp, hw⟩)]
    | none =>
      have hpending (w : Option Bytes) : (k, w) ∉ Store.stretch p t.writes := by simp [Store.mem_stretch, hw]
      rw [getElem?_view_of_none hw, getElem?_foldl_of_notMem _ hpending]
      cases hv : s.value? k with
      | some b =>
        exact getElem?_foldl_of_mem _ (s.nodup_committed p) (Store.mem_committed.mpr ⟨hp, rfl, hv⟩)
      | none =>
        have hcommitted (w : Option Bytes) : (k, w) ∉ s.committed p := by
          simp only [Store.mem_committed, hv, not_and]
          rintro - hw rfl
          cases hw
        rw [getElem?_foldl_of_notMem _ hcommitted, Std.ExtTreeMap.getElem?_empty]

end Transaction

theorem Live.map_encode_of_spelled {texts : List (String × Bytes)} {hits : List (Key × Bytes)}
    (h : spelled texts = .ok hits) : hits.map (fun hit => (hit.1.encode, hit.2)) = texts := by
  induction texts generalizing hits with
  | nil =>
    cases h
    rfl
  | cons e texts ih =>
    rw [spelled_cons, Query.bind_eq_ok] at h
    obtain ⟨hit, hhit, h⟩ := h
    cases hrest : spelled texts with
    | error f => simp [hrest, Except.map] at h
    | ok rest =>
      rw [hrest] at h
      cases h
      rw [spell] at hhit
      split at hhit
      · rename_i k hk
        cases hhit
        rw [List.map_cons, ih hrest, Key.encode_of_decode hk]
      · cases hhit

/-- A transaction within which deeds have been done, each of them on the store as it was by then. -/
inductive Transaction.Handled (c : Contract) : Transaction → Prop
  | empty : Handled c .empty
  | perform {t : Transaction} (h : Handled c t) (s : Store) (d : Deed) : Handled c (d.perform c s t).2

theorem Transaction.Handled.exists_key {c : Contract} {t : Transaction} (h : t.Handled c) :
    ∀ text ∈ t.writes, ∃ k : Key, k.encode = text := by
  induction h with
  | empty => exact fun text hm => absurd hm Std.ExtTreeMap.not_mem_empty
  | @perform t h s d ih =>
    have hrequest {α : Type} (q : Query (Effect α)) :
        ∀ text ∈ (q.perform s t).2.writes, ∃ k : Key, k.encode = text := by
      intro text hm
      rw [Query.perform_eq] at hm
      cases he : q.eval (t.view s) with
      | error f => exact ih text (by simpa [he] using hm)
      | ok e =>
        simp only [he, mem_writes_applyAll, Query.writes_run] at hm
        exact hm.elim (ih text) fun ⟨ch, _, hk⟩ => ⟨ch.key, hk⟩
    cases d with
    | invoke role name args =>
      rw [Deed.perform_invoke]
      exact hrequest (c.request role name args).plan
    | call d =>
      rw [Deed.perform_call]
      exact hrequest d.action.plan
    | put k v =>
      intro text hm
      change text ∈ t.writes.insert k.encode v at hm
      rw [Std.ExtTreeMap.mem_insert, Std.compare_eq_iff_eq] at hm
      exact hm.elim (fun he => ⟨k, he⟩) (ih text)
    | get k => simpa [Deed.perform] using ih
    | scan ns components => simpa [Deed.perform] using ih
    | select sel => simpa [Deed.perform] using ih

theorem Transaction.Handled.keyed {c : Contract} {t : Transaction} (h : t.Handled c) {s : Store}
    (hs : ∀ text ∈ s.entries, ∃ k : Key, k.encode = text) : Live.Keyed (t.view s) := by
  intro text b hb
  rw [Transaction.getElem?_view] at hb
  cases hw : t.writes[text]? with
  | some w => exact h.exists_key text (Std.ExtTreeMap.mem_iff_isSome_getElem?.mpr (by rw [hw]; rfl))
  | none =>
    simp only [hw, Store.value?_eq, Option.bind_eq_some_iff] at hb
    obtain ⟨e, he, -⟩ := hb
    exact hs text (Std.ExtTreeMap.mem_iff_isSome_getElem?.mpr (by rw [he]; rfl))

/-- Scans and selections show what looks under single keys show, whatever has been done within a transaction and
in the meantime to a store of keys. A scan lists, in the order of the octets of their texts, the keys that extend
its components, each with the value that a look under it shows and with no other; two walks through the entries
gather the same; and a selection lists the hits of the scan of its namespace that it accepts, as they are. -/
theorem scan_overlay {c : Contract} {s : Store} (hs : ∀ text ∈ s.entries, ∃ k : Key, k.encode = text)
    {t : Transaction} (ht : t.Handled c) :
    (∀ ns components, ∃ hits, ((Query.scan ns components).run s t).1 = .ok hits ∧
      hits.Pairwise (fun a b => Text.utf8 a.1.encode < Text.utf8 b.1.encode) ∧
      (∀ k b, (k, b) ∈ hits ↔ k.ns = ns ∧ (∃ cs, cs ≠ [] ∧ k.components = components ++ cs) ∧
        ((Query.get k).run s t).1 = .ok (some b)) ∧
      hits.map (fun hit => (hit.1.encode, hit.2)) = (t.gather s (Key.scanPrefix ⟨ns, components⟩)).toList) ∧
    ∀ sel : Selector, ∃ hits, ((Query.scan sel.ns []).run s t).1 = .ok hits ∧
      ((Query.select sel).run s t).1 = .ok (hits.filter fun hit => sel.accepts hit.2) := by
  have hkeyed := ht.keyed hs
  constructor
  · intro ns components
    obtain ⟨hits, hscan, hordered, hmem⟩ := hkeyed.eval_scan ns components
    refine ⟨hits, by rw [Query.run_fst, hscan], hordered.imp ?_, fun k b => ?_, ?_⟩
    · intro a b hlt
      rwa [Text.utf8_lt_utf8, ← Text.compare_eq_lt]
    · rw [hmem, Query.run_fst, Query.eval_get, Except.ok.injEq, and_comm, and_assoc]
    · rw [Live.eval_scan] at hscan
      rw [Live.map_encode_of_spelled hscan, Transaction.gather_eq]
  · intro sel
    obtain ⟨hits, hscan, -⟩ := hkeyed.eval_scan sel.ns []
    refine ⟨hits, by rw [Query.run_fst, hscan], ?_⟩
    rw [Query.run_fst, Live.eval_select, hscan]
    rfl

def shelved : Store :=
  ⟨2, (((∅ : Table Entry).insert (Key.token "A").encode ⟨1, some [49]⟩).insert (Key.token "B/1").encode
    ⟨2, none⟩).insert (Key.token "C%").encode ⟨1, some [50]⟩⟩

def reshelved : Transaction :=
  ((Deed.put (.token "B/1") (some [51])).perform .signing shelved
    ((Deed.put (.token "A") none).perform .signing shelved .empty).2).2

/-- So the scan shows the new value and the old one that nothing hides. -/
theorem scan_overlay_reshelved :
    (∀ text ∈ shelved.entries, ∃ k : Key, k.encode = text) ∧ reshelved.Handled .signing ∧
      ∃ hits, ((Query.scan .tokens []).run shelved reshelved).1 = .ok hits ∧ (.token "B/1", [51]) ∈ hits ∧
        (.token "C%", [50]) ∈ hits ∧ ∀ b, (.token "A", b) ∉ hits := by
  have hs : ∀ text ∈ shelved.entries, ∃ k : Key, k.encode = text := by
    have hkeys : ∀ text ∈ shelved.entries.keys, (Key.decode text).isOk := by decide +kernel
    intro text hm
    have hk := hkeys text (Std.ExtTreeMap.mem_keys.mpr hm)
    cases h : Key.decode text with
    | error e => simp [h, Except.isOk, Except.toBool] at hk
    | ok k => exact ⟨k, Key.encode_of_decode h⟩
  have ht : reshelved.Handled .signing := .perform (.perform .empty shelved _) shelved _
  refine ⟨hs, ht, ?_⟩
  obtain ⟨hits, hscan, -, hmem, -⟩ := (scan_overlay hs ht).1 .tokens []
  have hget : ((Query.get (.token "B/1")).run shelved reshelved).1 = .ok (some [51]) ∧
      ((Query.get (.token "C%")).run shelved reshelved).1 = .ok (some [50]) ∧
      ((Query.get (.token "A")).run shelved reshelved).1 = .ok none := by decide +kernel
  refine ⟨hits, hscan, (hmem _ _).mpr ⟨rfl, ⟨_, by simp, rfl⟩, hget.1⟩,
    (hmem _ _).mpr ⟨rfl, ⟨_, by simp, rfl⟩, hget.2.1⟩, fun b hb => ?_⟩
  have ha := ((hmem _ _).mp hb).2.2
  rw [hget.2.2] at ha
  cases ha

end TokenLedger
