import TokenLedger.Host.Volume
import TokenLedger.Proofs.Host.Folder

/-! What operations change of a volume: new directories, one file that is written, one name that is moved. -/

namespace TokenLedger

/-- The second path is what is left of the first without some of its last names. -/
inductive Path.Above (p : Path) : Path → Prop
  | parent : Above p p.parent
  | step {q : Path} (h : Above p q) : Above p q.parent

namespace Volume

variable {v w u : Volume} {p q : Path} {b : Bytes} {j k : String} {i : ℕ} {x y : Place}

theorem items_fresh (v : Volume) (k : String) : v.items[k]? ≠ some (.file v.fresh) := by
  intro h
  have hmem : v.fresh ∈ v.items.toList.filterMap (·.2.number?) :=
    List.mem_filterMap.mpr ⟨(k, .file v.fresh), Std.ExtTreeMap.mem_toList_iff_getElem?_eq_some.mpr h, rfl⟩
  exact absurd (List.le_max?_getD_of_mem hmem) (Nat.not_le_of_lt (Nat.lt_succ_self _))

section Walk

variable {through : Bool} {jump jump' : List String → List String → Except FileError Place} {seen ns : List String}

theorem walkNames_point : v.walkNames through jump seen ("." :: ns) = v.walkNames through jump seen ns := by
  rw [walkNames, if_pos rfl]

theorem walkNames_points :
    v.walkNames through jump seen (".." :: ns) = v.walkNames through jump seen.dropLast ns := by
  rw [walkNames, if_neg (by decide), if_pos rfl]

/-- A name that is not made of points is a link to follow, the end of the way, or a directory to enter. -/
theorem walkNames_name {n : String} (h : n ≠ "." ∧ n ≠ "..") :
    v.walkNames through jump seen (n :: ns) = .ok x ↔ (Text.utf8 n).length ≤ Folder.maxName ∧
      ((∃ target, v.items[Folder.keyOf (seen ++ [n])]? = some (.link target) ∧ (ns = [] → through = true) ∧
          jump (if target.isAbsolute then [] else seen) (route target ++ ns) = .ok x) ∨
        (ns = [] ∧ x = ⟨seen ++ [n], v.items[Folder.keyOf (seen ++ [n])]?⟩ ∧
          (through = true → ∀ target, x.item ≠ some (.link target))) ∨
        (ns ≠ [] ∧ v.items[Folder.keyOf (seen ++ [n])]? = some .directory ∧
          v.walkNames through jump (seen ++ [n]) ns = .ok x)) := by
  rw [walkNames, if_neg h.1, if_neg h.2]
  by_cases hlong : Folder.maxName < (Text.utf8 n).length
  · rw [if_pos hlong]
    exact ⟨nofun, fun hx => absurd hlong (not_lt.mpr hx.1)⟩
  rw [if_neg hlong]
  generalize v.items[Folder.keyOf (seen ++ [n])]? = item
  rcases item with _ | ⟨i | _ | target⟩ <;> cases ns <;> cases through <;>
    simp [not_lt.mp hlong, Folder.throw_eq, pure, Except.pure, @eq_comm _ _ x]
  all_goals
    rintro rfl
    simp

def Has (v : Volume) (x : Place) : Prop := x.item = some .directory ∨ x.item = v.items[x.key]?

theorem has_of_walkNames (hjump : ∀ seen ns x, jump seen ns = .ok x → v.Has x)
    (h : v.walkNames through jump seen ns = .ok x) : v.Has x := by
  induction ns generalizing seen with
  | nil =>
    cases h
    exact .inl rfl
  | cons n ns ih =>
    by_cases hn : n ≠ "." ∧ n ≠ ".."
    · obtain ⟨-, ⟨_, -, -, hx⟩ | ⟨-, rfl, -⟩ | ⟨-, -, hx⟩⟩ := (walkNames_name hn).mp h
      · exact hjump _ _ _ hx
      · exact .inr rfl
      · exact ih hx
    · rw [← not_or, not_not] at hn
      rcases hn with rfl | rfl
      · exact ih (walkNames_point (v := v) ▸ h)
      · exact ih (walkNames_points (v := v) ▸ h)

theorem has_of_walk {links : ℕ} (h : v.walk through links seen ns = .ok x) : v.Has x := by
  induction links generalizing seen ns x with
  | zero =>
    rw [walk] at h
    exact has_of_walkNames (fun _ _ _ hjump => by cases hjump) h
  | succ links ih =>
    rw [walk] at h
    exact has_of_walkNames (fun _ _ _ => ih) h

/-- A way that does not end with a link is the same if a link there would be followed. -/
theorem walkNames_through (hjump : ∀ seen ns, jump seen ns = .ok x → jump' seen ns = .ok x)
    (hx : ∀ target, x.item ≠ some (.link target)) (h : v.walkNames false jump seen ns = .ok x) :
    v.walkNames true jump' seen ns = .ok x := by
  induction ns generalizing seen with
  | nil => exact h
  | cons n ns ih =>
    by_cases hn : n ≠ "." ∧ n ≠ ".."
    · rw [walkNames_name hn] at h ⊢
      obtain ⟨hlong, ⟨target, hlink, -, hrest⟩ | ⟨hns, hhere, -⟩ | ⟨hns, hdir, hrest⟩⟩ := h
      · exact ⟨hlong, .inl ⟨target, hlink, fun _ => rfl, hjump _ _ hrest⟩⟩
      · exact ⟨hlong, .inr (.inl ⟨hns, hhere, fun _ => hx⟩)⟩
      · exact ⟨hlong, .inr (.inr ⟨hns, hdir, ih hrest⟩)⟩
    · rw [← not_or, not_not] at hn
      rcases hn with rfl | rfl
      · rw [walkNames_point] at h ⊢
        exact ih h
      · rw [walkNames_points] at h ⊢
        exact ih h

theorem walk_through {links : ℕ} (hx : ∀ target, x.item ≠ some (.link target))
    (h : v.walk false links seen ns = .ok x) : v.walk true links seen ns = .ok x := by
  induction links generalizing seen ns with
  | zero =>
    rw [walk] at h ⊢
    exact walkNames_through (fun _ _ hjump => by cases hjump) hx h
  | succ links ih =>
    rw [walk] at h ⊢
    exact walkNames_through (fun _ _ => ih) hx h

structure Steers (v w : Volume) : Prop where
  here : w.here = v.here
  link (k : String) (target : Path) : w.items[k]? = some (.link target) ↔ v.items[k]? = some (.link target)
  directory (k : String) : v.items[k]? = some .directory → w.items[k]? = some .directory

/-- Where the same directories and links are, names lead to the same place. -/
theorem Steers.walkNames (h : v.Steers w)
    (hjump : ∀ seen ns x, jump seen ns = .ok x → ∃ y, jump' seen ns = .ok y ∧ y.names = x.names)
    (hx : v.walkNames through jump seen ns = .ok x) :
    ∃ y, w.walkNames through jump' seen ns = .ok y ∧ y.names = x.names := by
  induction ns generalizing seen with
  | nil =>
    cases hx
    exact ⟨_, rfl, rfl⟩
  | cons n ns ih =>
    by_cases hn : n ≠ "." ∧ n ≠ ".."
    · simp only [walkNames_name hn]
      obtain ⟨hlong, ⟨target, hlink, hns, hrest⟩ | ⟨hns, rfl, hlast⟩ | ⟨hns, hdir, hrest⟩⟩ := (walkNames_name hn).mp hx
      · obtain ⟨y, hy, hnames⟩ := hjump _ _ _ hrest
        exact ⟨y, ⟨hlong, .inl ⟨target, (h.link _ _).mpr hlink, hns, hy⟩⟩, hnames⟩
      · exact ⟨_, ⟨hlong, .inr (.inl ⟨hns, rfl, fun ht target => mt (h.link _ target).mp (hlast ht target)⟩)⟩, rfl⟩
      · obtain ⟨y, hy, hnames⟩ := ih hrest
        exact ⟨y, ⟨hlong, .inr (.inr ⟨hns, h.directory _ hdir, hy⟩)⟩, hnames⟩
    · rw [← not_or, not_not] at hn
      rcases hn with rfl | rfl
      · rw [walkNames_point] at hx ⊢
        exact ih hx
      · rw [walkNames_points] at hx ⊢
        exact ih hx

theorem Steers.walk {links : ℕ} (h : v.Steers w) (hx : v.walk through links seen ns = .ok x) :
    ∃ y, w.walk through links seen ns = .ok y ∧ y.names = x.names := by
  induction links generalizing seen ns x with
  | zero =>
    rw [Volume.walk] at hx ⊢
    exact h.walkNames (fun _ _ _ hjump => by cases hjump) hx
  | succ links ih =>
    rw [Volume.walk] at hx ⊢
    exact h.walkNames (fun _ _ _ => ih) hx

end Walk

section Place

variable {through : Bool}

theorem follow_eq_ok : v.follow through p = .ok x ↔ Folder.checkPath p = .ok () ∧
    v.walk through maxLinks (if p.isAbsolute then [] else v.here) p.names = .ok x := by
  rw [follow]
  cases Folder.checkPath p with
  | error e => simp [bind, Except.bind]
  | ok _ => simp [bind, Except.bind]

theorem has_of_follow (h : v.follow through p = .ok x) : v.Has x := has_of_walk (follow_eq_ok.mp h).2

def Stands (v : Volume) (p : Path) (k : String) : Prop := ∃ x, v.follow false p = .ok x ∧ x.key = k

def Leads (v : Volume) (p : Path) (k : String) : Prop := ∃ x, v.follow true p = .ok x ∧ x.key = k

theorem Stands.unique (hj : v.Stands p j) (hk : v.Stands p k) : j = k := by
  obtain ⟨x, hx, rfl⟩ := hj
  obtain ⟨y, hy, rfl⟩ := hk
  rw [hx] at hy
  cases hy
  rfl

theorem Leads.unique (hj : v.Leads p j) (hk : v.Leads p k) : j = k := by
  obtain ⟨x, hx, rfl⟩ := hj
  obtain ⟨y, hy, rfl⟩ := hk
  rw [hx] at hy
  cases hy
  rfl

theorem Stands.leads (h : v.Stands p k) (hk : ∀ target, v.items[k]? ≠ some (.link target)) : v.Leads p k := by
  obtain ⟨x, hx, rfl⟩ := h
  obtain ⟨hcheck, hwalk⟩ := follow_eq_ok.mp hx
  have hlink (target : Path) : x.item ≠ some (.link target) := by
    rcases has_of_walk hwalk with hdir | hhere
    · rw [hdir]
      simp
    · rw [hhere]
      exact hk target
  exact ⟨x, follow_eq_ok.mpr ⟨hcheck, walk_through hlink hwalk⟩, rfl⟩

theorem Steers.follow (h : v.Steers w) (hx : v.follow through p = .ok x) :
    ∃ y, w.follow through p = .ok y ∧ y.key = x.key := by
  obtain ⟨hcheck, hwalk⟩ := follow_eq_ok.mp hx
  obtain ⟨y, hy, hnames⟩ := h.walk hwalk
  rw [← h.here] at hy
  exact ⟨y, follow_eq_ok.mpr ⟨hcheck, hy⟩, congrArg Folder.keyOf hnames⟩

theorem Stands.congr (hk : v.Stands p k) (h : v.Steers w) : w.Stands p k := by
  obtain ⟨x, hx, rfl⟩ := hk
  exact h.follow hx

theorem Leads.congr (hk : v.Leads p k) (h : v.Steers w) : w.Leads p k := by
  obtain ⟨x, hx, rfl⟩ := hk
  exact h.follow hx

end Place

def SameFile (v : Volume) (j k : String) : Prop := ∃ i, v.items[j]? = some (.file i) ∧ v.items[k]? = some (.file i)

theorem content?_of_file (h : v.items[k]? = some (.file i)) : v.content? k = some (v.content i) := by
  rw [content?, h]
  rfl

theorem content?_congr (hitem : w.items[k]? = v.items[k]?) (hcontents : w.contents = v.contents) :
    w.content? k = v.content? k := by
  have hcontent : w.content = v.content := funext fun i => by rw [content, content, hcontents]
  rw [content?, content?, hitem, hcontent]

/-- Directories are new where nothing was on the way to a path, and nothing else has changed. -/
structure Grows (v : Volume) (p : Path) (w : Volume) : Prop where
  here : w.here = v.here
  contents : w.contents = v.contents
  items (k : String) : w.items[k]? = v.items[k]? ∨
    v.items[k]? = none ∧ w.items[k]? = some .directory ∧ ∃ q, p.Above q ∧ w.Stands q k

namespace Grows

theorem refl (v : Volume) (p : Path) : v.Grows p v := ⟨rfl, rfl, fun _ => .inl rfl⟩

theorem directory (h : v.Grows p w) (hk : v.items[k]? = some .directory) : w.items[k]? = some .directory := by
  rcases h.items k with hsame | ⟨hnone, -⟩
  · rw [hsame, hk]
  · rw [hnone] at hk
    cases hk

theorem steers (h : v.Grows p w) : v.Steers w := by
  refine ⟨h.here, fun k target => ?_, fun k => h.directory⟩
  rcases h.items k with hsame | ⟨hnone, hdir, -⟩
  · rw [hsame]
  · simp [hnone, hdir]

theorem trans (hvw : v.Grows p w) (hwu : w.Grows p u) : v.Grows p u where
  here := hwu.here.trans hvw.here
  contents := hwu.contents.trans hvw.contents
  items k := by
    rcases hwu.items k with hk | ⟨hnone, hdir, hway⟩
    · rw [hk]
      exact (hvw.items k).imp_right fun ⟨hnone, hdir, q, hq, hstands⟩ =>
        ⟨hnone, hdir, q, hq, hstands.congr hwu.steers⟩
    · rcases hvw.items k with hk | ⟨-, hdir', -⟩
      · exact .inr ⟨hk ▸ hnone, hdir, hway⟩
      · rw [hdir'] at hnone
        cases hnone

theorem content? (h : v.Grows p w) (k : String) : w.content? k = v.content? k := by
  rcases h.items k with hsame | ⟨hnone, hdir, -⟩
  · exact content?_congr hsame h.contents
  · rw [Volume.content?, Volume.content?, hnone, hdir]
    rfl

end Grows

theorem getElem?_insert (m : Std.ExtTreeMap String Item) (k : String) (item : Item) (j : String) :
    (m.insert k item)[j]? = if k = j then some item else m[j]? := by
  rw [Std.ExtTreeMap.getElem?_insert]
  simp

theorem getElem?_erase (m : Std.ExtTreeMap String Item) (k j : String) :
    (m.erase k)[j]? = if k = j then none else m[j]? := by
  rw [Std.ExtTreeMap.getElem?_erase]
  simp

theorem makeDirectory_eq_ok (h : v.makeDirectory q = .ok w) : ∃ k, v.Stands q k ∧ v.items[k]? = none ∧
    w = { v with items := v.items.insert k .directory } := by
  rw [makeDirectory] at h
  cases hx : v.follow false q with
  | error e => simp [hx, bind, Except.bind] at h
  | ok x =>
    cases hitem : x.item with
    | some item => simp [hx, hitem, bind, Except.bind, Folder.throw_eq] at h
    | none =>
      simp only [hx, hitem, bind, Except.bind, pure, Except.pure, Except.ok.injEq] at h
      refine ⟨x.key, ⟨x, hx, rfl⟩, ?_, h.symm⟩
      rw [← (has_of_follow hx).resolve_left (by simp [hitem]), hitem]

/-- A way stays where a file or a directory is put in place of a file or of nothing. -/
theorem steers_insert {item : Item} (hitem : ∀ target, item ≠ .link target)
    (hk : v.items[k]? = none ∨ ∃ i, v.items[k]? = some (.file i)) (contents : Std.ExtTreeMap ℕ Bytes) :
    v.Steers { v with items := v.items.insert k item, contents } := by
  refine ⟨rfl, fun j target => ?_, fun j hj => ?_⟩ <;> rw [getElem?_insert]
  · by_cases hkj : k = j
    · rw [if_pos hkj, ← hkj]
      rcases hk with hk | ⟨i, hk⟩ <;> simp [hk, hitem target]
    · rw [if_neg hkj]
  · rw [if_neg, hj]
    rintro rfl
    rcases hk with hk | ⟨i, hk⟩ <;> simp [hk] at hj

theorem grows_makeDirectory (hq : p.Above q) (h : v.makeDirectory q = .ok w) : v.Grows p w := by
  obtain ⟨k, hk, hnone, rfl⟩ := makeDirectory_eq_ok h
  refine ⟨rfl, rfl, fun j => ?_⟩
  rw [getElem?_insert]
  split_ifs with hkj
  · rw [← hkj]
    exact .inr ⟨hnone, rfl, q, hq, hk.congr (steers_insert (by simp) (.inl hnone) v.contents)⟩
  · exact .inl rfl

/-- A content is in the file to which a path leads, behind all links; the file is new if nothing was there. -/
def Written (v : Volume) (p : Path) (b : Bytes) (w : Volume) : Prop :=
  ∃ k i, v.Leads p k ∧
    (v.items[k]? = some (.file i) ∨ v.items[k]? = none ∧ ∀ j : String, v.items[j]? ≠ some (.file i)) ∧
    w = v.put k i b

theorem content_put (v : Volume) (k : String) (i : ℕ) (b : Bytes) (n : ℕ) :
    (v.put k i b).content n = if i = n then b else v.content n := by
  rw [content, put, Std.ExtTreeMap.getElem?_insert]
  by_cases h : i = n <;> simp [h, content]

theorem written_write (h : v.write p b = .ok w) : v.Written p b w := by
  rw [write, target] at h
  cases hx : v.follow true p with
  | error e => simp [hx, bind, Except.bind] at h
  | ok x =>
    have hhas := has_of_follow hx
    cases hslash : p.isDirectoryOnly with
    | true => simp [hx, hslash, bind, Except.bind, Folder.throw_eq] at h
    | false =>
      rw [Has] at hhas
      rcases hitem : x.item with _ | ⟨i | _ | target⟩ <;> rw [hitem] at hhas <;>
        simp only [hx, hslash, hitem, bind, Except.bind, Bool.false_eq_true, if_false, pure, Except.pure,
          Folder.throw_eq, Except.ok.injEq, reduceCtorEq] at h
      · exact ⟨x.key, v.fresh, ⟨x, hx, rfl⟩, .inr ⟨(hhas.resolve_left nofun).symm, v.items_fresh⟩, h.symm⟩
      · exact ⟨x.key, i, ⟨x, hx, rfl⟩, .inl (hhas.resolve_left (by simp)).symm, h.symm⟩

inductive Renamed (v : Volume) (p q : Path) : Volume → Prop
  | same {j k : String} (hp : v.Stands p j) (hq : v.Stands q k) (hfile : v.SameFile j k) : Renamed v p q v
  | moved {j k : String} {item : Item} (hp : v.Stands p j) (hq : v.Stands q k) (hj : v.items[j]? = some item)
      (hitem : item ≠ .directory) (hk : v.items[k]? ≠ some .directory) (hfile : ¬ v.SameFile j k) :
      Renamed v p q (v.move j k item)

theorem renamed_rename (h : v.rename p q = .ok w) : v.Renamed p q w := by
  rw [rename] at h
  cases hcheckp : Folder.checkPath p with
  | error e => simp [hcheckp, bind, Except.bind] at h
  | ok _ =>
  cases hcheckq : Folder.checkPath q with
  | error e => simp [hcheckp, hcheckq, bind, Except.bind] at h
  | ok _ =>
  cases hx : v.follow false p with
  | error e => simp [hcheckp, hcheckq, hx, bind, Except.bind] at h
  | ok x =>
  cases hy : v.follow false q with
  | error e => simp [hcheckp, hcheckq, hx, hy, bind, Except.bind] at h
  | ok y =>
  cases hitem : x.item with
  | none =>
    simp only [hcheckp, hcheckq, hx, hy, hitem, bind, Except.bind, Folder.throw_eq] at h
    split_ifs at h
  | some item =>
  simp only [hcheckp, hcheckq, hx, hy, hitem, bind, Except.bind, Folder.throw_eq, pure, Except.pure] at h
  split_ifs at h with hpoints hne hslash hdir hfile <;> cases h
  all_goals
    have hj : v.items[x.key]? = some item := by
      rw [← (has_of_follow hx).resolve_left (by simp [hitem, hne]), hitem]
    have hhere := (has_of_follow hy).resolve_left hdir
    rw [hhere] at hdir hfile
  · obtain ⟨hnumber, hk⟩ := Bool.and_eq_true_iff.mp hfile
    cases item with
    | file i => exact .same ⟨x, hx, rfl⟩ ⟨y, hy, rfl⟩ ⟨i, hj, of_decide_eq_true hk⟩
    | directory | link => cases hnumber
  · refine .moved ⟨x, hx, rfl⟩ ⟨y, hy, rfl⟩ hj hne hdir fun ⟨i, hi, hk⟩ => hfile ?_
    rw [hj] at hi
    cases hi
    simp [Item.number?, hk]

namespace Written

variable (h : v.Written p b w)

include h

theorem steers : v.Steers w := by
  obtain ⟨k, i, -, hk, rfl⟩ := h
  exact steers_insert (by simp) (hk.symm.imp And.left fun hk => ⟨i, hk⟩) _

theorem steers_back : w.Steers v := by
  refine ⟨h.steers.here.symm, fun j target => (h.steers.link j target).symm, fun j hj => ?_⟩
  obtain ⟨k, i, -, -, rfl⟩ := h
  rw [put, getElem?_insert] at hj
  split_ifs at hj
  · cases hj
  · exact hj

theorem content? (hk : v.Leads p k) : w.content? k = some b := by
  obtain ⟨j, i, hj, -, rfl⟩ := h
  obtain rfl := hj.unique hk
  rw [content?_of_file (i := i) (by rw [put, getElem?_insert, if_pos rfl]), content_put, if_pos rfl]

theorem sameFile (hj : v.Stands p j) (hjk : j ≠ k) (hfile : w.SameFile j k) : v.SameFile j k := by
  have hlink (target : Path) : v.items[j]? ≠ some (.link target) := by
    intro hlink
    obtain ⟨i, hi, -⟩ := hfile
    rw [(h.steers.link j target).mpr hlink] at hi
    cases hi
  obtain ⟨j', i, hj', hplace, rfl⟩ := h
  obtain rfl := hj'.unique (hj.leads hlink)
  obtain ⟨n, hn, hk⟩ := hfile
  rw [put, getElem?_insert, if_pos rfl] at hn
  rw [put, getElem?_insert, if_neg hjk] at hk
  cases hn
  rcases hplace with hold | ⟨-, hnew⟩
  · exact ⟨i, hold, hk⟩
  · exact absurd hk (hnew k)

/-- Only names of the file that is written are concerned. -/
theorem elsewhere (hj : ∀ k, v.Leads p k → j ≠ k ∧ ¬ v.SameFile j k) :
    w.items[j]? = v.items[j]? ∧ w.content? j = v.content? j := by
  obtain ⟨k, i, hleads, hk, rfl⟩ := h
  obtain ⟨hne, hfile⟩ := hj k hleads
  have hitem : (v.put k i b).items[j]? = v.items[j]? := by rw [put, getElem?_insert, if_neg hne.symm]
  refine ⟨hitem, ?_⟩
  rw [Volume.content?, Volume.content?, hitem]
  rcases hn : v.items[j]? with _ | ⟨n | _ | target⟩
  · rfl
  · change some ((v.put k i b).content n) = some (v.content n)
    rw [content_put, if_neg]
    rintro rfl
    rcases hk with hk | ⟨-, hnew⟩
    · exact hfile ⟨_, hn, hk⟩
    · exact hnew j hn
  · rfl
  · rfl

end Written

namespace Renamed

variable (h : v.Renamed p q w)

include h

theorem directory (hk : v.items[k]? = some .directory) : w.items[k]? = some .directory := by
  cases h with
  | same => exact hk
  | @moved i j item hp hq hi hitem hj hfile =>
    rw [move, getElem?_insert, getElem?_erase, if_neg, if_neg, hk]
    · rintro rfl
      rw [hk] at hi
      cases hi
      exact hitem rfl
    · rintro rfl
      exact hj hk

/-- What a path names afterwards has the content of what was named by the other before. -/
theorem content? (hp : v.Stands p j) (hq : v.Stands q k) : w.content? k = v.content? j := by
  cases h with
  | same hp' hq' hfile =>
    obtain rfl := hp'.unique hp
    obtain rfl := hq'.unique hq
    obtain ⟨i, hj, hk⟩ := hfile
    rw [content?_of_file hj, content?_of_file hk]
  | moved hp' hq' hj =>
    obtain rfl := hp'.unique hp
    obtain rfl := hq'.unique hq
    rw [Volume.content?, Volume.content?, hj, move, getElem?_insert, if_pos rfl]
    rfl

/-- Nothing is left under the old name, unless it is another name of the same file. -/
theorem gone (hp : v.Stands p j) (hq : v.Stands q k) (hjk : j ≠ k) (hfile : ¬ v.SameFile j k) :
    w.items[j]? = none := by
  cases h with
  | same hp' hq' hfile' =>
    obtain rfl := hp'.unique hp
    obtain rfl := hq'.unique hq
    exact absurd hfile' hfile
  | moved hp' hq' =>
    obtain rfl := hp'.unique hp
    obtain rfl := hq'.unique hq
    rw [move, getElem?_insert, getElem?_erase, if_neg hjk.symm, if_pos rfl]

theorem elsewhere (hp : ¬ v.Stands p k) (hq : ¬ v.Stands q k) :
    w.items[k]? = v.items[k]? ∧ w.content? k = v.content? k := by
  cases h with
  | same => exact ⟨rfl, rfl⟩
  | @moved i j item hi hj =>
    have hitem : (v.move i j item).items[k]? = v.items[k]? := by
      rw [move, getElem?_insert, getElem?_erase, if_neg, if_neg]
      · rintro rfl
        exact hp hi
      · rintro rfl
        exact hq hj
    exact ⟨hitem, content?_congr hitem rfl⟩

end Renamed

/-- A key is neither that of a place nor that beside it, and no name of the file to which the latter leads. -/
structure Apart (v : Volume) (p beside : Path) (j : String) : Prop where
  notAt : ¬ v.Stands p j
  notBeside : ¬ v.Stands beside j
  noName (k : String) : v.Leads beside k → j ≠ k ∧ ¬ v.SameFile j k

/-- A content has been written beside a path, and what the name beside it stands for has been moved there. -/
def Saved (v : Volume) (p beside : Path) (b : Bytes) (w : Volume) : Prop :=
  ∃ u, v.Written beside b u ∧ u.Renamed beside p w

namespace Saved

variable {beside : Path} (h : v.Saved p beside b w)

include h

theorem directory (hk : v.items[k]? = some .directory) : w.items[k]? = some .directory := by
  obtain ⟨u, hwritten, hrenamed⟩ := h
  exact hrenamed.directory (hwritten.steers.directory k hk)

/-- Unless a link stands beside it, the content is at its place as a whole, and nothing is left beside it but a name
of the same file. -/
theorem whole (hj : v.Stands beside j) (hlink : ∀ target, v.items[j]? ≠ some (.link target)) (hk : v.Stands p k) :
    w.content? k = some b ∧ (j ≠ k → v.SameFile j k ∨ w.items[j]? = none) := by
  obtain ⟨u, hwritten, hrenamed⟩ := h
  have hju := hj.congr hwritten.steers
  have hku := hk.congr hwritten.steers
  refine ⟨?_, fun hjk => ?_⟩
  · rw [hrenamed.content? hju hku, hwritten.content? (hj.leads hlink)]
  · by_cases hfile : v.SameFile j k
    · exact .inl hfile
    · exact .inr (hrenamed.gone hju hku hjk (mt (hwritten.sameFile hj hjk) hfile))

theorem elsewhere (hj : v.Apart p beside j) : w.items[j]? = v.items[j]? ∧ w.content? j = v.content? j := by
  obtain ⟨u, hwritten, hrenamed⟩ := h
  have hback := hwritten.steers_back
  obtain ⟨hitem, hcontent⟩ := hrenamed.elsewhere (mt (·.congr hback) hj.notBeside) (mt (·.congr hback) hj.notAt)
  obtain ⟨hitem', hcontent'⟩ := hwritten.elsewhere hj.noName
  exact ⟨hitem.trans hitem', hcontent.trans hcontent'⟩

end Saved

end Volume
end TokenLedger
