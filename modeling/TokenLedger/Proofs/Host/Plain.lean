import TokenLedger.Host.Machine
import TokenLedger.Proofs.Host.Volume

/-! A folder is a plain volume: one without links in which no file has two names, and where commands run at the root.
As long as nothing goes wrong, a machine with such a volume does what is done in the folder. -/

namespace TokenLedger

namespace Volume

inductive Sees (v : Volume) : Option Item → Option Node → Prop
  | none : Sees v none none
  | directory : Sees v (some .directory) (some .directory)
  | file (i : ℕ) : Sees v (some (.file i)) (some (.file (v.content i)))

theorem Sees.congr {v w : Volume} {item : Option Item} {node : Option Node} (h : v.Sees item node)
    (hw : w.contents = v.contents) : w.Sees item node := by
  have hcontent : w.content = v.content := funext fun i => by rw [content, content, hw]
  cases h with
  | none => exact .none
  | directory => exact .directory
  | file i =>
    rw [← hcontent]
    exact .file i

structure Plain (v : Volume) (f : Folder) : Prop where
  here : v.here = []
  sees (k : String) : v.Sees v.items[k]? f[k]?
  names (j k : String) (i : ℕ) : v.items[j]? = some (.file i) → v.items[k]? = some (.file i) → j = k

inductive Meets (v : Volume) : Except FileError Folder.Place → Except FileError Place → Prop
  | refused (e : FileError) : Meets v (.error e) (.error e)
  | reached {names : List String} {node : Option Node} {item : Option Item} (hhas : v.Has ⟨names, item⟩)
      (h : v.Sees item node) : Meets v (.ok ⟨names, node⟩) (.ok ⟨names, item⟩)

/-- Operations that fail for the same reason, or give a folder and a plain volume that is seen as this folder. -/
inductive Agrees : Except FileError Folder → Except FileError Volume → Prop
  | refused (e : FileError) : Agrees (.error e) (.error e)
  | done {g : Folder} {w : Volume} (h : w.Plain g) : Agrees (.ok g) (.ok w)

namespace Plain

variable {v : Volume} {f : Folder} (h : v.Plain f) {p q : Path} {b : Bytes}

include h

theorem walkNames (through : Bool) (jump : List String → List String → Except FileError Place)
    (seen ns : List String) : v.Meets (f.walk seen ns) (v.walkNames through jump seen ns) := by
  induction ns generalizing seen with
  | nil => exact .reached (.inl rfl) .directory
  | cons n ns ih =>
    rw [Folder.walk, Volume.walkNames]
    split_ifs
    · exact ih seen
    · exact ih seen.dropLast
    · exact .refused .nameTooLong
    · have hsees := h.sees (Folder.keyOf (seen ++ [n]))
      dsimp only
      generalize hitem : v.items[Folder.keyOf (seen ++ [n])]? = item, f[Folder.keyOf (seen ++ [n])]? = node at hsees
      cases ns with
      | nil => cases hsees <;> exact .reached (.inr hitem.symm) (by constructor)
      | cons m ns =>
        cases hsees with
        | none => exact .refused .missing
        | directory => exact ih (seen ++ [n])
        | file i => exact .refused .notDirectory

theorem follow (through : Bool) (p : Path) : v.Meets (f.follow p) (v.follow through p) := by
  rw [Folder.follow, Volume.follow, h.here, ite_self]
  cases Folder.checkPath p with
  | error e => exact .refused e
  | ok _ => exact h.walkNames through _ [] p.names

theorem find (p : Path) : v.Meets (f.find p) (v.find p) := by
  rw [Folder.find, Volume.find]
  have hmeets := h.follow true p
  generalize f.follow p = a, v.follow true p = c at hmeets
  cases hmeets with
  | refused e => exact .refused e
  | reached hhas hsees =>
    cases hsees with
    | none => exact .reached hhas .none
    | directory => exact .reached hhas .directory
    | file i =>
      change v.Meets (if _ then _ else _) (if _ then _ else _)
      split_ifs
      · exact .refused .notDirectory
      · exact .reached hhas (.file i)

theorem isThere (p : Path) : f.isThere p = v.isThere p := by
  rw [Folder.isThere, Volume.isThere]
  have hmeets := h.find p
  generalize f.find p = a, v.find p = c at hmeets
  cases hmeets with
  | refused e => rfl
  | reached hhas hsees => cases hsees <;> rfl

theorem isDirectory (p : Path) : f.isDirectory p = v.isDirectory p := by
  rw [Folder.isDirectory, Volume.isDirectory]
  have hmeets := h.find p
  generalize f.find p = a, v.find p = c at hmeets
  cases hmeets with
  | refused e => rfl
  | reached hhas hsees => cases hsees <;> rfl

theorem read (p : Path) : f.read p = v.read p := by
  rw [Folder.read, Volume.read]
  have hmeets := h.find p
  generalize f.find p = a, v.find p = c at hmeets
  cases hmeets with
  | refused e => rfl
  | reached hhas hsees => cases hsees <;> rfl

theorem node_of_file {k : String} {i : ℕ} (hk : v.items[k]? = some (.file i)) : f[k]? = some (.file (v.content i)) := by
  have hsees := h.sees k
  rw [hk] at hsees
  generalize f[k]? = node at hsees
  cases hsees
  rfl

/-- A file is put where it was, or a new one where nothing was. -/
theorem put {k : String} {i : ℕ}
    (hk : v.items[k]? = some (.file i) ∨ v.items[k]? = none ∧ ∀ j : String, v.items[j]? ≠ some (.file i)) (b : Bytes) :
    (v.put k i b).Plain (f.insert k (.file b)) := by
  have hother (j : String) (hj : k ≠ j) : v.items[j]? ≠ some (.file i) := by
    rcases hk with hk | ⟨-, hnew⟩
    · exact fun hfile => hj (h.names k j i hk hfile)
    · exact hnew j
  refine ⟨h.here, fun j => ?_, fun j j' n hj hj' => ?_⟩
  · rw [Volume.put, getElem?_insert, Folder.getElem?_insert]
    split_ifs with hkj
    · have hcontent : (v.put k i b).content i = b := by rw [content_put, if_pos rfl]
      nth_rewrite 2 [← hcontent]
      exact .file i
    · have hsees := h.sees j
      have hne := hother j hkj
      generalize v.items[j]? = item, f[j]? = node at hsees hne
      cases hsees with
      | none => exact .none
      | directory => exact .directory
      | file n =>
        have hcontent : (v.put k i b).content n = v.content n := by
          rw [content_put, if_neg]
          rintro rfl
          exact hne rfl
        rw [← hcontent]
        exact .file n
  · rw [Volume.put, getElem?_insert] at hj hj'
    split_ifs at hj hj' with hkj hkj' hkj'
    · exact hkj.symm.trans hkj'
    · cases hj
      exact absurd hj' (hother j' hkj')
    · cases hj'
      exact absurd hj (hother j hkj)
    · exact h.names j j' n hj hj'

theorem write (p : Path) (b : Bytes) : Agrees (f.write p b) (v.write p b) := by
  rw [Folder.write, Volume.write, target]
  have hmeets := h.follow true p
  generalize f.follow p = a, v.follow true p = c at hmeets
  cases hmeets with
  | refused e => exact .refused e
  | reached hhas hsees =>
  cases p.isDirectoryOnly with
  | true => exact .refused .isDirectory
  | false =>
  cases hsees with
  | none => exact .done (h.put (.inr ⟨(hhas.resolve_left (by simp)).symm, v.items_fresh⟩) b)
  | directory => exact .refused .isDirectory
  | file i => exact .done (h.put (.inl (hhas.resolve_left (by simp)).symm) b)

/-- A directory is put under a name. -/
theorem make (k : String) :
    ({ v with items := v.items.insert k .directory } : Volume).Plain (f.insert k .directory) := by
  refine ⟨h.here, fun j => ?_, fun j j' i hj hj' => ?_⟩
  · rw [getElem?_insert, Folder.getElem?_insert]
    split_ifs
    · exact .directory
    · exact (h.sees j).congr rfl
  · rw [getElem?_insert] at hj hj'
    split_ifs at hj
    · cases hj
    split_ifs at hj'
    · cases hj'
    exact h.names j j' i hj hj'

theorem makeDirectory (p : Path) : Agrees (f.makeDirectory p) (v.makeDirectory p) := by
  rw [Folder.makeDirectory, Volume.makeDirectory]
  have hmeets := h.follow false p
  generalize f.follow p = a, v.follow false p = c at hmeets
  cases hmeets with
  | refused e => exact .refused e
  | @reached names _ _ hhas hsees =>
    cases hsees with
    | directory | file => exact .refused .alreadyThere
    | none => exact .done (h.make (Folder.keyOf names))

/-- A file is found under another name. -/
theorem move {j k : String} {i : ℕ} (hj : v.items[j]? = some (.file i)) :
    (v.move j k (.file i)).Plain ((f.erase j).insert k (.file (v.content i))) := by
  have hother (n : String) (hn : j ≠ n) : v.items[n]? ≠ some (.file i) := fun hfile => hn (h.names j n i hj hfile)
  refine ⟨h.here, fun n => ?_, fun n n' i' hn hn' => ?_⟩
  · rw [Volume.move, getElem?_insert, Folder.getElem?_insert, getElem?_erase, Folder.getElem?_erase]
    split_ifs
    · exact .file i
    · exact .none
    · exact (h.sees n).congr rfl
  · have hcases (n m) (hn : (v.move j k (.file i)).items[n]? = some (.file m)) :
        n = k ∧ m = i ∨ j ≠ n ∧ v.items[n]? = some (.file m) := by
      rw [Volume.move, getElem?_insert, getElem?_erase] at hn
      split_ifs at hn with hkn hjn
      · cases hn
        exact .inl ⟨hkn.symm, rfl⟩
      · exact .inr ⟨hjn, hn⟩
    rcases hcases n i' hn with ⟨rfl, rfl⟩ | ⟨hjn, hfile⟩ <;> rcases hcases n' i' hn' with ⟨rfl, hi⟩ | ⟨hjn', hfile'⟩
    · rfl
    · exact absurd hfile' (hother n' hjn')
    · exact absurd (hi ▸ hfile) (hother n hjn)
    · exact h.names n n' i' hfile hfile'

theorem rename (p q : Path) : Agrees (f.rename p q) (v.rename p q) := by
  rw [Folder.rename, Volume.rename]
  have hmeetsp := h.follow false p
  have hmeetsq := h.follow false q
  cases hcheckp : Folder.checkPath p with
  | error e => exact .refused e
  | ok _ =>
  cases hcheckq : Folder.checkPath q with
  | error e => exact .refused e
  | ok _ =>
  rw [Folder.follow, hcheckp] at hmeetsp
  rw [Folder.follow, hcheckq] at hmeetsq
  change v.Meets (f.walk [] p.names) _ at hmeetsp
  change v.Meets (f.walk [] q.names) _ at hmeetsq
  generalize f.walk [] p.names = a, v.follow false p = x at hmeetsp
  generalize f.walk [] q.names = c, v.follow false q = y at hmeetsq
  cases hmeetsp with
  | refused e => exact .refused e
  | @reached names _ _ hhas hsees =>
  cases hmeetsq with
  | refused e => exact .refused e
  | @reached names' _ _ hhas' hsees' =>
  cases p.endsWithPoints || q.endsWithPoints with
  | true => exact .refused .busy
  | false =>
  cases hsees with
  | none => exact .refused .missing
  | directory => exact .refused .isDirectory
  | file i =>
  cases p.isDirectoryOnly || q.isDirectoryOnly with
  | true => exact .refused .notDirectory
  | false =>
  cases hsees' with
  | directory => exact .refused .isDirectory
  | none => exact .done (h.move (hhas.resolve_left (by simp)).symm)
  | file n =>
    have hj : v.items[Folder.keyOf names]? = some (.file i) := (hhas.resolve_left (by simp)).symm
    have hk := (hhas'.resolve_left (by simp)).symm
    change Agrees (.ok _) (.ok (if (true && decide _) = true then v else _))
    by_cases hn : n = i
    · subst hn
      have hsame : Folder.keyOf names = Folder.keyOf names' := h.names _ _ n hj hk
      rw [if_pos (by simp)]
      change Agrees (.ok ((f.erase (Folder.keyOf names)).insert (Folder.keyOf names') (.file (v.content n)))) _
      rw [← hsame, Folder.insert_erase (h.node_of_file hj)]
      exact .done h
    · rw [if_neg (by simpa using hn)]
      exact .done (h.move hj)

end Plain

/-- Every folder is what is seen of a plain volume. -/
theorem exists_plain (f : Folder) : ∃ v : Volume, v.Plain f := by
  induction hn : f.size generalizing f with
  | zero =>
    obtain rfl := Std.ExtTreeMap.eq_empty_iff_size_eq_zero.mpr hn
    refine ⟨⟨∅, ∅, []⟩, rfl, fun k => ?_, fun j k i hj => ?_⟩
    · simp only [Std.ExtTreeMap.getElem?_empty]
      exact .none
    · simp at hj
  | succ n ih =>
    cases hmin : f.minKey? with
    | none =>
      rw [Std.ExtTreeMap.minKey?_eq_none_iff.mp hmin] at hn
      simp at hn
    | some k =>
      have hmem : k ∈ f := Std.ExtTreeMap.minKey?_mem hmin
      obtain ⟨v, hv⟩ := ih (f.erase k) (by
        rw [Std.ExtTreeMap.size_erase, if_pos (Std.ExtTreeMap.contains_iff_mem.mpr hmem), hn, Nat.add_sub_cancel])
      have hnone : v.items[k]? = none := by
        have hsees := hv.sees k
        rw [Folder.getElem?_erase, if_pos rfl] at hsees
        generalize v.items[k]? = item at hsees
        cases hsees
        rfl
      cases hnode : f[k]? with
      | none => simp [Std.ExtTreeMap.mem_iff_isSome_getElem?, hnode] at hmem
      | some node =>
        rw [← Folder.insert_erase hnode]
        cases node with
        | file b => exact ⟨_, hv.put (.inr ⟨hnone, v.items_fresh⟩) b⟩
        | directory => exact ⟨_, hv.make k⟩

end Volume

namespace Machine

open Host

variable {α β : Type}

structure Calm (x : Machine) (f : Folder) : Prop where
  ahead : x.ahead = []
  plain : x.volume.Plain f

/-- A program gives the same in a folder and on a machine that is seen as this folder, of which it changes no more than
the files, and it is seen so afterwards. -/
def Alike (c : StateM Folder α) (d : StateM Machine α) : Prop :=
  ∀ f x, Calm x f → ∃ v, d x = ((c f).1, { x with volume := v }) ∧ v.Plain (c f).2

theorem alike_pure (a : α) : Alike (pure a) (pure a) := fun _ x h => ⟨x.volume, rfl, h.plain⟩

theorem Alike.bind {c : StateM Folder α} {d : StateM Machine α} {k : α → StateM Folder β} {l : α → StateM Machine β}
    (h : Alike c d) (hk : ∀ a, Alike (k a) (l a)) : Alike (c >>= k) (d >>= l) := by
  intro f x hx
  obtain ⟨v, hd, hv⟩ := h f x hx
  obtain ⟨w, hl, hw⟩ := hk (c f).1 (c f).2 { x with volume := v } ⟨hx.ahead, hv⟩
  refine ⟨w, ?_, hw⟩
  rw [bind_apply, hd]
  exact hl

theorem Calm.befalls {x : Machine} {f : Folder} (h : Calm x f) : x.befalls = none := by
  rw [Machine.befalls, h.ahead]
  rfl

theorem Calm.after {x : Machine} {f : Folder} (h : Calm x f) (v : Volume) : x.after v = { x with volume := v } := by
  rw [Machine.after, h.ahead]
  rfl

theorem alike_ask (refused : FileError → α) {ask : Folder → α} {answer : Volume → α}
    (h : ∀ v f, v.Plain f → ask f = answer v) :
    Alike (fun f => (ask f, f)) (attempt refused fun v => (answer v, v)) := by
  intro f x hx
  rw [attempt, hx.befalls, hx.after]
  dsimp only
  rw [h _ _ hx.plain]
  exact ⟨x.volume, rfl, hx.plain⟩

theorem alike_keep {act : Folder → Except FileError Folder} {act' : Volume → Except FileError Volume}
    (h : ∀ v f, v.Plain f → Volume.Agrees (act f) (act' v)) : Alike (Folder.keep act) (attempt .error (keep act')) := by
  intro f x hx
  have hagrees := h _ _ hx.plain
  rw [attempt, hx.befalls, Folder.keep, keep]
  dsimp only
  rw [hx.after]
  generalize act f = r, act' x.volume = r' at hagrees
  cases hagrees with
  | refused e => exact ⟨x.volume, rfl, hx.plain⟩
  | @done g w h => exact ⟨w, rfl, h⟩

theorem alike_isThere (p : Path) : Alike (Folder.disk.isThere p) (disk.isThere p) :=
  alike_ask (fun _ => false) fun _ _ h => h.isThere p

theorem alike_isDirectory (p : Path) : Alike (Folder.disk.isDirectory p) (disk.isDirectory p) :=
  alike_ask (fun _ => false) fun _ _ h => h.isDirectory p

theorem alike_read (p : Path) : Alike (Folder.disk.read p) (disk.read p) :=
  alike_ask Except.error fun _ _ h => h.read p

theorem alike_makeDirectory (p : Path) : Alike (Folder.disk.makeDirectory p) (disk.makeDirectory p) :=
  alike_keep fun _ _ h => h.makeDirectory p

theorem alike_rename (p q : Path) : Alike (Folder.disk.rename p q) (disk.rename p q) :=
  alike_keep fun _ _ h => h.rename p q

theorem alike_write (p : Path) (b : Bytes) : Alike (Folder.disk.write p b) (disk.write p b) := by
  intro f x hx
  have hkeep := alike_keep (fun _ _ h => h.write p b) f x hx
  rw [attempt, hx.befalls] at hkeep
  change ∃ v, write p b x = _ ∧ _
  rw [write, hx.befalls]
  exact hkeep

theorem alike_ensureDirectory (p : Path) : Alike (Folder.disk.ensureDirectory p) (disk.ensureDirectory p) := by
  rw [Disk.ensureDirectory, Disk.ensureDirectory]
  refine (alike_makeDirectory p).bind fun made => ?_
  cases made with
  | ok _ => exact alike_pure _
  | error e => exact (alike_isDirectory p).bind fun _ => alike_pure _

theorem alike_makeWay (fuel : ℕ) (p : Path) : Alike (Folder.disk.makeWay fuel p) (disk.makeWay fuel p) := by
  induction fuel generalizing p with
  | zero => exact alike_pure _
  | succ fuel ih =>
    rw [Disk.makeWay, Disk.makeWay]
    split
    · exact alike_pure _
    refine (alike_ensureDirectory p).bind fun made => ?_
    split
    · refine (ih p.parent).bind fun way => ?_
      cases way with
      | ok _ => exact alike_ensureDirectory p
      | error e => exact alike_pure _
    · exact alike_pure _

theorem alike_settings (config : Option Path) : Alike (settings Folder.disk config) (settings disk config) := by
  rw [settings, settings]
  refine (alike_isThere _).bind fun there => ?_
  split
  · exact alike_pure _
  refine (alike_read _).bind fun content => ?_
  cases content with
  | error e => exact alike_pure _
  | ok b =>
    dsimp only
    cases Text.ofUtf8? b with
    | none => exact alike_pure _
    | some t =>
      dsimp only
      cases Settings.ofText? t <;> exact alike_pure _

theorem alike_loadState (p : Path) : Alike (loadState Folder.disk p) (loadState disk p) := by
  rw [loadState, loadState]
  refine (alike_isThere p).bind fun there => ?_
  split
  · exact alike_pure _
  refine (alike_read p).bind fun content => ?_
  cases content with
  | error e => exact alike_pure _
  | ok b =>
    dsimp only
    cases Snapshot.load b <;> exact alike_pure _

theorem alike_replace (p beside : Path) (b : Bytes) :
    Alike (replace Folder.disk p beside b) (replace disk p beside b) := by
  rw [replace, replace]
  refine (alike_write beside b).bind fun written => ?_
  cases written with
  | error e => exact alike_pure _
  | ok _ =>
    refine (alike_rename beside p).bind fun renamed => ?_
    cases renamed <;> exact alike_pure _

theorem alike_saveState (p : Path) (s : Store) : Alike (saveState Folder.disk p s) (saveState disk p s) := by
  rw [saveState, saveState]
  split
  · rw [pure_bind, pure_bind]
    exact alike_replace _ _ _
  · refine (alike_makeWay _ _).bind fun made => ?_
    cases made with
    | error e => exact alike_pure _
    | ok _ => exact alike_replace _ _ _

theorem alike_invoke (set : Settings) (operation : String) (args : List String) :
    Alike (invoke Folder.disk set operation args) (invoke disk set operation args) := by
  rw [invoke, invoke]
  refine (alike_loadState _).bind fun loaded => ?_
  cases loaded with
  | error e => exact alike_pure _
  | ok store =>
    dsimp only
    split
    · exact alike_pure _
    · split
      · exact alike_pure _
      · refine (alike_saveState _ _).bind fun saved => ?_
        cases saved <;> exact alike_pure _

theorem alike_keygen (secret : Bytes) (directory : Path) :
    Alike (keygen Folder.disk secret directory) (keygen disk secret directory) := by
  rw [keygen, keygen]
  refine (alike_makeWay _ _).bind fun made => ?_
  cases made with
  | error e => exact alike_pure _
  | ok _ =>
    refine (alike_write _ _).bind fun written => ?_
    cases written with
    | error e => exact alike_pure _
    | ok _ =>
      refine (alike_write _ _).bind fun written => ?_
      cases written <;> exact alike_pure _

/-- A command does on a machine on which nothing goes wrong what it does in the folder. -/
theorem alike_run (fresh : Bytes) (args : List String) : Alike (run Folder.disk fresh args) (run disk fresh args) := by
  rw [run, run]
  split
  · exact alike_pure _
  · exact alike_pure _
  · exact alike_pure _
  · refine (alike_settings _).bind fun set => ?_
    cases set with
    | error e => exact alike_pure _
    | ok set =>
      dsimp only
      split
      · exact alike_invoke _ _ _
      · exact alike_keygen _ _
      · exact alike_pure _

/-- So a program on such a machine ends with the code of what comes of the command in the folder, and says it. -/
theorem program_of_calm {x : Machine} {f : Folder} (h : Calm x f) (fresh : Bytes) (args : List String) :
    ∃ v, v.Plain (run Folder.disk fresh args f).2 ∧ program disk terminal fresh args x =
      ((run Folder.disk fresh args f).1.exitCode, { x with
        volume := v
        printed := x.printed ++ (run Folder.disk fresh args f).1.output
        complained := x.complained ++ (run Folder.disk fresh args f).1.complaint }) := by
  obtain ⟨v, hrun, hv⟩ := alike_run fresh args f x h
  refine ⟨v, hv, ?_⟩
  generalize (run Folder.disk fresh args f).1 = out at hrun
  have hsay (y : Machine) (hy : y.ahead = []) (b : Bytes) :
      say terminal.print b y = (true, { y with printed := y.printed ++ b }) ∧
        say terminal.complain b y = (true, { y with complained := y.complained ++ b }) := by
    obtain ⟨w, ahead, printed, complained⟩ := y
    obtain rfl : ahead = [] := hy
    cases b with
    | nil => exact ⟨by rw [List.append_nil]; rfl, by rw [List.append_nil]; rfl⟩
    | cons c b => exact ⟨rfl, rfl⟩
  obtain ⟨hprint, -⟩ := hsay { x with volume := v } h.ahead out.output
  obtain ⟨-, hcomplain⟩ := hsay { x with volume := v, printed := x.printed ++ out.output } h.ahead out.complaint
  rw [program, bind_apply, hrun]
  dsimp only
  rw [bind_apply, hprint]
  dsimp only
  rw [bind_apply, hcomplain]
  dsimp only
  rw [Bool.and_self, Bool.not_true, Bool.and_false]
  rfl

end Machine
end TokenLedger
