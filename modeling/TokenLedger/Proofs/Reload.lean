import TokenLedger.Host.Command
import TokenLedger.Proofs.Host.Folder
import TokenLedger.Proofs.Journal
import TokenLedger.Proofs.Snapshot

/-! Going on from a snapshot. A store that was saved is loaded again as it was, from a file as well, so a
session goes on from its snapshot as if nothing had happened. -/

namespace TokenLedger

namespace Host

section Save

variable {σ : Type} (disk : Disk (StateM σ)) (p : Path) (s : Store) (x : σ)

theorem replace_apply (beside : Path) (b : Bytes) : replace disk p beside b x =
    match disk.write beside b x with
    | (.error e, y) => (.error (.write beside e), y)
    | (.ok _, y) => match disk.rename beside p y with
      | (.error e, z) => (.error (.rename p e), z)
      | (.ok _, z) => (.ok (), z) := by
  rw [replace, bind_apply]
  generalize (disk.write beside b x : Except FileError Unit × σ) = y
  obtain ⟨_ | _, y⟩ := y
  · rfl
  · dsimp only
    rw [bind_apply]
    generalize (disk.rename beside p y : Except FileError Unit × σ) = z
    obtain ⟨_ | _, z⟩ := z <;> rfl

theorem saveState_apply : saveState disk p s x =
    if p.parent.text.isEmpty then replace disk p (p.withExtension "tmp") (Snapshot.save s) x
    else match disk.createDirectory p.parent x with
      | (.error e, y) => (.error (.createDirectory p.parent e), y)
      | (.ok _, y) => replace disk p (p.withExtension "tmp") (Snapshot.save s) y := by
  rw [saveState]
  split
  · rfl
  · rw [bind_apply]
    generalize (disk.createDirectory p.parent x : Except FileError Unit × σ) = y
    obtain ⟨_ | _, y⟩ := y <;> rfl

end Save

variable {f g : Folder} {p : Path} {s : Store}

theorem loadState_apply : loadState Folder.disk p f =
    if f.isThere p then match f.read p with
      | .error e => (.error (.read p e), f)
      | .ok b => match Snapshot.load b with
        | .error e => (.error (.parse p e), f)
        | .ok s => (.ok s, f)
    else (.ok .empty, f) := by
  rw [loadState, bind_apply, Folder.isThere_apply]
  cases f.isThere p with
  | false => rfl
  | true =>
    dsimp only
    rw [if_neg (by decide), if_pos rfl, bind_apply, Folder.read_apply]
    cases f.read p with
    | error e => rfl
    | ok b =>
      dsimp only
      cases Snapshot.load b <;> rfl

theorem read_replace {beside : Path} {b : Bytes} (h : replace Folder.disk p beside b f = (.ok (), g)) :
    g.read p = .ok b := by
  rw [replace_apply, Folder.write_apply] at h
  cases hw : f.write beside b with
  | error e =>
    rw [hw] at h
    cases h
  | ok f₁ =>
    simp only [hw, Folder.rename_apply] at h
    cases hr : f₁.rename beside p with
    | error e =>
      rw [hr] at h
      cases h
    | ok f₂ =>
      rw [hr] at h
      cases h
      exact Folder.read_rename hr (Folder.read_write hw)

/-- Under file names that are not the names of directories a content is put in its place, and nothing else is
touched but what was beside it. -/
theorem replace_fileName {beside : Path} (hp : p.IsFileName) (hb : beside.IsFileName)
    (hf : f[p.text]? ≠ some .directory) (hbeside : f[beside.text]? ≠ some .directory) (b : Bytes) :
    ∃ g : Folder, replace Folder.disk p beside b f = (.ok (), g) ∧ ∀ k : String,
      g[k]? = if p.text = k then some (.file b) else if beside.text = k then none else f[k]? := by
  have hsource : (f.insert beside.text (.file b))[beside.text]? = some (.file b) := by
    rw [Folder.getElem?_insert, if_pos rfl]
  have htarget : (f.insert beside.text (.file b))[p.text]? ≠ some .directory := by
    rw [Folder.getElem?_insert]
    split
    · nofun
    · exact hf
  refine ⟨((f.insert beside.text (.file b)).erase beside.text).insert p.text (.file b), ?_, fun k => ?_⟩
  · rw [replace_apply, Folder.write_apply, Folder.write_name hb hbeside]
    dsimp only
    rw [Folder.rename_apply, Folder.rename_name hb hp hsource htarget]
  · rw [Folder.getElem?_insert, Folder.getElem?_erase, Folder.getElem?_insert]
    split_ifs <;> rfl

theorem read_saveState (h : saveState Folder.disk p s f = (.ok (), g)) : g.read p = .ok (Snapshot.save s) := by
  rw [saveState_apply] at h
  split_ifs at h
  · exact read_replace h
  · split at h
    · cases h
    · exact read_replace h

theorem loadState_of_read (h : f.read p = .ok (Snapshot.save s)) : loadState Folder.disk p f = (.ok s, f) := by
  rw [loadState_apply, if_pos (Folder.isThere_of_read h), h]
  simp only [Snapshot.load_save]

end Host

theorem Session.answers_append (c : Contract) (x : Session) (as bs : List Step) :
    (run c x (as ++ bs)).1 = (run c x as).1 ++ (run c (run c x as).2 bs).1 := by
  induction as generalizing x with
  | nil => rfl
  | cons a as ih => exact congrArg _ (ih _)

theorem Session.length_answers (c : Contract) (x : Session) (as : List Step) :
    (run c x as).1.length = as.length := by
  induction as generalizing x with
  | nil => rfl
  | cons a as ih => exact congrArg _ (ih _)

theorem Session.step_reload (c : Contract) {x : Session} (hx : x.opened = ∅) :
    x.step c .reload = (.ok .done, x) := by
  rw [step, load, Snapshot.load_save, ← hx]

/-- A store that was saved is loaded as it was, from its file as well. So a session in which no transaction
is open can go on from its snapshot at any time: whatever is done later has the answers it would have had,
and leads to where it would have led. -/
theorem reload_invisible :
    (∀ s : Store, Snapshot.load (Snapshot.save s) = .ok s) ∧
    (∀ (p : Path) (s : Store) (f g : Folder), Host.saveState Folder.disk p s f = (.ok (), g) →
      g.read p = .ok (Snapshot.save s) ∧ Host.loadState Folder.disk p g = (.ok s, g)) ∧
    ∀ (c : Contract) (x : Session) (as bs : List Step), (Session.run c x as).2.opened = ∅ →
      ∃ earlier later y, earlier.length = as.length ∧ Session.run c x (as ++ bs) = (earlier ++ later, y) ∧
        Session.run c x (as ++ .reload :: bs) = (earlier ++ .ok .done :: later, y) := by
  refine ⟨Snapshot.load_save, fun p s f g h => ?_, fun c x as bs hx => ?_⟩
  · have hread := Host.read_saveState h
    exact ⟨hread, Host.loadState_of_read hread⟩
  · refine ⟨_, _, _, Session.length_answers c x as, Prod.ext (Session.answers_append c x as bs) rfl, ?_⟩
    have hrun : Session.run c (Session.run c x as).2 (.reload :: bs) =
        (.ok .done :: (Session.run c (Session.run c x as).2 bs).1, (Session.run c (Session.run c x as).2 bs).2) := by
      rw [Session.run, Session.step_reload c hx]
    refine Prod.ext ?_ ?_
    · rw [Session.answers_append, hrun]
    · rw [Session.run_append, hrun, Session.run_append]

def afterDeletion : Store :=
  ⟨2, ((∅ : Table Entry).insert "TOKEN/€" ⟨2, none⟩).insert "WALLETS/alice" ⟨1, some []⟩⟩

theorem reload_invisible_afterDeletion :
    (∃ g, Host.saveState Folder.disk ⟨"data/state.json"⟩ afterDeletion ∅ = (.ok (), g) ∧
      Host.loadState Folder.disk ⟨"data/state.json"⟩ g = (.ok afterDeletion, g)) ∧
    (Session.run .signing .empty (listing ++ [.reload, .save])).2 =
      (Session.run .signing .empty (listing ++ [.save])).2 := by
  constructor
  · obtain ⟨r, g, hg⟩ : ∃ r g, Host.saveState Folder.disk ⟨"data/state.json"⟩ afterDeletion ∅ = (r, g) :=
      ⟨_, _, rfl⟩
    have hsave : (Host.saveState Folder.disk ⟨"data/state.json"⟩ afterDeletion ∅).1 = .ok () := by decide +kernel
    rw [hg] at hsave
    obtain rfl : r = .ok () := hsave
    exact ⟨g, hg, (reload_invisible.2.1 _ _ _ _ hg).2⟩
  · have hopened : (Session.run .signing .empty listing).2.opened = ∅ := by decide +kernel
    obtain ⟨_, _, y, -, hwithout, hwith⟩ := reload_invisible.2.2 .signing .empty listing [.save] hopened
    exact (congrArg Prod.snd hwith).trans (congrArg Prod.snd hwithout).symm

end TokenLedger
