import TokenLedger.Host.Machine
import TokenLedger.Proofs.Host.Command
import TokenLedger.Proofs.Host.Volume

/-! What a command leaves of the files, whatever goes wrong in its steps. A snapshot goes through a file beside its
place, so a command touches no other files than these two. -/

namespace TokenLedger

namespace Machine

open Host

variable {α β : Type} {p q : Path} {b : Bytes}

def Reads (c : StateM Machine α) : Prop := ∀ x, (c x).2.volume = x.volume

theorem reads_pure (a : α) : Reads (pure a : StateM Machine α) := fun _ => rfl

theorem Reads.bind {c : StateM Machine α} {k : α → StateM Machine β} (hc : Reads c) (hk : ∀ a, Reads (k a)) :
    Reads (c >>= k) := by
  intro x
  rw [bind_apply, hk, hc]

theorem reads_attempt (refused : FileError → α) (f : Volume → α) : Reads (attempt refused fun v => (f v, v)) := by
  intro x
  rw [attempt]
  split <;> rfl

theorem reads_isThere (p : Path) : Reads (disk.isThere p) := reads_attempt _ _

theorem reads_isDirectory (p : Path) : Reads (disk.isDirectory p) := reads_attempt _ _

theorem reads_read (p : Path) : Reads (disk.read p) := reads_attempt _ _

theorem reads_say {shows : Bytes → StateM Machine Bool} (h : ∀ b, Reads (shows b)) (b : Bytes) :
    Reads (say shows b) := by
  rw [say]
  split
  · exact reads_pure _
  · exact h b

theorem reads_settings (config : Option Path) : Reads (settings disk config) := by
  rw [settings]
  refine .bind (reads_isThere _) fun there => ?_
  split
  · exact reads_pure _
  refine .bind (reads_read _) fun content => ?_
  split
  · exact reads_pure _
  split
  · exact reads_pure _
  split <;> exact reads_pure _

theorem reads_loadState (p : Path) : Reads (loadState disk p) := by
  rw [loadState]
  refine .bind (reads_isThere _) fun there => ?_
  split
  · exact reads_pure _
  refine .bind (reads_read _) fun content => ?_
  split
  · exact reads_pure _
  split <;> exact reads_pure _

/-- A program makes directories on the way to a path, and changes nothing else. -/
def Makes (p : Path) (c : StateM Machine α) : Prop := ∀ x : Machine, x.volume.Grows p (c x).2.volume

theorem Reads.makes {c : StateM Machine α} (h : Reads c) : Makes p c := fun x => by
  rw [h x]
  exact .refl _ _

theorem Makes.bind {c : StateM Machine α} {k : α → StateM Machine β} (hc : Makes p c) (hk : ∀ a, Makes p (k a)) :
    Makes p (c >>= k) := fun x => (hc x).trans (hk _ _)

theorem keep_cases (act : Volume → Except FileError Volume) (v : Volume) :
    (∃ w, act v = .ok w ∧ keep act v = (.ok (), w)) ∨ ∃ e, keep act v = (.error e, v) := by
  cases h : act v with
  | ok w => exact .inl ⟨w, rfl, by rw [keep, h]⟩
  | error e => exact .inr ⟨e, by rw [keep, h]⟩

theorem attempt_cases (act : Volume → Except FileError Volume) (x : Machine) :
    (∃ w, act x.volume = .ok w ∧ attempt .error (keep act) x = (.ok (), x.after w)) ∨
      ∃ e, attempt .error (keep act) x = (.error e, x.after x.volume) := by
  rw [attempt]
  split
  · exact .inr ⟨_, rfl⟩
  · rcases keep_cases act x.volume with ⟨w, hact, hkeep⟩ | ⟨e, hkeep⟩
    · exact .inl ⟨w, hact, by rw [hkeep]⟩
    · exact .inr ⟨e, by rw [hkeep]⟩

theorem makeDirectory_cases (p : Path) (x : Machine) :
    (∃ w, x.volume.makeDirectory p = .ok w ∧ disk.makeDirectory p x = (.ok (), x.after w)) ∨
      ∃ e, disk.makeDirectory p x = (.error e, x.after x.volume) :=
  attempt_cases (·.makeDirectory p) x

theorem rename_cases (p q : Path) (x : Machine) :
    (∃ w, x.volume.rename p q = .ok w ∧ disk.rename p q x = (.ok (), x.after w)) ∨
      ∃ e, disk.rename p q x = (.error e, x.after x.volume) :=
  attempt_cases (·.rename p q) x

/-- A file is written as a whole, or that is refused, perhaps after a beginning. -/
theorem write_cases (p : Path) (b : Bytes) (x : Machine) :
    (∃ w, x.volume.Written p b w ∧ disk.write p b x = (.ok (), x.after w)) ∨
      ∃ e w, (w = x.volume ∨ ∃ n, x.volume.Written p (b.take n) w) ∧ disk.write p b x = (.error e, x.after w) := by
  change (∃ w, _ ∧ write p b x = _) ∨ ∃ e w, _ ∧ write p b x = _
  rw [write]
  split
  · rcases keep_cases (·.write p b) x.volume with ⟨w, hact, hkeep⟩ | ⟨e, hkeep⟩
    · exact .inl ⟨w, Volume.written_write hact, by rw [hkeep]⟩
    · exact .inr ⟨e, _, .inl rfl, by rw [hkeep]⟩
  · exact .inr ⟨_, _, .inl rfl, rfl⟩
  · rename_i e n _
    rcases keep_cases (·.write p (b.take n)) x.volume with ⟨w, hact, hkeep⟩ | ⟨e', hkeep⟩
    · exact .inr ⟨e, w, .inr ⟨n, Volume.written_write hact⟩, by rw [hkeep]; rfl⟩
    · exact .inr ⟨e', _, .inl rfl, by rw [hkeep]; rfl⟩

theorem makes_makeDirectory (h : p.Above q) : Makes p (disk.makeDirectory q) := by
  intro x
  rcases makeDirectory_cases q x with ⟨w, hact, h'⟩ | ⟨e, h'⟩ <;> rw [h']
  · exact Volume.grows_makeDirectory h hact
  · exact .refl _ _

theorem makes_ensureDirectory (h : p.Above q) : Makes p (disk.ensureDirectory q) := by
  rw [Disk.ensureDirectory]
  refine (makes_makeDirectory h).bind fun made => ?_
  split
  · exact (reads_pure _).makes
  · exact ((reads_isDirectory q).bind fun _ => reads_pure _).makes

/-- On the way to a directory nothing is lost, however far it is made. -/
theorem makes_makeWay (fuel : ℕ) (h : p.Above q) : Makes p (disk.makeWay fuel q) := by
  induction fuel generalizing q with
  | zero => exact (reads_pure _).makes
  | succ fuel ih =>
    rw [Disk.makeWay]
    split
    · exact (reads_pure _).makes
    refine (makes_ensureDirectory h).bind fun made => ?_
    split
    · refine (ih h.step).bind fun way => ?_
      split
      · exact makes_ensureDirectory h
      · exact (reads_pure _).makes
    · exact (reads_pure _).makes

end Machine

namespace Host

open Machine

inductive Puts (v : Volume) (p : Path) (b : Bytes) : Except StateError Unit → Volume → Prop where
  | refused {e : StateError} {u : Volume} (hu : v.Grows p u) : Puts v p b (.error e) u
  | part {e : StateError} {w u : Volume} (hw : v.Grows p w) (n : ℕ)
      (hu : w.Written (p.withExtension "tmp") (b.take n) u) : Puts v p b (.error e) u
  | saved {w u : Volume} (hw : v.Grows p w) (hu : w.Saved p (p.withExtension "tmp") b u) : Puts v p b (.ok ()) u

theorem puts_replace {v : Volume} {x : Machine} {p : Path} (hv : v.Grows p x.volume) (b : Bytes) :
    Puts v p b (replace disk p (p.withExtension "tmp") b x).1 (replace disk p (p.withExtension "tmp") b x).2.volume := by
  rw [replace_apply]
  rcases write_cases (p.withExtension "tmp") b x with ⟨w, hw, h⟩ | ⟨e, w, rfl | ⟨n, hw⟩, h⟩ <;> rw [h]
  · rcases rename_cases (p.withExtension "tmp") p (x.after w) with ⟨u, hu, h'⟩ | ⟨e, h'⟩ <;> dsimp only <;> rw [h']
    · exact .saved hv ⟨w, hw, Volume.renamed_rename hu⟩
    · exact .part hv b.length (by rwa [List.take_length])
  · exact .refused hv
  · exact .part hv n hw

theorem puts_saveState (p : Path) (s : Store) (x : Machine) :
    Puts x.volume p (Snapshot.save s) (saveState disk p s x).1 (saveState disk p s x).2.volume := by
  rw [saveState_apply]
  split
  · exact puts_replace (.refl _ _) _
  · have hway : x.volume.Grows p (disk.createDirectory p.parent x : Except FileError Unit × Machine).2.volume :=
      makes_makeWay _ .parent x
    generalize (disk.createDirectory p.parent x : Except FileError Unit × Machine) = y at hway
    obtain ⟨_ | _, y⟩ := y
    · exact .refused hway
    · exact puts_replace hway _

/-- An invocation on the ledger in the file `p` changes it to `t`. -/
def Commits (x : Machine) (o : Options) (operation : String) (args : List String) (p : Path) (t : Store) : Prop :=
  ∃ set y s z payload, settings disk o.config x = (.ok set, y) ∧ (adapted o set).statePath = p ∧
    loadState disk p y = (.ok s, z) ∧
    (contract set).execute s (adapted o set).callerRole operation args = (.ok payload, t) ∧ t.height ≠ s.height

inductive Leaves (x : Machine) (o : Options) (operation : String) (args : List String) : Outcome → Volume → Prop where
  | same {out : Outcome} {u : Volume} (hu : u = x.volume) (hc : ∀ p t, ¬ Commits x o operation args p t) :
      Leaves x o operation args out u
  | unsaved {p : Path} {t : Store} {e : StateError} {u : Volume} (hc : Commits x o operation args p t)
      (hput : Puts x.volume p (Snapshot.save t) (.error e) u) :
      Leaves x o operation args (.failed (.stateUnwritable p e)) u
  | saved {p : Path} {t : Store} {payload : Bytes} {u : Volume} (hc : Commits x o operation args p t)
      (hput : Puts x.volume p (Snapshot.save t) (.ok ()) u) :
      Leaves x o operation args (.printed (lineOf payload)) u

theorem leaves_run {args as : List String} {o : Options} {operation : String}
    (ho : Arguments.parse args = some (.run o (.invoke operation as))) (fresh : Bytes) (x : Machine) :
    Leaves x o operation as (run disk fresh args x).1 (run disk fresh args x).2.volume := by
  have hsettings := reads_settings o.config x
  obtain ⟨r, y, hset⟩ : ∃ r y, settings disk o.config x = (r, y) := ⟨_, _, rfl⟩
  rw [hset] at hsettings
  cases r with
  | error e =>
    rw [run_of_unsettled ho hset]
    refine .same hsettings fun p t ⟨set, _, _, _, _, hset', _⟩ => ?_
    rw [hset] at hset'
    cases hset'
  | ok set =>
  rw [run_apply ho hset]
  have hloaded := (reads_loadState (adapted o set).statePath y).trans hsettings
  obtain ⟨r, z, hload⟩ : ∃ r z, loadState disk (adapted o set).statePath y = (r, z) := ⟨_, _, rfl⟩
  rw [hload] at hloaded
  cases r with
  | error e =>
    rw [invoke_of_unreadable hload]
    refine .same hloaded fun p t ⟨set', y', _, _, _, hset', hp, hload', _⟩ => ?_
    rw [hset] at hset'
    cases hset'
    rw [← hp, hload] at hload'
    cases hload'
  | ok s =>
  obtain ⟨r, t, hexecute⟩ : ∃ r t,
      (contract (adapted o set)).execute s (adapted o set).callerRole operation as = (r, t) := ⟨_, _, rfl⟩
  have hsole (p : Path) (t' : Store) (hc : Commits x o operation as p t') : t' = t ∧ r.isOk ∧ t.height ≠ s.height := by
    obtain ⟨set', y', s', z', payload, hset', hp, hload', hexecute', hheight⟩ := hc
    rw [hset] at hset'
    cases hset'
    rw [← hp, hload] at hload'
    cases hload'
    have heq := hexecute.symm.trans hexecute'
    cases heq
    exact ⟨rfl, rfl, hheight⟩
  cases r with
  | error f =>
    rw [invoke_of_error hload hexecute]
    exact .same hloaded fun p t' hc => by cases (hsole p t' hc).2.1
  | ok payload =>
  rw [invoke_of_ok hload hexecute]
  split_ifs with hheight
  · exact .same hloaded fun p t' hc => (hsole p t' hc).2.2 hheight
  have hc : Commits x o operation as (adapted o set).statePath t :=
    ⟨set, y, s, z, payload, hset, rfl, hload, hexecute, hheight⟩
  have hput := puts_saveState (adapted o set).statePath t z
  rw [hloaded] at hput
  generalize (saveState disk (adapted o set).statePath t z : Except StateError Unit × Machine) = w at hput
  obtain ⟨_ | _, w⟩ := w
  · exact .unsaved hc hput
  · exact .saved hc hput

/-- A program ends with the code of its outcome or breaks off, and leaves the files as they were then. -/
theorem program_spec (fresh : Bytes) (args : List String) (x : Machine) :
    ((program disk terminal fresh args x).1 = (run disk fresh args x).1.exitCode ∨
        (program disk terminal fresh args x).1 = brokenOff) ∧
      (program disk terminal fresh args x).2.volume = (run disk fresh args x).2.volume := by
  rw [program, bind_apply]
  generalize (run disk fresh args x : Outcome × Machine) = y
  obtain ⟨out, y⟩ := y
  rw [bind_apply]
  have hprint : (say terminal.print out.output y : Bool × Machine).2.volume = y.volume :=
    reads_say (fun _ _ => rfl) _ y
  generalize (say terminal.print out.output y : Bool × Machine) = z at hprint
  obtain ⟨printed, z⟩ := z
  rw [bind_apply]
  have hcomplain : (say terminal.complain out.complaint z : Bool × Machine).2.volume = z.volume :=
    reads_say (fun _ _ => rfl) _ z
  generalize (say terminal.complain out.complaint z : Bool × Machine) = w at hcomplain
  obtain ⟨complained, w⟩ := w
  refine ⟨?_, hcomplain.trans hprint⟩
  change (if _ then brokenOff else out.exitCode) = _ ∨ (if _ then brokenOff else out.exitCode) = _
  split_ifs
  · exact .inr rfl
  · exact .inl rfl

theorem exitCode_mem (out : Outcome) : out.exitCode ∈ [0, 1, 2] := by cases out <;> simp [Outcome.exitCode]

end Host

open Host Machine

/-- Whatever goes wrong, an invocation loses no directory, and it leaves the files as they were unless it has changed
the ledger. If it has, there may be new directories on the way to the file `p` of the ledger, and beside this file a
beginning of the new snapshot may have been written, or the whole of it. This is written to the file that is found
beside it, behind all links, and what stands there is moved to `p` only then. If this is a file and no link, `p` has
the whole snapshot. Nothing else has changed. -/
theorem command_frame {args as : List String} {o : Options} {operation : String}
    (ho : Arguments.parse args = some (.run o (.invoke operation as))) (fresh : Bytes) (x : Machine) :
    ∃ code y, program disk terminal fresh args x = (code, y) ∧
      (∀ k : String, x.volume.items[k]? = some .directory → y.volume.items[k]? = some .directory) ∧
      ((∀ p t, ¬ Commits x o operation as p t) ∧ y.volume = x.volume ∧ code ∈ [0, 1, 2, brokenOff] ∨
        ∃ p beside t w, Commits x o operation as p t ∧ beside = p.withExtension "tmp" ∧ x.volume.Grows p w ∧
          (∀ k, w.Apart p beside k → y.volume.items[k]? = w.items[k]? ∧
            y.volume.content? k = x.volume.content? k) ∧
          (code ∈ [2, brokenOff] ∧
              (y.volume = w ∨ ∃ n, w.Written beside ((Snapshot.save t).take n) y.volume) ∨
            code ∈ [0, brokenOff] ∧ w.Saved p beside (Snapshot.save t) y.volume ∧
              ∀ j k, w.Stands beside j → (∀ target, w.items[j]? ≠ some (.link target)) → w.Stands p k →
                y.volume.content? k = some (Snapshot.save t) ∧
                  (j ≠ k → w.SameFile j k ∨ y.volume.items[j]? = none))) := by
  obtain ⟨code, y, hprogram⟩ : ∃ code y, program disk terminal fresh args x = (code, y) := ⟨_, _, rfl⟩
  have hspec := program_spec fresh args x
  have hleaves := leaves_run ho fresh x
  rw [hprogram] at hspec
  obtain ⟨hcode, hvolume⟩ := hspec
  rw [← hvolume] at hleaves
  refine ⟨code, y, hprogram, ?_⟩
  generalize (run disk fresh args x).1 = out at hcode hleaves
  generalize y.volume = u at hleaves
  cases hleaves with
  | same hu hc =>
    have hmem : code ∈ [0, 1, 2, brokenOff] := by
      have hout := exitCode_mem out
      rcases hcode with rfl | rfl
      · rw [List.mem_cons, List.mem_cons, List.mem_singleton] at hout
        simp only [List.mem_cons]
        tauto
      · simp
    exact ⟨fun k hk => hu ▸ hk, .inl ⟨hc, hu, hmem⟩⟩
  | unsaved hc hput =>
    have hmem : code ∈ [2, brokenOff] := by rcases hcode with rfl | rfl <;> simp [Outcome.exitCode]
    cases hput with
    | refused hu =>
      exact ⟨fun k => hu.directory, .inr ⟨_, _, _, _, hc, rfl, hu, fun k _ => ⟨rfl, hu.content? k⟩,
        .inl ⟨hmem, .inl rfl⟩⟩⟩
    | part hw n hu =>
      refine ⟨fun k hk => hu.steers.directory k (hw.directory hk), .inr ⟨_, _, _, _, hc, rfl, hw, fun k hk => ?_,
        .inl ⟨hmem, .inr ⟨n, hu⟩⟩⟩⟩
      obtain ⟨hitem, hcontent⟩ := hu.elsewhere hk.noName
      exact ⟨hitem, hcontent.trans (hw.content? k)⟩
  | saved hc hput =>
    have hmem : code ∈ [0, brokenOff] := by rcases hcode with rfl | rfl <;> simp [Outcome.exitCode]
    obtain _ | _ | ⟨hw, hu⟩ := hput
    refine ⟨fun k hk => hu.directory (hw.directory hk), .inr ⟨_, _, _, _, hc, rfl, hw, fun k hk => ?_,
      .inr ⟨hmem, hu, fun j k => hu.whole⟩⟩⟩
    obtain ⟨hitem, hcontent⟩ := hu.elsewhere hk
    exact ⟨hitem, hcontent.trans (hw.content? k)⟩

/-- A machine with a note as its only file, these items under names in the directory of commands, and these mishaps
ahead. -/
def noted (items : List (String × Volume.Item)) (ahead : List (Option Mishap)) : Machine :=
  ⟨⟨.ofList items, (∅ : Std.ExtTreeMap Nat Bytes).insert 0 (Text.utf8 "keep me"), []⟩, ahead, [], []⟩

def registering : List String := ["invoke", "registerAddress", "alice"]

theorem parse_registering : Arguments.parse registering =
    some (.run ⟨none, none, none⟩ (.invoke "registerAddress" ["alice"])) := by decide +kernel

theorem command_frame_noted : ∃ y, program disk terminal [] registering (noted [("note", .file 0)] []) = (0, y) ∧
    (∃ p t w, Commits (noted [("note", .file 0)] []) ⟨none, none, none⟩ "registerAddress" ["alice"] p t ∧
      (noted [("note", .file 0)] []).volume.Grows p w ∧
      w.Saved p (p.withExtension "tmp") (Snapshot.save t) y.volume) ∧
    y.volume.content? "note" = some (Text.utf8 "keep me") := by
  obtain ⟨code, y, hprogram, -, hleft⟩ := command_frame parse_registering [] (noted [("note", .file 0)] [])
  have hcode : (program disk terminal [] registering (noted [("note", .file 0)] [])).1 = 0 := by decide +kernel
  have hstate : (program disk terminal [] registering (noted [("note", .file 0)] [])).2.volume.content?
      "coinbal.state.json" ≠ (noted [("note", .file 0)] []).volume.content? "coinbal.state.json" := by decide +kernel
  have hnote : (program disk terminal [] registering (noted [("note", .file 0)] [])).2.volume.content? "note" =
      some (Text.utf8 "keep me") := by decide +kernel
  rw [hprogram] at hcode hstate hnote
  obtain rfl : code = 0 := hcode
  refine ⟨y, hprogram, ?_, hnote⟩
  rcases hleft with ⟨-, hsame, -⟩ | ⟨p, -, t, w, hc, rfl, hw, -, ⟨htwo, -⟩ | ⟨-, hsaved, -⟩⟩
  · exact absurd (by rw [hsame]) hstate
  · exact absurd htwo (by decide)
  · exact ⟨p, t, w, hc, hw, hsaved⟩

/-- A command changes no file, or no other file than that of the ledger if it ends with zero. -/
def TouchesOnly (x : Machine) (args : List String) : Prop :=
  ∀ o operation as set y, Arguments.parse args = some (.run o (.invoke operation as)) →
    settings disk o.config x = (.ok set, y) →
      ((program disk terminal [] args x).1 ≠ 0 →
        ∀ k, (program disk terminal [] args x).2.volume.content? k = x.volume.content? k) ∧
      ((program disk terminal [] args x).1 = 0 →
        ∀ k, ¬ (program disk terminal [] args x).2.volume.Stands (adapted o set).statePath k →
          (program disk terminal [] args x).2.volume.content? k = x.volume.content? k)

section Counterexample

variable {x : Machine} {args as : List String} {o : Options} {operation k : String}

theorem settings_missing (h : (disk.isThere ⟨"coinbal.toml"⟩ x).1 = false) :
    ∃ y, settings disk none x = (.ok .default, y) := by
  obtain ⟨there, y, hthere⟩ : ∃ there y, disk.isThere ⟨"coinbal.toml"⟩ x = (there, y) := ⟨_, _, rfl⟩
  rw [hthere] at h
  obtain rfl : there = false := h
  refine ⟨y, ?_⟩
  rw [settings]
  dsimp only [Option.getD]
  rw [bind_apply, hthere]
  rfl

variable (ho : Arguments.parse args = some (.run o (.invoke operation as))) (hconfig : o.config = none)
  (hthere : (disk.isThere ⟨"coinbal.toml"⟩ x).1 = false)
  (hk : (program disk terminal [] args x).2.volume.content? k ≠ x.volume.content? k)

include ho hconfig hthere hk

theorem not_touchesOnly_of_ne_zero (hcode : (program disk terminal [] args x).1 ≠ 0) : ¬ TouchesOnly x args := by
  intro h
  obtain ⟨y, hset⟩ := settings_missing hthere
  rw [← hconfig] at hset
  exact hk ((h o operation as _ y ho hset).1 hcode k)

theorem not_touchesOnly_of_zero (hcode : (program disk terminal [] args x).1 = 0)
    (hstate : ((program disk terminal [] args x).2.volume.follow false
      (adapted o .default).statePath).toOption.map Volume.Place.key ≠ some k) : ¬ TouchesOnly x args := by
  intro h
  obtain ⟨y, hset⟩ := settings_missing hthere
  rw [← hconfig] at hset
  refine hk ((h o operation as _ y ho hset).2 hcode k ?_)
  rintro ⟨place, hplace, hkey⟩
  rw [hplace, ← hkey] at hstate
  exact hstate rfl

end Counterexample

/-- There is no space for more than these octets, or for a file at all. -/
def full (written : Option ℕ) : Option Mishap := some ⟨.other "No space left on device (os error 28)", written⟩

def launching : List String :=
  ["--role", "ADMIN", "invoke", "registerToken", "\x7b\"TokenType\":\"CRYPTO\",\"Symbol\":\"A\"\x7d", "alice"]

/-- A note is lost that stands where the snapshot is written first, and one to which a link leads from there. A
snapshot is left behind where the file of the ledger would have to be a directory, and a part of it where there is no
space for the whole. And a new ledger is saved although nobody can be told of it. -/
theorem not_touchesOnly :
    ¬ TouchesOnly (noted [("coinbal.state.tmp", .file 0)] []) registering ∧
    ¬ TouchesOnly (noted [("note", .file 0), ("coinbal.state.tmp", .link ⟨"note"⟩)] []) registering ∧
    ¬ TouchesOnly (noted [("note", .file 0)] []) ("--state" :: "s.json/" :: registering) ∧
    ¬ TouchesOnly (noted [("note", .file 0)] [none, none, full (some 5)]) registering ∧
    ¬ TouchesOnly (noted [("note", .file 0)] [none, none, none, none, full none]) launching := by
  have hstate : Arguments.parse ("--state" :: "s.json/" :: registering) =
      some (.run ⟨none, some ⟨"s.json/"⟩, none⟩ (.invoke "registerAddress" ["alice"])) := by decide +kernel
  have hlaunching : Arguments.parse launching = some (.run ⟨none, none, some .admin⟩
      (.invoke "registerToken" ["\x7b\"TokenType\":\"CRYPTO\",\"Symbol\":\"A\"\x7d", "alice"])) := by decide +kernel
  refine ⟨?_, ?_, ?_, ?_, ?_⟩
  · exact not_touchesOnly_of_zero (k := "coinbal.state.tmp") parse_registering rfl (by decide +kernel)
      (by decide +kernel) (by decide +kernel) (by decide +kernel)
  · exact not_touchesOnly_of_zero (k := "note") parse_registering rfl (by decide +kernel)
      (by decide +kernel) (by decide +kernel) (by decide +kernel)
  · exact not_touchesOnly_of_ne_zero (k := "s.tmp") hstate rfl (by decide +kernel) (by decide +kernel)
      (by decide +kernel)
  · exact not_touchesOnly_of_ne_zero (k := "coinbal.state.tmp") parse_registering rfl (by decide +kernel)
      (by decide +kernel) (by decide +kernel)
  · exact not_touchesOnly_of_ne_zero (k := "coinbal.state.json") hlaunching rfl (by decide +kernel)
      (by decide +kernel) (by decide +kernel)

end TokenLedger
