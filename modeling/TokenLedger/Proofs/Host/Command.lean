import TokenLedger.Proofs.Deed
import TokenLedger.Proofs.Host.Arguments
import TokenLedger.Proofs.Reload

/-! Commands that follow each other. Each of them loads the ledger from its file, and saves it there if it has
changed. What they print, and what the file holds in the end, is what the same operations answer and leave on
one store that is in memory all the time. -/

namespace TokenLedger

structure Invocation where
  role : Option Role
  operation : String
  args : List String

namespace Contract

def executeAll (c : Contract) (s : Store) : List Invocation → List (Except Failure Bytes) × Store
  | [] => ([], s)
  | i :: is =>
    let (r, t) := c.execute s i.role i.operation i.args
    let (rs, u) := c.executeAll t is
    (r :: rs, u)

/-- What an execution does to the height tells whether it has changed the store. -/
theorem execute_height (c : Contract) (s : Store) (role : Option Role) (name : String) (args : List String) :
    (c.execute s role name args).2 = s ∨ (c.execute s role name args).1.isOk ∧
      (c.execute s role name args).2.height ≠ s.height ∧ (c.execute s role name args).2 ≠ .empty := by
  rcases c.execute_cases s role name args with ⟨f, he⟩ | ⟨b, t, s', he, hs'⟩
  · exact .inl (by rw [he])
  · rw [he]
    cases hw : t.writes.isEmpty with
    | true =>
      rw [Transaction.commit_eq_ok, hw, if_pos rfl] at hs'
      exact .inl hs'.2
    | false =>
      refine .inr ⟨rfl, ?_, ?_⟩
      · rw [Transaction.height_commit hs', hw, if_neg (by decide)]
        simp
      · rintro rfl
        refine Std.ExtTreeMap.isEmpty_eq_false_iff.mp hw (Std.ExtTreeMap.ext_getElem? fun k => ?_)
        have hentry := Transaction.getElem?_entries_commit hs' k
        cases hk : t.writes[k]? with
        | none => simp
        | some v => simp [hk, Store.empty] at hentry

theorem executeAll_ne_empty (c : Contract) {s : Store} (hs : s ≠ .empty) (is : List Invocation) :
    (c.executeAll s is).2 ≠ .empty := by
  induction is generalizing s with
  | nil => exact hs
  | cons i is ih =>
    refine ih (s := (c.execute s i.role i.operation i.args).2) ?_
    rcases c.execute_height s i.role i.operation i.args with he | ⟨-, -, hne⟩
    · rwa [he]
    · exact hne

end Contract

namespace Host

/-- The outcomes of commands one after the other. Each of them has 32 octets for a new secret, and its
arguments. -/
def runAll {m : Type → Type} [Monad m] (disk : Disk m) : List (Bytes × List String) → m (List Outcome)
  | [] => return []
  | (fresh, args) :: lines => do
    let o ← run disk fresh args
    return o :: (← runAll disk lines)

/-- A command has printed what was answered: a payload, or the report of a failure. -/
structure Outcome.Shows (o : Outcome) (r : Except Failure Bytes) : Prop where
  payload : ∀ b, o.exitCode = 0 ∧ o.output = lineOf b ↔ r = .ok b
  failure : ∀ f, o.exitCode = 1 ∧ o.output = Outcome.report f ++ [10] ↔
    ∃ e, r = .error e ∧ Outcome.report e = Outcome.report f

theorem lineOf_injective {a b : Bytes} (h : lineOf a = lineOf b) : a = b := by
  rw [lineOf, lineOf] at h
  split_ifs at h with ha hb
  · rw [List.isEmpty_iff.mp ha, List.isEmpty_iff.mp hb]
  · simp at h
  · simp at h
  · exact List.append_cancel_right h

theorem shows_printed (b : Bytes) : (Outcome.printed (lineOf b)).Shows (.ok b) where
  payload a := by
    constructor
    · rintro ⟨-, hb⟩
      rw [lineOf_injective hb]
    · rintro ⟨⟩
      exact ⟨rfl, rfl⟩
  failure f := by
    constructor
    · rintro ⟨hcode, -⟩
      cases hcode
    · rintro ⟨e, he, -⟩
      cases he

theorem shows_rejected (f : Failure) : (Outcome.rejected f).Shows (.error f) where
  payload a := by
    constructor
    · rintro ⟨hcode, -⟩
      cases hcode
    · rintro ⟨⟩
  failure e := by
    constructor
    · rintro ⟨-, hreport⟩
      exact ⟨f, rfl, List.append_cancel_right hreport⟩
    · rintro ⟨_, ⟨⟩, hreport⟩
      exact ⟨rfl, congrArg (· ++ [10]) hreport⟩

def contract (set : Settings) : Contract := ⟨ed25519Verifier, set.knownActors.contains⟩

def adapted (o : Options) (set : Settings) : Settings :=
  { set with stateFile := o.state.or set.stateFile, callerRole := o.role.or set.callerRole }

/-- Arguments that ask for an invocation on the ledger in the file `p`. -/
def Asks (config : Option Path) (set : Settings) (p : Path) (args : List String) (i : Invocation) : Prop :=
  ∃ o : Options, Arguments.parse args = some (.run o (.invoke i.operation i.args)) ∧ o.config = config ∧
    (adapted o set).statePath = p ∧ (adapted o set).callerRole = i.role

/-- Whatever is asked for, there are arguments for it, unless a role that is set would have to be left out. -/
theorem asks_commandLine {config : Option Path} (hconfig : ∀ c ∈ config, c.text ≠ "") (set : Settings) {p : Path}
    (hp : p.text ≠ "") {i : Invocation} (hrole : i.role = none → set.callerRole = none) :
    Asks config set p (Arguments.commandLine config p i.role i.operation i.args) i := by
  refine ⟨_, Arguments.parse_commandLine hconfig hp i.role i.operation i.args, rfl, rfl, ?_⟩
  change i.role.or set.callerRole = i.role
  cases hi : i.role with
  | none => rw [Option.none_or, hrole hi]
  | some r => rfl

section Invoke

variable {σ : Type} {disk : Disk (StateM σ)} {x y : σ} {set : Settings} {operation : String} {args : List String}

theorem invoke_of_unreadable {e : StateError} (h : loadState disk set.statePath x = (.error e, y)) :
    invoke disk set operation args x = (.failed (.stateUnreadable set.statePath e), y) := by
  rw [invoke]
  dsimp only
  rw [bind_apply, h]
  rfl

section Loaded

variable {s t : Store} (h : loadState disk set.statePath x = (.ok s, y))

include h

theorem invoke_of_error {e : Failure}
    (he : (contract set).execute s set.callerRole operation args = (.error e, t)) :
    invoke disk set operation args x = (.rejected e, y) := by
  rw [invoke]
  dsimp only
  rw [bind_apply, h]
  dsimp only
  rw [← contract, he]
  rfl

theorem invoke_of_ok {b : Bytes} (he : (contract set).execute s set.callerRole operation args = (.ok b, t)) :
    invoke disk set operation args x =
      if t.height = s.height then (.printed (lineOf b), y)
      else match saveState disk set.statePath t y with
        | (.error e, z) => (.failed (.stateUnwritable set.statePath e), z)
        | (.ok _, z) => (.printed (lineOf b), z) := by
  rw [invoke]
  dsimp only
  rw [bind_apply, h]
  dsimp only
  rw [← contract, he]
  dsimp only
  split_ifs
  · rfl
  · rw [bind_apply]
    generalize (saveState disk set.statePath t y : Except StateError Unit × σ) = z
    obtain ⟨_ | _, z⟩ := z <;> rfl

end Loaded

variable {as : List String} {o : Options} (ho : Arguments.parse args = some (.run o (.invoke operation as)))

include ho

theorem run_of_unsettled {e : Error} (h : settings disk o.config x = (.error e, y)) (fresh : Bytes) :
    run disk fresh args x = (.failed e, y) := by
  rw [run, ho]
  dsimp only
  rw [bind_apply, h]
  rfl

theorem run_apply (h : settings disk o.config x = (.ok set, y)) (fresh : Bytes) :
    run disk fresh args x = invoke disk (adapted o set) operation as y := by
  rw [run, ho]
  dsimp only
  rw [bind_apply, h]
  rfl

end Invoke

/-- A folder with a configuration and with the ledger `s` in the file `p`, or with no such file. Neither this
file nor the one that is written beside it is anything else. -/
structure Workplace (f : Folder) (config : Option Path) (set : Settings) (p : Path) (s : Store) : Prop where
  settings : settings Folder.disk config f = (.ok set, f)
  apart : ∃ x, f.find (config.getD ⟨"coinbal.toml"⟩) = .ok x ∧ x.key ≠ p.text ∧
    x.key ≠ (p.withExtension "tmp").text
  beside : f[(p.withExtension "tmp").text]? ≠ some .directory
  state : f[p.text]? = none ∧ s = .empty ∨ f[p.text]? = some (.file (Snapshot.save s))

section Workplace

variable {f g : Folder} {config : Option Path} {set : Settings} {p : Path} {s t : Store} {r : Except Failure Bytes}

theorem settings_apply : settings Folder.disk config f =
    (if f.isThere (config.getD ⟨"coinbal.toml"⟩) then match f.read (config.getD ⟨"coinbal.toml"⟩) with
      | .error e => .error (.configUnreadable (config.getD ⟨"coinbal.toml"⟩) e)
      | .ok b => match Text.ofUtf8? b with
        | none => .error (.configUnreadable (config.getD ⟨"coinbal.toml"⟩) .notText)
        | some t => match Settings.ofText? t with
          | none => .error (.configInvalid (config.getD ⟨"coinbal.toml"⟩))
          | some set => .ok set
    else if config.isSome then .error (.configMissing (config.getD ⟨"coinbal.toml"⟩)) else .ok .default, f) := by
  rw [settings, bind_apply, Folder.isThere_apply]
  generalize config.getD ⟨"coinbal.toml"⟩ = p
  cases f.isThere p with
  | false => rfl
  | true =>
    dsimp only
    rw [if_neg (by decide), if_pos rfl, bind_apply, Folder.read_apply]
    cases f.read p with
    | error e => rfl
    | ok b =>
      dsimp only
      cases Text.ofUtf8? b with
      | none => rfl
      | some t =>
        dsimp only
        cases Settings.ofText? t <;> rfl

theorem settings_congr (h : g.find (config.getD ⟨"coinbal.toml"⟩) = f.find (config.getD ⟨"coinbal.toml"⟩))
    (hf : settings Folder.disk config f = (.ok set, f)) : settings Folder.disk config g = (.ok set, g) := by
  have hthere : g.isThere (config.getD ⟨"coinbal.toml"⟩) = f.isThere (config.getD ⟨"coinbal.toml"⟩) := by
    rw [Folder.isThere, Folder.isThere, h]
  have hread : g.read (config.getD ⟨"coinbal.toml"⟩) = f.read (config.getD ⟨"coinbal.toml"⟩) := by
    rw [Folder.read, Folder.read, h]
  rw [settings_apply] at hf ⊢
  rw [hthere, hread]
  exact Prod.ext (Prod.mk.inj hf).1 rfl

theorem Workplace.loadState (h : Workplace f config set p s) (hp : p.IsFileName) :
    loadState Folder.disk p f = (.ok s, f) := by
  rcases h.state with ⟨hnone, rfl⟩ | hfile
  · rw [loadState_apply, Folder.isThere_name hp, hnone]
    rfl
  · exact loadState_of_read (Folder.read_name hp hfile)

theorem Workplace.not_directory (h : Workplace f config set p s) : f[p.text]? ≠ some .directory := by
  rcases h.state with ⟨hnone, -⟩ | hfile
  · simp [hnone]
  · simp [hfile]

theorem Workplace.replaced (h : Workplace f config set p s) (hg : ∀ k : String, g[k]? =
      if p.text = k then some (.file (Snapshot.save t))
      else if (p.withExtension "tmp").text = k then none else f[k]?) : Workplace g config set p t := by
  obtain ⟨x, hx, hxp, hxb⟩ := h.apart
  have hd (k : String) (hk : f[k]? = some .directory) : g[k]? = some .directory := by
    rw [hg, if_neg, if_neg, hk]
    · rintro rfl
      exact h.beside hk
    · rintro rfl
      exact h.not_directory hk
  have hfound : g.find (config.getD ⟨"coinbal.toml"⟩) = .ok x := by
    refine Folder.find_congr hd hx ?_
    rw [hg, if_neg hxp.symm, if_neg hxb.symm]
  exact {
    settings := settings_congr (hfound.trans hx.symm) h.settings
    apart := ⟨x, hfound, hxp, hxb⟩
    beside := by
      rw [hg, if_pos rfl]
      split
      · nofun
      · nofun
    state := .inr (by rw [hg, if_pos rfl]) }

theorem Workplace.saveState (h : Workplace f config set p s) (hp : p.IsFileName)
    (hb : (p.withExtension "tmp").IsFileName) (t : Store) :
    ∃ g, saveState Folder.disk p t f = (.ok (), g) ∧ g[p.text]? = some (.file (Snapshot.save t)) ∧
      Workplace g config set p t := by
  obtain ⟨g, hsave, hg⟩ := replace_fileName hp hb h.not_directory h.beside (Snapshot.save t)
  refine ⟨g, ?_, ?_, h.replaced hg⟩
  · rw [saveState_apply, if_pos hp.parent_isEmpty, hsave]
  · rw [hg, if_pos rfl]

/-- A command shows what the invocation answers on the ledger that is there, and leaves the ledger that the
invocation leaves. -/
theorem Workplace.run (h : Workplace f config set p s) (hp : p.IsFileName)
    (hb : (p.withExtension "tmp").IsFileName) {args : List String} {i : Invocation} (hi : Asks config set p args i)
    (fresh : Bytes) (he : (contract set).execute s i.role i.operation i.args = (r, t)) :
    ∃ o g, run Folder.disk fresh args f = (o, g) ∧ o.Shows r ∧ Workplace g config set p t ∧
      (t = s ∧ g = f ∨ t ≠ .empty ∧ g[p.text]? = some (.file (Snapshot.save t))) := by
  obtain ⟨o, hparse, rfl, hstate, hrole⟩ := hi
  have hload := h.loadState hp
  rw [← hstate] at hload
  rw [← hrole] at he
  have hheight := (contract set).execute_height s (adapted o set).callerRole i.operation i.args
  rw [he] at hheight
  rw [run_apply hparse h.settings]
  cases r with
  | error e =>
    obtain rfl : t = s := hheight.resolve_right fun hok => by cases hok.1
    exact ⟨_, _, invoke_of_error hload he, shows_rejected e, h, .inl ⟨rfl, rfl⟩⟩
  | ok b =>
    rw [invoke_of_ok hload he]
    rcases hheight with rfl | ⟨-, hne, hempty⟩
    · exact ⟨_, _, if_pos rfl, shows_printed b, h, .inl ⟨rfl, rfl⟩⟩
    · obtain ⟨g, hsave, hplace, hg⟩ := h.saveState hp hb t
      rw [if_neg hne, hstate, hsave]
      exact ⟨_, _, rfl, shows_printed b, hg, .inr ⟨hempty, hplace⟩⟩

end Workplace

/-- Commands on the ledger in the file `p` show what the invocations that they ask for answer on one store in
memory, and then the file holds this store. As long as there is nothing in the store, there need not be a file.
A beginning of a sequence of commands is one as well, so this is how it is after each of them. -/
def Refines (p : Path) : Prop :=
  ∀ (f : Folder) (config : Option Path) (set : Settings) (s : Store) (lines : List (Bytes × List String))
    (is : List Invocation), Workplace f config set p s →
    List.Forall₂ (fun line i => Asks config set p line.2 i) lines is →
    ∃ os g, runAll Folder.disk lines f = (os, g) ∧
      List.Forall₂ Outcome.Shows os ((contract set).executeAll s is).1 ∧
      g[p.text]? = if f[p.text]? = none ∧ ((contract set).executeAll s is).2 = .empty then none
        else some (.file (Snapshot.save ((contract set).executeAll s is).2))

theorem refines_of_beside {p : Path} (hp : p.IsFileName) (hb : (p.withExtension "tmp").IsFileName) :
    Refines p := by
  intro f config set s lines is h hasks
  induction hasks generalizing f s with
  | nil =>
    refine ⟨[], f, rfl, .nil, ?_⟩
    rcases h.state with ⟨hnone, rfl⟩ | hfile
    · rw [if_pos ⟨hnone, rfl⟩, hnone]
    · rw [if_neg (by simp [hfile]), hfile]
      rfl
  | @cons line i lines is hi _ ih =>
    obtain ⟨r, t, he⟩ : ∃ r t, (contract set).execute s i.role i.operation i.args = (r, t) := ⟨_, _, rfl⟩
    obtain ⟨o, g, hrun, hshows, hg, hplace⟩ := h.run hp hb hi line.1 he
    obtain ⟨os, g', hruns, hall, hstate⟩ := ih g t hg
    have hexecute : (contract set).executeAll s (i :: is) =
        (r :: ((contract set).executeAll t is).1, ((contract set).executeAll t is).2) := by
      rw [Contract.executeAll, he]
    refine ⟨o :: os, g', ?_, ?_, ?_⟩
    · obtain ⟨fresh, args⟩ := line
      rw [runAll, bind_apply, hrun]
      dsimp only
      rw [bind_apply, hruns]
      rfl
    · rw [hexecute]
      exact .cons hshows hall
    · rw [hexecute, hstate]
      rcases hplace with ⟨rfl, rfl⟩ | ⟨hne, hfile⟩
      · rfl
      · have hlast := (contract set).executeAll_ne_empty hne is
        rw [if_neg fun hnone => hlast hnone.2, if_neg fun hnone => hlast hnone.2]

def forAlice : Invocation := ⟨none, "registerAddress", ["alice"]⟩

def forAliceIn (p : Path) : List String := Arguments.commandLine none p none "registerAddress" ["alice"]

def withAlice : Store := ⟨1, (∅ : Table Entry).insert "WALLETS/alice" ⟨1, some (Text.utf8 "\"alice\"")⟩⟩

theorem execute_forAlice : (contract .default).execute .empty none "registerAddress" ["alice"] =
    (.ok [], withAlice) := by decide +kernel

theorem workplace_empty {p : Path} (h : p.text ≠ "coinbal.toml" ∧ (p.withExtension "tmp").text ≠ "coinbal.toml") :
    Workplace ∅ none .default p .empty where
  settings := by
    rw [settings_apply, Option.getD_none, Folder.isThere_name (by decide)]
    rfl
  apart := ⟨_, Folder.find_name (by decide) ∅, h.1.symm, h.2.symm⟩
  beside := by simp
  state := .inl ⟨by simp, rfl⟩

theorem asks_forAlice {p : Path} (hp : p.text ≠ "") : Asks none .default p (forAliceIn p) forAlice := by
  have hconfig : ∀ c ∈ (none : Option Path), c.text ≠ "" := by simp
  exact asks_commandLine (i := forAlice) hconfig .default hp fun _ => rfl

theorem saveState_fails {p : Path} (hp : p.IsFileName) (hb : ¬ (p.withExtension "tmp").IsFileName) (s : Store)
    (f : Folder) : ∃ e, saveState Folder.disk p s f = (.error e, f) := by
  rw [saveState_apply, if_pos hp.parent_isEmpty, replace_apply, Folder.write_apply]
  cases hw : f.write (p.withExtension "tmp") (Snapshot.save s) with
  | error e => exact ⟨_, rfl⟩
  | ok g =>
    obtain ⟨x, hx, hdir, -⟩ := Folder.write_eq_ok.mp hw
    have hwalk := (Folder.find_eq_ok.mp hx).2.1
    rcases hp.beside_cases with hback | hname
    · rw [show (p.withExtension "tmp").names = [".."] by rw [Path.names, Path.chars, hback]; rfl,
        Folder.walk_points] at hwalk
      cases hwalk
      exact absurd rfl hdir
    · rw [hname.names, Folder.walk_name hname.notPoints] at hwalk
      exact absurd ⟨hname, hwalk.1⟩ hb

theorem run_forAlice_fails {p : Path} (hp : p.IsFileName) (hb : ¬ (p.withExtension "tmp").IsFileName)
    (h : Workplace ∅ none .default p .empty) : ∃ e, run Folder.disk [] (forAliceIn p) ∅ = (.failed e, ∅) := by
  obtain ⟨o, hparse, hconfig, hstate, hrole⟩ := asks_forAlice hp.nonempty
  have hsettings := h.settings
  rw [← hconfig] at hsettings
  have hload := h.loadState hp
  rw [← hstate] at hload
  have hexecute : (contract (adapted o .default)).execute .empty (adapted o .default).callerRole
      forAlice.operation forAlice.args = (.ok [], withAlice) := by
    rw [hrole]
    exact execute_forAlice
  obtain ⟨e, hsave⟩ := saveState_fails hp hb withAlice ∅
  rw [run_apply hparse hsettings, invoke_of_ok hload hexecute, if_neg (by decide), hstate, hsave]
  exact ⟨_, rfl⟩

theorem not_refines_of_beside {p : Path} (hp : p.IsFileName) (hb : ¬ (p.withExtension "tmp").IsFileName) :
    ¬ Refines p := by
  have hother {q : Path} (hq : ¬ q.IsFileName) : q.text ≠ "coinbal.toml" := by
    obtain ⟨text⟩ := q
    rintro rfl
    exact hq (by decide)
  have hown : p.text ≠ "coinbal.toml" := by
    obtain ⟨text⟩ := p
    rintro rfl
    exact hb (by decide)
  have hplace := workplace_empty ⟨hown, hother hb⟩
  obtain ⟨e, hfails⟩ := run_forAlice_fails hp hb hplace
  have hruns : runAll Folder.disk [([], forAliceIn p)] ∅ = ([.failed e], ∅) := by
    rw [runAll, bind_apply, hfails]
    rfl
  have hexecute : (contract .default).executeAll .empty [forAlice] = ([.ok []], withAlice) := by
    rw [Contract.executeAll, forAlice, execute_forAlice]
    rfl
  intro h
  obtain ⟨os, g, hrun, hshows, -⟩ := h ∅ none .default .empty [([], forAliceIn p)] [forAlice]
    hplace (.cons (asks_forAlice hp.nonempty) .nil)
  rw [hruns] at hrun
  obtain ⟨rfl, -⟩ := Prod.mk.inj hrun
  rw [hexecute] at hshows
  cases hshows with
  | cons hfirst _ => cases ((hfirst.payload []).mpr rfl).1

/-- Commands on the ledger in a file refine one ledger in memory exactly if there can be a file beside it. -/
theorem refines_iff {p : Path} (hp : p.IsFileName) : Refines p ↔ (p.withExtension "tmp").IsFileName :=
  ⟨fun h => by_contra fun hb => not_refines_of_beside hp hb h, refines_of_beside hp⟩

theorem refines_iff_twice : ∃ os g, runAll Folder.disk
      [([], forAliceIn ⟨"state.json"⟩), ([], forAliceIn ⟨"state.json"⟩)] ∅ = (os, g) ∧
    List.Forall₂ Outcome.Shows os [.ok [], .error (.addressKnown "alice")] ∧
    g["state.json"]? = some (.file (Snapshot.save withAlice)) := by
  have hasks := asks_forAlice (p := ⟨"state.json"⟩) (by decide)
  have hrefines := (refines_iff (p := ⟨"state.json"⟩) (by decide)).mpr (by decide) ∅ none .default .empty
    [([], forAliceIn ⟨"state.json"⟩), ([], forAliceIn ⟨"state.json"⟩)] [forAlice, forAlice]
    (workplace_empty (by decide)) (.cons hasks (.cons hasks .nil))
  have hexecute : (contract .default).executeAll .empty [forAlice, forAlice] =
      ([.ok [], .error (.addressKnown "alice")], withAlice) := by decide +kernel
  rw [hexecute] at hrefines
  obtain ⟨os, g, hrun, hshows, hstate⟩ := hrefines
  refine ⟨os, g, hrun, hshows, hstate.trans (if_neg fun hnone => ?_)⟩
  exact absurd (congrArg Store.height hnone.2) (by decide)

/-- What is written beside a file of one of these names would have to be the directory above, or would have
too long a name. -/
theorem not_refines :
    ((⟨"..x"⟩ : Path).IsFileName ∧ ¬ Refines ⟨"..x"⟩) ∧
    ((⟨String.ofList (List.replicate 252 'a')⟩ : Path).IsFileName ∧
      ¬ Refines ⟨String.ofList (List.replicate 252 'a')⟩) := by
  have hpoints : (⟨"..x"⟩ : Path).IsFileName := by decide
  have hletters : (⟨String.ofList (List.replicate 252 'a')⟩ : Path).IsFileName :=
    Path.isFileName_letters (by decide)
  have hlong : ¬ ((⟨String.ofList (List.replicate 252 'a')⟩ : Path).withExtension "tmp").IsFileName :=
    fun hb => absurd (Path.beside_letters (by decide) hb) (by decide)
  exact ⟨⟨hpoints, not_refines_of_beside hpoints (by decide)⟩, hletters, not_refines_of_beside hletters hlong⟩

end Host
end TokenLedger
