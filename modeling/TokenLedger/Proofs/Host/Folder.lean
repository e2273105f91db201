import TokenLedger.Proofs.Host.Path

/-! What is found in a folder. Names lead to the same place as long as the directories on their way are there,
so what is written under a path is read there, and what is moved to a path as well. -/

namespace TokenLedger

section Apply

variable {σ α β : Type}

theorem bind_apply (c : StateM σ α) (k : α → StateM σ β) (x : σ) : (c >>= k) x = k (c x).1 (c x).2 := rfl

end Apply

namespace Folder

variable {f g : Folder} {p q : Path} {b : Bytes} {x : Place} {seen ns : List String}

theorem throw_eq {α : Type} (e : FileError) : (throw e : Except FileError α) = .error e := rfl

theorem walk_point (f : Folder) (seen ns : List String) : walk f seen ("." :: ns) = walk f seen ns := by
  rw [walk, if_pos rfl]

theorem walk_points (f : Folder) (seen ns : List String) : walk f seen (".." :: ns) = walk f seen.dropLast ns := by
  rw [walk, if_neg (by decide), if_pos rfl]

/-- A name that is not made of points leads on, if there is a directory, or it is the last one. -/
theorem walk_name {n : String} (h : n ≠ "." ∧ n ≠ "..") : walk f seen (n :: ns) = .ok x ↔
    (Text.utf8 n).length ≤ maxName ∧ (ns = [] ∧ x = ⟨seen ++ [n], f[keyOf (seen ++ [n])]?⟩ ∨
      ns ≠ [] ∧ f[keyOf (seen ++ [n])]? = some .directory ∧ walk f (seen ++ [n]) ns = .ok x) := by
  rw [walk, if_neg h.1, if_neg h.2, ← not_lt]
  split_ifs with hlong
  · exact ⟨nofun, fun hx => absurd hlong hx.1⟩
  · cases ns with
    | nil => simp [hlong, pure, Except.pure, eq_comm]
    | cons m ns =>
      cases f[keyOf (seen ++ [n])]? with
      | none => simp [throw, throwThe, MonadExceptOf.throw]
      | some node => cases node <;> simp [hlong, throw_eq]

/-- Where names lead, there is what the folder holds, unless they lead back to a directory. -/
theorem walk_node (h : walk f seen ns = .ok x) : x.node = some .directory ∨ x.node = f[x.key]? := by
  induction ns generalizing seen with
  | nil =>
    cases h
    exact .inl rfl
  | cons n ns ih =>
    by_cases hn : n ≠ "." ∧ n ≠ ".."
    · rcases ((walk_name hn).mp h).2 with ⟨-, rfl⟩ | ⟨-, -, hrest⟩
      · exact .inr rfl
      · exact ih hrest
    · rw [← not_or, not_not] at hn
      rcases hn with rfl | rfl
      · exact ih (walk_point f seen ns ▸ h)
      · exact ih (walk_points f seen ns ▸ h)

/-- In a folder with the same directories, and perhaps more, names lead to the same place. -/
theorem walk_congr (hd : ∀ k : String, f[k]? = some .directory → g[k]? = some .directory)
    (h : walk f seen ns = .ok x) :
    walk g seen ns = .ok ⟨x.names, if x.node = some .directory then x.node else g[x.key]?⟩ := by
  induction ns generalizing seen with
  | nil =>
    cases h
    rfl
  | cons n ns ih =>
    by_cases hn : n ≠ "." ∧ n ≠ ".."
    · rw [walk_name hn] at h ⊢
      refine ⟨h.1, ?_⟩
      rcases h.2 with ⟨hns, rfl⟩ | ⟨hns, hdir, hrest⟩
      · refine .inl ⟨hns, congrArg _ ?_⟩
        split_ifs with hdir
        · exact hdir.trans (hd _ hdir).symm
        · rfl
      · exact .inr ⟨hns, hd _ hdir, ih hrest⟩
    · rw [← not_or, not_not] at hn
      rcases hn with rfl | rfl
      · rw [walk_point] at h ⊢
        exact ih h
      · rw [walk_points] at h ⊢
        exact ih h

theorem getElem?_insert (f : Folder) (k : String) (n : Node) (j : String) :
    (f.insert k n)[j]? = if k = j then some n else f[j]? := by
  rw [Std.ExtTreeMap.getElem?_insert]
  simp

theorem getElem?_erase (f : Folder) (k j : String) : (f.erase k)[j]? = if k = j then none else f[j]? := by
  rw [Std.ExtTreeMap.getElem?_erase]
  simp

theorem insert_erase {f : Folder} {k : String} {node : Node} (h : f[k]? = some node) :
    (f.erase k).insert k node = f := by
  refine Std.ExtTreeMap.ext_getElem? fun j => ?_
  rw [getElem?_insert, getElem?_erase]
  split_ifs with hkj
  · rw [← hkj, h]
  · rfl

theorem follow_eq_ok : f.follow p = .ok x ↔ checkPath p = .ok () ∧ walk f [] p.names = .ok x := by
  rw [follow]
  cases checkPath p with
  | error e => simp [bind, Except.bind]
  | ok _ => simp [bind, Except.bind]

theorem find_eq_ok : f.find p = .ok x ↔ checkPath p = .ok () ∧ walk f [] p.names = .ok x ∧
    (p.isDirectoryOnly → ∀ b, x.node ≠ some (.file b)) := by
  rw [← and_assoc, ← follow_eq_ok, find]
  cases f.follow p with
  | error e => simp [bind, Except.bind]
  | ok y =>
    simp only [bind, Except.bind, Except.ok.injEq]
    split
    · rename_i content hnode
      split_ifs with hp
      · refine ⟨nofun, ?_⟩
        rintro ⟨rfl, hx⟩
        exact absurd hnode (hx hp content)
      · simp [hp, pure, Except.pure]
    · rename_i hnode
      constructor
      · rintro ⟨⟩
        exact ⟨rfl, fun _ => hnode⟩
      · rintro ⟨rfl, -⟩
        rfl

theorem read_eq_ok : f.read p = .ok b ↔ ∃ x, f.find p = .ok x ∧ x.node = some (.file b) := by
  rw [read]
  cases f.find p with
  | error e => simp [bind, Except.bind]
  | ok x =>
    simp only [bind, Except.bind, Except.ok.injEq, exists_eq_left']
    split
    · rename_i hnode
      simp [hnode, pure, Except.pure]
    · rename_i hnode
      simp [hnode, throw_eq]
    · rename_i hnode
      simp [hnode, throw_eq]

theorem write_eq_ok : f.write p b = .ok g ↔ ∃ x, f.find p = .ok x ∧ x.node ≠ some .directory ∧
    p.isDirectoryOnly = false ∧ g = f.insert x.key (.file b) := by
  simp only [find_eq_ok, ← and_assoc, ← follow_eq_ok, write]
  cases f.follow p with
  | error e => simp [bind, Except.bind]
  | ok x =>
    simp only [bind, Except.bind, Except.ok.injEq]
    cases p.isDirectoryOnly with
    | true => simp [throw_eq]
    | false =>
      obtain ⟨names, node⟩ := x
      rcases node with _ | ⟨content | _⟩ <;> simp [pure, Except.pure, eq_comm, throw_eq]

theorem rename_eq_ok : f.rename p q = .ok g ↔ checkPath p = .ok () ∧ checkPath q = .ok () ∧
    (p.endsWithPoints || q.endsWithPoints) = false ∧ (p.isDirectoryOnly || q.isDirectoryOnly) = false ∧
    ∃ x y b, walk f [] p.names = .ok x ∧ walk f [] q.names = .ok y ∧ x.node = some (.file b) ∧
      y.node ≠ some .directory ∧ g = (f.erase x.key).insert y.key (.file b) := by
  rw [rename]
  cases checkPath p with
  | error e => simp [bind, Except.bind]
  | ok _ =>
    cases checkPath q with
    | error e => simp [bind, Except.bind]
    | ok _ =>
      cases walk f [] p.names with
      | error e => simp [bind, Except.bind]
      | ok x =>
        cases walk f [] q.names with
        | error e => simp [bind, Except.bind]
        | ok y =>
          cases p.endsWithPoints || q.endsWithPoints with
          | true => simp [bind, Except.bind, throw_eq]
          | false =>
            obtain ⟨names, node⟩ := x
            obtain ⟨names', node'⟩ := y
            rcases node with _ | ⟨b | _⟩
            · simp [bind, Except.bind, throw_eq]
            · cases p.isDirectoryOnly || q.isDirectoryOnly with
              | true => simp [bind, Except.bind, throw_eq]
              | false =>
                by_cases hdir : node' = some .directory
                · simp [hdir, bind, Except.bind, throw_eq]
                · simp [hdir, bind, Except.bind, pure, Except.pure, eq_comm]
            · simp [bind, Except.bind, throw_eq]

/-- A file is read where it was put, as long as the directories on its way are still there. -/
theorem read_insert (hd : ∀ k : String, f[k]? = some .directory → g[k]? = some .directory)
    (hcheck : checkPath p = .ok ()) (hwalk : walk f [] p.names = .ok x) (hnode : x.node ≠ some .directory)
    (hp : p.isDirectoryOnly = false) (b : Bytes) : Folder.read (g.insert x.key (.file b)) p = .ok b := by
  have hhere := (walk_node hwalk).resolve_left hnode
  have hdirs (k : String) (hk : f[k]? = some .directory) :
      (g.insert x.key (.file b))[k]? = some .directory := by
    rw [getElem?_insert, if_neg, hd k hk]
    rintro rfl
    exact hnode (hhere.trans hk)
  have hthere := walk_congr hdirs hwalk
  rw [if_neg hnode, getElem?_insert, if_pos rfl] at hthere
  exact read_eq_ok.mpr ⟨_, find_eq_ok.mpr ⟨hcheck, hthere, by simp [hp]⟩, rfl⟩

theorem read_write (h : f.write p b = .ok g) : g.read p = .ok b := by
  obtain ⟨x, hx, hnode, hp, rfl⟩ := write_eq_ok.mp h
  obtain ⟨hcheck, hwalk, -⟩ := find_eq_ok.mp hx
  exact read_insert (fun _ hk => hk) hcheck hwalk hnode hp b

theorem read_rename (h : f.rename p q = .ok g) (hb : f.read p = .ok b) : g.read q = .ok b := by
  obtain ⟨-, hcheck, -, hdirs, x, y, b', hx, hy, hfile, hnode, rfl⟩ := rename_eq_ok.mp h
  have hb' : b' = b := by
    obtain ⟨z, hz, hcontent⟩ := read_eq_ok.mp hb
    have hz := (find_eq_ok.mp hz).2.1
    rw [hx] at hz
    cases hz
    rw [hfile] at hcontent
    simpa using hcontent
  subst hb'
  have hsource : x.node = f[x.key]? := (walk_node hx).resolve_left (by simp [hfile])
  have hd (k : String) (hk : f[k]? = some .directory) : (f.erase x.key)[k]? = some .directory := by
    rw [getElem?_erase, if_neg, hk]
    rintro rfl
    rw [hsource, hk] at hfile
    cases hfile
  exact read_insert hd hcheck hy hnode (Bool.or_eq_false_iff.mp hdirs).2 b'

theorem isThere_of_read (h : f.read p = .ok b) : f.isThere p := by
  obtain ⟨x, hx, hnode⟩ := read_eq_ok.mp h
  rw [isThere, hx]
  simp [hnode]

/-- A path is found as before where the directories are the same and its own place is. -/
theorem find_congr (hd : ∀ k : String, f[k]? = some .directory → g[k]? = some .directory)
    (hx : f.find p = .ok x) (hk : g[x.key]? = f[x.key]?) : g.find p = .ok x := by
  obtain ⟨hcheck, hwalk, hp⟩ := find_eq_ok.mp hx
  refine find_eq_ok.mpr ⟨hcheck, ?_, hp⟩
  rw [walk_congr hd hwalk]
  split_ifs with hdir
  · rfl
  · rw [hk, ← (walk_node hwalk).resolve_left hdir]

section FileName

variable (hp : p.IsFileName)

include hp

theorem checkPath_name : checkPath p = .ok () := by
  have hnull : p.hasNull = false := by simpa [Path.hasNull] using hp.noNull
  have hempty : p.text.isEmpty = false := by simpa using hp.nonempty
  have hshort : ¬ maxPath < (Text.utf8 p.text).length := not_lt.mpr (hp.short.trans (by decide))
  rw [checkPath, hnull, hempty, if_neg hshort]
  rfl

theorem walk_fileName (f : Folder) : walk f [] p.names = .ok ⟨[p.text], f[p.text]?⟩ := by
  rw [hp.names, walk_name hp.notPoints]
  exact ⟨hp.short, .inl ⟨rfl, rfl⟩⟩

theorem find_name (f : Folder) : f.find p = .ok ⟨[p.text], f[p.text]?⟩ :=
  find_eq_ok.mpr ⟨checkPath_name hp, walk_fileName hp f, by simp [hp.isDirectoryOnly]⟩

theorem read_name (h : f[p.text]? = some (.file b)) : f.read p = .ok b :=
  read_eq_ok.mpr ⟨_, find_name hp f, h⟩

theorem isThere_name (f : Folder) : f.isThere p = f[p.text]?.isSome := by
  rw [isThere, find_name hp]

theorem write_name (h : f[p.text]? ≠ some .directory) (b : Bytes) :
    f.write p b = .ok (f.insert p.text (.file b)) :=
  write_eq_ok.mpr ⟨_, find_name hp f, h, hp.isDirectoryOnly, rfl⟩

theorem rename_name (hq : q.IsFileName) (h : f[p.text]? = some (.file b)) (hn : f[q.text]? ≠ some .directory) :
    f.rename p q = .ok ((f.erase p.text).insert q.text (.file b)) := by
  refine rename_eq_ok.mpr ⟨checkPath_name hp, checkPath_name hq, ?_, ?_, ?_⟩
  · rw [hp.endsWithPoints, hq.endsWithPoints]
    rfl
  · rw [hp.isDirectoryOnly, hq.isDirectoryOnly]
    rfl
  · exact ⟨_, _, b, walk_fileName hp f, walk_fileName hq f, h, hn, rfl⟩

end FileName

theorem isThere_apply (q : Path) (f : Folder) : Folder.disk.isThere q f = (f.isThere q, f) := rfl

theorem read_apply (q : Path) (f : Folder) : Folder.disk.read q f = (f.read q, f) := rfl

theorem write_apply (q : Path) (b : Bytes) (f : Folder) : Folder.disk.write q b f =
    match f.write q b with
    | .ok g => (.ok (), g)
    | .error e => (.error e, f) := rfl

theorem rename_apply (q r : Path) (f : Folder) : Folder.disk.rename q r f =
    match f.rename q r with
    | .ok g => (.ok (), g)
    | .error e => (.error e, f) := rfl

end Folder
end TokenLedger
