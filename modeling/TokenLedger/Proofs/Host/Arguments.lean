import TokenLedger.Host.Arguments
import TokenLedger.Proofs.Key

/-! Command lines as they are understood. Whatever operation is asked for, and with whatever arguments, there
is a command line for it. -/

namespace TokenLedger

namespace Arguments

def word (name value : String) : String := "--" ++ name ++ "=" ++ value

theorem splitValue_append {n : List Char} (hn : '=' ∉ n) (v : List Char) : splitValue (n ++ '=' :: v) = (n, some v) := by
  induction n with
  | nil => rfl
  | cons c n ih =>
    rw [List.mem_cons, not_or] at hn
    rw [List.cons_append]
    unfold splitValue
    split
    · simp_all
    · simp_all
    · simp_all

theorem word_of (name value : String) (hn : '=' ∉ name.toList) (hne : name.toList ≠ []) :
    Word.of (word name value) = .long name (some value) := by
  have hw : (word name value).toList = '-' :: '-' :: (name.toList ++ '=' :: value.toList) := by simp [word]
  have hsplit := splitValue_append hn value.toList
  obtain ⟨c, cs, hc⟩ := List.exists_cons_of_ne_nil hne
  rw [hc, List.cons_append] at hw hsplit
  rw [Word.of, hw]
  change Word.long (String.ofList (splitValue (c :: (cs ++ '=' :: value.toList))).1)
    ((splitValue (c :: (cs ++ '=' :: value.toList))).2.map String.ofList) = _
  rw [hsplit, ← hc]
  simp

/-- An option that is known, with a value that it may have. -/
structure Allowed (known : List String) (name value : String) : Prop where
  noMark : '=' ∉ name.toList
  named : name.toList ≠ []
  known : known.contains name
  value : isValue name value

/-- Options in one word each are taken off the front if none of them is given twice. -/
theorem options_words {known : List String} {isWord : Word → Bool} (fuel : Nat) {given ws : Given} (ts : List String)
    (hallowed : ∀ o ∈ ws, Allowed known o.1 o.2) (hnodup : (ws.map Prod.fst).Nodup)
    (hnew : ∀ o ∈ ws, given.lookup o.1 = none) :
    options known isWord (fuel + ws.length) given (ws.map (fun o => word o.1 o.2) ++ ts) =
      options known isWord fuel (ws.reverse ++ given) ts := by
  induction ws generalizing given with
  | nil => rfl
  | cons o ws ih =>
    have ho := hallowed o (by simp)
    rw [List.map_cons, List.nodup_cons] at hnodup
    have hrest : ∀ w ∈ ws, (o :: given).lookup w.1 = none := by
      intro w hw
      have hne : w.1 ≠ o.1 := fun he => hnodup.1 (he ▸ List.mem_map_of_mem hw)
      rw [List.lookup_cons, beq_eq_false_iff_ne.mpr hne]
      exact hnew w (by simp [hw])
    have ih := ih (fun w hw => hallowed w (by simp [hw])) hnodup.2 hrest
    rw [List.length_cons, ← Nat.add_assoc, List.map_cons, List.cons_append, options, front,
      word_of o.1 o.2 ho.noMark ho.named]
    dsimp only
    rw [ho.known, List.reverse_cons, List.append_assoc]
    simpa [hnew o (by simp), ho.value] using ih

def optionsOf (config : Option Path) (p : Path) (role : Option Role) : Given :=
  (config.map fun c => ("config", c.text)).toList ++ ("state", p.text) :: (role.map fun r => ("role", r.name)).toList

/-- A command line with all options in front and nothing left to be guessed. -/
def commandLine (config : Option Path) (p : Path) (role : Option Role) (operation : String) (args : List String) :
    List String :=
  (optionsOf config p role).map (fun o => word o.1 o.2) ++ "invoke" :: "--" :: operation :: args

theorem parse_of_options {ts rest : List String} {given : Given}
    (h : options common Word.isPlain (ts.length + 1) [] ts = some (given, "invoke" :: rest)) :
    parse ts = invoke given rest := by
  rw [parse, h]
  rfl

theorem parse_commandLine {config : Option Path} (hc : ∀ c ∈ config, c.text ≠ "") {p : Path} (hp : p.text ≠ "")
    (role : Option Role) (operation : String) (args : List String) :
    parse (commandLine config p role operation args) =
      some (.run ⟨config, some p, role⟩ (.invoke operation args)) := by
  have hallowed : ∀ o ∈ optionsOf config p role, Allowed common o.1 o.2 := by
    have hconfig : ∀ c ∈ config, Allowed common "config" c.text := fun c h =>
      ⟨by decide, by decide, by decide, by simpa [isValue] using hc c h⟩
    have hstate : Allowed common "state" p.text := ⟨by decide, by decide, by decide, by simpa [isValue] using hp⟩
    have hrole : ∀ r ∈ role, Allowed common "role" r.name := fun r _ =>
      ⟨by decide, by decide, by decide, by simp [isValue]⟩
    simp only [optionsOf, List.mem_append, List.mem_cons, Option.mem_toList, Option.map_eq_some_iff]
    rintro _ (⟨c, h, rfl⟩ | rfl | ⟨r, h, rfl⟩)
    · exact hconfig c h
    · exact hstate
    · exact hrole r h
  have hnodup : ((optionsOf config p role).map Prod.fst).Nodup := by
    cases config <;> cases role <;> simp [optionsOf]
  have hoptions : options common Word.isPlain ((commandLine config p role operation args).length + 1) []
      (commandLine config p role operation args) =
        some ((optionsOf config p role).reverse, "invoke" :: "--" :: operation :: args) := by
    have hlength : (commandLine config p role operation args).length + 1 =
        args.length + 3 + 1 + (optionsOf config p role).length := by
      simp only [commandLine, List.length_append, List.length_map, List.length_cons]
      omega
    rw [hlength, commandLine, options_words _ _ hallowed hnodup fun _ _ => rfl, List.append_nil, options]
    rfl
  have hinvoke (given : Given) : invoke given ("--" :: operation :: args) =
      some (.run (chosen given []) (.invoke operation args)) := by
    simp [invoke, options, front, Word.of]
  rw [parse_of_options hoptions, hinvoke]
  cases config <;> cases role <;> simp [chosen, optionsOf, List.lookup_cons]

end Arguments
end TokenLedger
