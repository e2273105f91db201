import TokenLedger.Proofs.Commit
import TokenLedger.Proofs.Document

/-! Documents that are read and written again. If every value is read back as it was written, then a document that
is accepted takes its written form when it is written again, and keeps it from then on; a record of the store keeps
its value however often it is read and saved. -/

namespace TokenLedger

namespace Text

def Spelled (b : Bytes) : Prop := ∃ s, utf8 s = b

theorem spelled_utf8 (s : String) : Spelled (utf8 s) := ⟨s, rfl⟩

theorem spelled_nil : Spelled [] := ⟨"", rfl⟩

theorem Spelled.append {a b : Bytes} (ha : Spelled a) (hb : Spelled b) : Spelled (a ++ b) := by
  obtain ⟨s, rfl⟩ := ha
  obtain ⟨t, rfl⟩ := hb
  exact ⟨s ++ t, utf8_append s t⟩

theorem spelled_flatMap {α : Type} {f : α → Bytes} {as : List α} (h : ∀ a ∈ as, Spelled (f a)) :
    Spelled (as.flatMap f) := by
  induction as with
  | nil => exact spelled_nil
  | cons a as ih =>
    rw [List.flatMap_cons]
    exact (h a (by simp)).append (ih fun b hb => h b (by simp [hb]))

theorem spelled_ascii {bs : Bytes} (h : bs.all (· < 128)) : Spelled bs := by
  have hcs : ∀ c ∈ bs.map fun b => Char.ofNat b.toNat, c.toNat < 128 := by
    intro c hc
    obtain ⟨b, hb, rfl⟩ := List.mem_map.mp hc
    rw [toNat_ofNat_of_lt b.toNat_lt]
    exact UInt8.lt_iff_toNat_lt.mp (of_decide_eq_true (List.all_eq_true.mp h b hb))
  refine ⟨_, (utf8_ascii hcs).trans ?_⟩
  simp [Function.comp_def, octet_ofNat]

end Text

namespace Json

open Octet Text

variable {α : Type}

theorem spelled_escape (c : Char) : Spelled (escape c) := by
  unfold escape
  split
  iterate 7 exact spelled_ascii rfl
  split
  · rename_i hc
    have hdigit : ∀ n < 16, decide (Hex.digit n < 128) = true := by decide
    refine spelled_ascii ?_
    simp only [List.all_cons, hdigit (c.toNat / 16) (by omega), hdigit (c.toNat % 16) (by omega)]
    rfl
  · exact ⟨String.ofList [c], by simp [utf8]⟩

theorem spelled_writeText (s : String) : Spelled (writeText s) := by
  have hquote : Spelled [Octet.quote] := spelled_ascii rfl
  exact (hquote.append (spelled_flatMap fun c _ => spelled_escape c)).append hquote

theorem spelled_separated {ms : List Bytes} (h : ∀ m ∈ ms, Spelled m) : Spelled (Codec.separated ms) := by
  cases ms with
  | nil => exact spelled_nil
  | cons m ms =>
    rw [separated_cons]
    have hcomma : Spelled [comma] := spelled_ascii rfl
    exact (h m (by simp)).append (spelled_flatMap fun n hn => hcomma.append (h n (by simp [hn])))

def RowSpelled : (fs : List Field) → Row fs → Prop
  | [], _ => True
  | f :: fs, (v, r) => Spelled (f.codec.write v) ∧ RowSpelled fs r

theorem RowSpelled.members {fs : List Field} {r : Row fs} (h : RowSpelled fs r) :
    ∀ m ∈ writeMembers fs r, Spelled m := by
  induction fs with
  | nil => exact fun m hm => absurd hm List.not_mem_nil
  | cons f fs ih =>
    have hcolon : Spelled [colon] := spelled_ascii rfl
    have hmember : Spelled (Codec.member f.name (f.codec.write r.1)) :=
      (spelled_writeText f.name).append (hcolon.append h.1)
    exact List.forall_mem_cons.mpr ⟨hmember, ih h.2⟩

theorem Layout.spelled_write (l : Layout α) {a : α} (h : RowSpelled l.fields (l.toRow a)) :
    Spelled (l.codec.write a) := by
  have hopen : Spelled [objectOpen] := spelled_ascii rfl
  have hclose : Spelled [objectClose] := spelled_ascii rfl
  exact (hopen.append (spelled_separated h.members)).append hclose

namespace Codec

variable (c : Codec α)

/-- The written form of what a document holds. -/
def rewrite (b : Bytes) : Except Error Bytes := (c.decode b).map c.write

structure Lawful : Prop where
  spelled : ∀ a, Spelled (c.write a)
  reads : ∀ a, c.Reads a

variable {c}

theorem rewrite_eq_ok {b d : Bytes} : c.rewrite b = .ok d ↔ ∃ a, c.decode b = .ok a ∧ c.write a = d := by
  rw [rewrite]
  cases c.decode b with
  | ok a => simp [Except.map]
  | error e => simp [Except.map]

namespace Lawful

variable (h : c.Lawful)

include h

theorem decode_write (a : α) : c.decode (c.write a) = .ok a := (h.reads a).decode

theorem decodeText_write (a : α) : ∃ s, utf8 s = c.write a ∧ c.decodeText s = .ok a := by
  obtain ⟨s, hs⟩ := h.spelled a
  refine ⟨s, hs, ?_⟩
  rw [decodeText, hs, h.decode_write]

theorem rewrite_write (a : α) : c.rewrite (c.write a) = .ok (c.write a) :=
  rewrite_eq_ok.mpr ⟨a, h.decode_write a, rfl⟩

/-- The written form holds the same and is its own written form. -/
theorem rewrite_rewrite {b d : Bytes} (hd : c.rewrite b = .ok d) : c.decode d = c.decode b ∧ c.rewrite d = .ok d := by
  obtain ⟨a, ha, rfl⟩ := rewrite_eq_ok.mp hd
  exact ⟨by rw [h.decode_write, ha], h.rewrite_write a⟩

end Lawful
end Codec
end Json

namespace Store

variable {α : Type} (c : Json.Codec α) (k : Key)

/-- A transaction in which the record under a key is read and, if there is one, saved there again. -/
def resave (s : Store) : Except Failure (Option α × Store) :=
  let (found, t) := (Query.record? c k).run s .empty
  match found with
  | .error f => .error f
  | .ok none => (t.commit s).map (none, ·)
  | .ok (some a) => ((t.put k (some (c.write a))).commit s).map (some a, ·)

/-- The same `n` times, with what was read each time. -/
def resaves (s : Store) : Nat → Except Failure (List (Option α) × Store)
  | 0 => .ok ([], s)
  | n + 1 => do
    let (found, s) ← s.resave c k
    let (rest, s) ← s.resaves n
    return (found :: rest, s)

/-- The record under a key, read from the live values. -/
def Holds (s : Store) (a : α) : Prop := ∃ b, s.value? k.encode = some b ∧ c.decode b = .ok a

variable {c k} {s : Store} {a : α}

theorem live_put {t : Transaction} {b : Bytes} {s' : Store} (hw : t.writes = ∅)
    (h : (t.put k (some b)).commit s = .ok s') : s'.live = s.live.insert k.encode b := by
  refine Std.ExtTreeMap.ext_getElem? fun j => ?_
  have hj : (t.put k (some b)).writes[j]? = if k.encode = j then some (some b) else none := by
    change (t.writes.insert k.encode (some b))[j]? = _
    rw [hw, Std.ExtTreeMap.getElem?_insert]
    simp
  rw [Transaction.live_commit h, Transaction.getElem?_view, hj, Std.ExtTreeMap.getElem?_insert]
  by_cases hk : k.encode = j
  · simp [hk]
  · simp [hk]

/-- A record that is read and saved again takes its written form. -/
theorem resave_of_holds (h : s.Holds c k a) :
    ∃ s', s.resave c k = .ok (some a, s') ∧ s'.live = s.live.insert k.encode (c.write a) := by
  obtain ⟨b, hb, ha⟩ := h
  have hfound : ((Query.record? c k).run s .empty).1 = .ok (some a) := by
    rw [Query.run_fst, Query.record?, Query.eval_bind, Query.eval_get, Transaction.getElem?_view_empty, hb]
    simp [Except.bind, Query.decoded, ha]
  have hfresh : (((Query.record? c k).run s .empty).2.put k (some (c.write a))).stale? s = none :=
    Query.stale?_of_reads rfl
  obtain ⟨s', hcommit⟩ : ∃ s', Transaction.commit s _ = .ok s' := ⟨_, Transaction.commit_eq_ok.mpr ⟨hfresh, rfl⟩⟩
  refine ⟨s', ?_, live_put (Query.writes_run _ _ _) hcommit⟩
  rw [resave]
  generalize (Query.record? c k).run s .empty = run at hfound hcommit
  obtain ⟨found, t⟩ := run
  obtain rfl : found = .ok (some a) := hfound
  change ((t.put k (some (c.write a))).commit s).map (some a, ·) = _
  rw [hcommit]
  rfl

theorem Holds.insert (hc : c.Lawful) {s' : Store} (hs : s'.live = s.live.insert k.encode (c.write a)) :
    s'.Holds c k a := by
  refine ⟨c.write a, ?_, hc.decode_write a⟩
  rw [← getElem?_live, hs, Std.ExtTreeMap.getElem?_insert_self]

/-- However often a record is read and saved again, the same is read each time, and nothing else changes. -/
theorem resaves_of_holds (hc : c.Lawful) (h : s.Holds c k a) (n : Nat) :
    ∃ s', s.resaves c k n = .ok (List.replicate n (some a), s') ∧ s'.Holds c k a ∧
      s'.live = if n = 0 then s.live else s.live.insert k.encode (c.write a) := by
  induction n generalizing s with
  | zero => exact ⟨s, rfl, h, rfl⟩
  | succ n ih =>
    obtain ⟨s₁, hfirst, hlive₁⟩ := resave_of_holds h
    obtain ⟨s', hrest, hholds, hlive⟩ := ih (.insert hc hlive₁)
    refine ⟨s', ?_, hholds, ?_⟩
    · rw [resaves, hfirst]
      change ((s₁.resaves c k n).bind fun (rest, s) => .ok (some a :: rest, s)) = _
      rw [hrest]
      rfl
    · rw [hlive, hlive₁, if_neg (Nat.succ_ne_zero n)]
      split
      · rfl
      · refine Std.ExtTreeMap.ext_getElem? fun j => ?_
        rw [Std.ExtTreeMap.getElem?_insert, Std.ExtTreeMap.getElem?_insert]
        split <;> rfl

end Store

open Json Text

theorem Token.lawful : codec.Lawful where
  reads := reads
  spelled t := layout.spelled_write (a := t)
    ⟨spelled_writeText _, spelled_writeText _, spelled_writeText _, spelled_utf8 _, spelled_utf8 _, trivial⟩

theorem Transfer.lawful : codec.Lawful where
  reads := reads
  spelled t := by
    have hboolean (b : Bool) : Spelled (Codec.boolean.write b) := by
      cases b <;> exact spelled_ascii rfl
    exact layout.spelled_write (a := t)
      ⟨spelled_writeText _, spelled_writeText _, spelled_writeText _, spelled_writeText _, hboolean _, hboolean _,
        spelled_utf8 _, spelled_writeText _, spelled_utf8 _, trivial⟩

/-- Tokens and transfers are read back from the texts that they are written as. So a document that is accepted holds
the same when it has been written again, and then rewriting leaves it alone; and however often a token of the store is
read and saved again, the same is read each time, and nothing else in the store changes. -/
theorem documents_round_trip :
    (∀ t : Token, ∃ s, utf8 s = Token.codec.write t ∧ Token.codec.decodeText s = .ok t) ∧
      (∀ t : Transfer, ∃ s, utf8 s = Transfer.codec.write t ∧ Transfer.codec.decodeText s = .ok t) ∧
      (∀ b d, Token.codec.rewrite b = .ok d →
        Token.codec.decode d = Token.codec.decode b ∧ Token.codec.rewrite d = .ok d) ∧
      (∀ b d, Transfer.codec.rewrite b = .ok d →
        Transfer.codec.decode d = Transfer.codec.decode b ∧ Transfer.codec.rewrite d = .ok d) ∧
      ∀ (s : Store) (k : Key) (t : Token), s.Holds Token.codec k t → ∀ n, ∃ s',
        s.resaves Token.codec k n = .ok (List.replicate n (some t), s') ∧ s'.Holds Token.codec k t ∧
          s'.live = if n = 0 then s.live else s.live.insert k.encode (Token.codec.write t) :=
  ⟨Token.lawful.decodeText_write, Transfer.lawful.decodeText_write, fun _ _ => Token.lawful.rewrite_rewrite,
    fun _ _ => Transfer.lawful.rewrite_rewrite, fun _ _ _ h n => Store.resaves_of_holds Token.lawful h n⟩

def loose : Bytes := utf8 "[\"\\u000a\",\x7b\"FT_POD\":null\x7d,\"G\",\"1.50\"]"

def loosened : Token := ⟨"\n", .ftPod, "G", ⟨150000000, by decide⟩, 0⟩

def loosely : Store := ⟨1, (∅ : Table Entry).insert (Key.token "G").encode ⟨1, some loose⟩⟩

theorem documents_round_trip_loose : Token.codec.rewrite loose = .ok (Token.codec.write loosened) ∧
    Token.codec.rewrite (Token.codec.write loosened) = .ok (Token.codec.write loosened) ∧
    ∃ s, loosely.resaves Token.codec (.token "G") 2 = .ok ([some loosened, some loosened], s) := by
  have hread : Token.codec.decode loose = .ok loosened := by decide +kernel
  have hrewrite : Token.codec.rewrite loose = .ok (Token.codec.write loosened) :=
    Codec.rewrite_eq_ok.mpr ⟨loosened, hread, rfl⟩
  have hholds : loosely.Holds Token.codec (.token "G") loosened := by
    refine ⟨loose, ?_, hread⟩
    rw [Store.value?_eq, loosely, Std.ExtTreeMap.getElem?_insert_self]
    rfl
  obtain ⟨-, -, hagain, -, hstore⟩ := documents_round_trip
  obtain ⟨s, hs, -⟩ := hstore loosely (.token "G") loosened hholds 2
  exact ⟨hrewrite, (hagain _ _ hrewrite).2, s, hs⟩

end TokenLedger
