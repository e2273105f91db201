import TokenLedger.Ledger.Contract
import TokenLedger.Proofs.Json.Number

/-! Whatever the ledger writes can be written: the text of an amount is a value of a document, and nothing else is
checked. So no record and no payload is refused by its encoder. -/

namespace TokenLedger

namespace Json

variable {α : Type}

/-- A codec whose writer refuses nothing. -/
class Codec.Total (c : Codec α) : Prop where
  check_eq : ∀ a, c.check a = .ok ()

theorem Codec.encode_eq (c : Codec α) [c.Total] (a : α) : c.encode a = .ok (c.write a) := by
  rw [encode, Total.check_eq]
  rfl

instance total_text : Codec.text.Total := ⟨fun _ => rfl⟩

instance total_int64 : Codec.int64.Total := ⟨fun _ => rfl⟩

instance total_binary64 : Codec.binary64.Total := ⟨fun _ => rfl⟩

instance total_boolean : Codec.boolean.Total := ⟨fun _ => rfl⟩

instance total_variant (ofName? : String → Option α) (known : List String) (name : α → String) :
    (Codec.variant ofName? known name).Total := ⟨fun _ => rfl⟩

instance total_amount : Codec.amount.Total where
  check_eq a := by
    have hraw := raw_amount a (w := []) (s := []) rfl ends_nil
    rw [List.nil_append, List.append_nil] at hraw
    change (do let _ ← raw.document (Text.utf8 a.text) : Except Error Unit) = _
    rw [Reader.document, StateT.run, show Text.utf8 a.text = Codec.amount.write a from rfl, hraw]
    rfl

theorem forM_eq_ok {f : α → Except Error Unit} (as : List α) (h : ∀ a, f a = .ok ()) : as.forM f = .ok () := by
  induction as with
  | nil => rfl
  | cons a as ih =>
    change (f a).bind (fun _ => as.forM f) = _
    rw [h, ih]
    rfl

instance total_list (c : Codec α) [c.Total] : (Codec.list c).Total where
  check_eq as := forM_eq_ok as Codec.Total.check_eq

instance total_entries (c : Codec α) [c.Total] : (Codec.entries c).Total where
  check_eq ms := forM_eq_ok ms fun m => Codec.Total.check_eq m.2

theorem checkMembers_eq {fs : List Field} (h : ∀ f ∈ fs, f.codec.Total) (r : Row fs) : checkMembers fs r = .ok () := by
  induction fs with
  | nil => rfl
  | cons f fs ih =>
    have hf := h f (by simp)
    change (f.codec.check r.1).bind (fun _ => checkMembers fs r.2) = _
    rw [hf.check_eq, ih fun g hg => h g (by simp [hg])]
    rfl

theorem Layout.total {l : Layout α} (h : ∀ f ∈ l.fields, f.codec.Total) : l.codec.Total :=
  ⟨fun a => checkMembers_eq h (l.toRow a)⟩

end Json

open Json

instance total_token : Token.codec.Total := by
  refine Layout.total ?_
  simp only [Token.layout, Token.fields, List.forall_mem_cons]
  exact ⟨total_text, total_variant .., total_text, total_amount, total_int64, nofun⟩

instance total_balance : Balance.codec.Total := by
  refine Layout.total ?_
  simp only [Balance.layout, Balance.fields, List.forall_mem_cons]
  exact ⟨total_text, total_text, total_amount, total_binary64, total_int64, nofun⟩

instance total_scores : Scores.codec.Total := by
  refine Layout.total ?_
  simp only [Scores.layout, Scores.fields, List.forall_mem_cons]
  exact ⟨total_binary64, total_binary64, nofun⟩

instance total_transfer : Transfer.codec.Total := by
  refine Layout.total ?_
  simp only [Transfer.layout, Transfer.fields, List.forall_mem_cons]
  exact ⟨total_text, total_text, total_text, total_text, total_boolean, total_boolean, total_amount, total_text,
    total_int64, nofun⟩

theorem Envelope.encode_eq (e : Envelope) : e.encode = .ok e.write := by
  have hpart {κ α : Type} [Ord κ] [Std.TransOrd κ] (key : κ → String) (c : Codec α) [c.Total]
      (m : Option (Std.ExtTreeMap κ α)) : checkPart key c m = .ok () := by
    cases m with
    | none => rfl
    | some m => exact Codec.Total.check_eq _
  rw [encode, hpart, hpart, hpart]
  rfl

theorem Change.check_eq (c : Change) : c.check = .ok () := by
  cases c with
  | unlist s => rfl
  | wallet | token | balance | scores => exact Codec.Total.check_eq _

theorem Action.save_eq (c : Change) : save c = .write c (.answer ()) := by rw [save, c.check_eq]

@[simp] theorem payload_encode {α : Type} (c : Codec α) [c.Total] (a : α) : payload (c.encode a) = .ok (c.write a) := by
  rw [c.encode_eq, payload]

@[simp] theorem payload_envelope (e : Envelope) : payload e.encode = .ok e.write := by rw [e.encode_eq, payload]

end TokenLedger
