import TokenLedger.Record.Envelope
import TokenLedger.Proofs.Key
import TokenLedger.Proofs.Json.Verbatim

/-! Envelopes read back. Whoever receives an envelope has its octets and nothing else: from them he tells
which balances and tokens were recorded, and with which documents. -/

namespace TokenLedger

open Json

def Account.ofText? (s : String) : Option Account :=
  match Text.pieces '/' s.toList with
  | [address, token] => do
    return ⟨String.ofList (← Key.unescape? address), String.ofList (← Key.unescape? token)⟩
  | _ => none

/-- No mark in an address or in the symbol of a token is taken for the one between them. -/
@[simp] theorem Account.ofText?_text (a : Account) : ofText? a.text = some a := by
  have hpieces : Text.pieces '/' a.text.toList = [Key.escape a.address.toList, Key.escape a.token.toList] := by
    rw [text, String.toList_ofList, chars, Text.pieces_append_sep (Key.sep_notMem_escape _),
      Text.pieces_of_notMem (Key.sep_notMem_escape _)]
  simp [ofText?, hpieces]

/-- However the members of a document are written, the document is taken whole. -/
theorem Balance.whole_write (b : Balance) : Whole (codec.write b) := by
  refine layout.whole ?_
  simp only [layout, fields, rowMembers, List.forall_mem_cons]
  exact ⟨whole_text _, whole_text _, whole_amount _, whole_binary64 _, whole_int64 _, fun _ h => by cases h⟩

theorem Token.whole_write (t : Token) : Whole (codec.write t) := by
  refine layout.whole ?_
  simp only [layout, fields, rowMembers, List.forall_mem_cons]
  exact ⟨whole_text _, whole_text _, whole_text _, whole_amount _, whole_int64 _, fun _ h => by cases h⟩

theorem Transfer.whole_write (t : Transfer) : Whole (codec.write t) := by
  refine layout.whole ?_
  simp only [layout, fields, rowMembers, List.forall_mem_cons]
  exact ⟨whole_text _, whole_text _, whole_text _, whole_text _, whole_boolean _, whole_boolean _, whole_amount _,
    whole_text _, whole_int64 _, fun _ h => by cases h⟩

namespace Envelope

/-- The parts of an envelope, each with its documents as they are written. -/
structure Parts where
  balances : Option (List (String × Bytes))
  tokens : Option (List (String × Bytes))
  transfers : Option (List (String × Bytes))

def Parts.fields : List Field :=
  let part := Codec.optional (.entries .verbatim)
  [.required "UpdateBalances" part, .required "UpdateTokens" part, .required "Transactions" part]

def Parts.layout : Layout Parts where
  name := "Output"
  fields := Parts.fields
  ofRow := fun (balances, tokens, transfers, _) => ⟨balances, tokens, transfers⟩
  toRow p := (p.balances, p.tokens, p.transfers, ())

def documents {κ α : Type} [Ord κ] [Std.TransOrd κ] (key : κ → String) (c : Codec α)
    (m : Std.ExtTreeMap κ α) : List (String × Bytes) :=
  m.toList.map fun (k, a) => (key k, c.write a)

def parts (e : Envelope) : Parts where
  balances := e.balances.map (documents Account.text Balance.codec)
  tokens := e.tokens.map (documents id Token.codec)
  transfers := e.transfers.map (documents id Transfer.codec)

section Part

variable {κ α : Type} [Ord κ] [Std.TransOrd κ] (key : κ → String)

theorem writePart_eq (c : Codec α) (m : Option (Std.ExtTreeMap κ α)) :
    writePart key c m = (Codec.optional (.entries .verbatim)).write (m.map (documents key c)) := by
  cases m with
  | none => rfl
  | some m =>
    change (Codec.entries c).write (m.toList.map fun (k, a) => (key k, a)) =
      (Codec.entries Codec.verbatim).write (documents key c m)
    simp only [Codec.entries, documents, List.map_map]
    rfl

theorem reads_part {c : Codec α} (hc : ∀ a, Whole (c.write a) ∧ c.write a ≠ [])
    (m : Option (Std.ExtTreeMap κ α)) : (Codec.optional (.entries .verbatim)).Reads (m.map (documents key c)) := by
  cases m with
  | none => exact reads_none _
  | some m =>
    refine reads_some (reads_entries_verbatim fun p hp => ?_) rfl (.inr rfl)
    obtain ⟨q, -, rfl⟩ := List.mem_map.mp hp
    exact hc q.2

end Part

theorem write_eq (e : Envelope) : e.write = Parts.layout.codec.write e.parts := by
  rw [write, writePart_eq, writePart_eq, writePart_eq]
  rfl

theorem decode_write (e : Envelope) : Parts.layout.codec.decode e.write = .ok e.parts := by
  have hne {α : Type} (l : Layout α) (a : α) : l.codec.write a ≠ [] := List.cons_ne_nil _ _
  have hbalances := reads_part Account.text (fun b => ⟨Balance.whole_write b, hne Balance.layout b⟩) e.balances
  have htokens := reads_part id (fun t => ⟨Token.whole_write t, hne Token.layout t⟩) e.tokens
  have htransfers := reads_part id (fun t => ⟨Transfer.whole_write t, hne Transfer.layout t⟩) e.transfers
  have hr : RowReads Parts.layout.fields (Parts.layout.toRow e.parts) :=
    rowReads_cons hbalances (rowReads_cons htokens (rowReads_cons htransfers (rowReads_nil _)))
  rw [write_eq]
  exact (Parts.layout.reads_codec hr (by decide) rfl).decode

end Envelope

/-- The balances and the tokens that an envelope reports, each with its document. -/
structure Report where
  balances : List (Account × Bytes)
  tokens : List (String × Bytes)

namespace Report

/-- The report in a payload. -/
def ofPayload? (payload : Bytes) : Option Report :=
  match Envelope.Parts.layout.codec.decode payload with
  | .ok p => do
    let balances ← (p.balances.getD []).mapM fun (k, b) => (Account.ofText? k).map (·, b)
    return ⟨balances, p.tokens.getD []⟩
  | .error _ => none

/-- The documents by the keys of their records. -/
def documents (r : Report) : List (Key × Bytes) :=
  r.balances.map (fun (a, b) => (a.key, b)) ++ r.tokens.map fun (s, b) => (.token s, b)

end Report

def Envelope.report (e : Envelope) : Report where
  balances := (e.balances.getD ∅).toList.map fun (a, b) => (a, Balance.codec.write b)
  tokens := (e.tokens.getD ∅).toList.map fun (s, t) => (s, Token.codec.write t)

theorem Envelope.ofPayload?_write (e : Envelope) : Report.ofPayload? e.write = some e.report := by
  have haccounts (ms : List (Account × Balance)) :
      (ms.map fun (a, b) => (a.text, Balance.codec.write b)).mapM (fun (k, b) => (Account.ofText? k).map (·, b)) =
        some (ms.map fun (a, b) => (a, Balance.codec.write b)) := by
    induction ms with
    | nil => rfl
    | cons m ms ih => simp [List.mapM_cons, ih]
  have hpart {κ α : Type} [Ord κ] [Std.TransOrd κ] (key : κ → String) (c : Codec α)
      (m : Option (Std.ExtTreeMap κ α)) : (m.map (documents key c)).getD [] = documents key c (m.getD ∅) := by
    cases m with
    | none => simp [documents]
    | some m => rfl
  rw [Report.ofPayload?, decode_write]
  simp only [parts, hpart]
  rw [documents, haccounts]
  rfl

theorem Envelope.nodup_report (e : Envelope) :
    (e.report.balances.map Prod.fst).Nodup ∧ (e.report.tokens.map Prod.fst).Nodup := by
  have hnodup {κ α : Type} [Ord κ] [Std.TransOrd κ] (m : Std.ExtTreeMap κ α) (f : α → Bytes) :
      ((m.toList.map fun (k, a) => (k, f a)).map Prod.fst).Nodup := by
    rw [List.map_map]
    refine List.pairwise_map.mpr (Std.ExtTreeMap.distinct_keys_toList.imp fun {p q} hne he => hne ?_)
    have he : p.1 = q.1 := he
    rw [he]
    exact Std.ReflCmp.compare_self
  exact ⟨hnodup _ _, hnodup _ _⟩

end TokenLedger
