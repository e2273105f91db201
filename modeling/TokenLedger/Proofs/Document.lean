import TokenLedger.Store.Selector
import TokenLedger.Ledger.Change
import TokenLedger.Record.Transfer
import TokenLedger.Proofs.Json.Value

/-! The documents of the ledger. A token is read back as it was written, and so are a transfer and a balance as
the operations leave it; the selectors of the ledger find such a balance by its token. -/

namespace TokenLedger

open Json Octet

theorem TokenType.name_inj {s t : TokenType} : s.name = t.name ↔ s = t := by
  refine ⟨fun h => ?_, fun h => h ▸ rfl⟩
  have hs := ofName?_name s
  rw [h, ofName?_name] at hs
  exact (Option.some.inj hs).symm

namespace Token

theorem reads (t : Token) : codec.Reads t := by
  have hr : RowReads layout.fields (layout.toRow t) :=
    rowReads_cons (reads_text t.name) <| rowReads_cons (reads_variant _ (TokenType.ofName?_name t.type)) <|
      rowReads_cons (reads_text t.symbol) <| rowReads_cons (reads_amount t.supply) <|
        rowReads_cons (reads_int64 t.lockUpDate) (rowReads_nil _)
  exact layout.reads_codec hr (by decide) rfl

@[simp] theorem decode_write (t : Token) : codec.decode (codec.write t) = .ok t := (reads t).decode

/-- The members of a written token and what documents of any form hold under them. -/
theorem members_taken (t : Token) : ∃ supply, Value.MembersTaken (rowMembers layout.fields (layout.toRow t))
    [("Name", .text t.name), ("TokenType", .text t.type.name), ("Symbol", .text t.symbol), ("Supply", supply),
      ("LockUpDate", .integer t.lockUpDate.toInt)] := by
  obtain ⟨supply, hsupply⟩ := Value.taken_amount t.supply
  refine ⟨supply, ?_⟩
  exact Value.membersTaken_cons (by decide) (Value.taken_text _) <|
    Value.membersTaken_cons (by decide) (Value.taken_text _) <|
      Value.membersTaken_cons (by decide) (Value.taken_text _) <|
        Value.membersTaken_cons (by decide) hsupply <|
          Value.membersTaken_cons (by decide) (Value.taken_int64 _) Value.membersTaken_nil

theorem accepts_type (t : Token) (ns : Namespace) (type : TokenType) :
    (Selector.text ns "TokenType" type.name).accepts (codec.write t) = (t.type == type) := by
  obtain ⟨supply, hm⟩ := members_taken t
  have hw : codec.write t = spreadObject [] [] [] (rowMembers layout.fields (layout.toRow t)) :=
    layout.write_eq_spreadObject t
  have hv := Value.ofBytes_spreadObject [] [] [] rfl rfl rfl Value.maxDepth (by decide) hm
  rw [Selector.accepts, hw, hv]
  simp only [Selector.text, Value.member?, Value.lookup_foldl]
  simp [Value.lookup_cons, Value.same, TokenType.name_inj]

end Token

theorem Transfer.reads (t : Transfer) : codec.Reads t := by
  have hr : RowReads layout.fields (layout.toRow t) :=
    rowReads_cons (reads_text t.kind) <| rowReads_cons (reads_text t.token) <|
      rowReads_cons (reads_text t.sender) <| rowReads_cons (reads_text t.receiver) <|
        rowReads_cons (reads_boolean t.anyReceiver) <| rowReads_cons (reads_boolean t.anySender) <|
          rowReads_cons (reads_amount t.amount) <| rowReads_cons (reads_text t.id) <|
            rowReads_cons (reads_int64 t.date) (rowReads_nil _)
  exact layout.reads_codec hr (by decide) rfl

namespace Balance

structure Plain (b : Balance) : Prop where
  credit : b.credit = .zero false
  lockUpDate : b.lockUpDate = 0

theorem plain_zero (a : Account) : Plain (zero a) := ⟨rfl, rfl⟩

theorem Plain.with_amount {b : Balance} (h : b.Plain) (a : Amount) : Plain { b with amount := a } :=
  ⟨h.credit, h.lockUpDate⟩

theorem reads {b : Balance} (h : b.Plain) : codec.Reads b := by
  obtain ⟨address, token, amount, credit, lockUpDate⟩ := b
  obtain ⟨rfl, rfl⟩ : credit = .zero false ∧ lockUpDate = 0 := ⟨h.credit, h.lockUpDate⟩
  have hr : RowReads layout.fields (layout.toRow ⟨address, token, amount, .zero false, 0⟩) :=
    rowReads_cons (reads_text address) <| rowReads_cons (reads_text token) <|
      rowReads_cons (reads_amount amount) <| rowReads_cons reads_binary64_zero <|
        rowReads_cons (reads_int64 0) (rowReads_nil _)
  exact layout.reads_codec hr (by decide) rfl

theorem decode_write {b : Balance} (h : b.Plain) : codec.decode (codec.write b) = .ok b :=
  (reads h).decode

/-- The members of a written balance and what documents of any form hold under them. -/
theorem members_taken {b : Balance} (h : b.Plain) : ∃ amount credit lockUpDate,
    Value.MembersTaken (rowMembers layout.fields (layout.toRow b))
      [("Address", .text b.address), ("Token", .text b.token), ("Amount", amount), ("Credit", credit),
        ("LockUpDate", lockUpDate)] := by
  obtain ⟨amount, hamount⟩ := Value.taken_amount b.amount
  have hcredit : Value.Taken (.float (.zero false)) (Codec.binary64.write b.credit) := by
    rw [h.credit]
    refine Value.taken_number (x := .float (.zero false)) (d := 48) (r := [point, 48]) rfl rfl ?_
    intro s hs
    exact number_zero_float hs
  have hdate : Value.Taken (.integer 0) (Codec.int64.write b.lockUpDate) := by
    rw [h.lockUpDate]
    exact Value.taken_number (x := .integer 0) (d := 48) (r := []) rfl rfl fun s hs =>
      number_digits 0 (by decide) hs
  refine ⟨amount, .float (.zero false), .integer 0, ?_⟩
  exact Value.membersTaken_cons (by decide) (Value.taken_text _) <|
    Value.membersTaken_cons (by decide) (Value.taken_text _) <|
      Value.membersTaken_cons (by decide) hamount <| Value.membersTaken_cons (by decide) hcredit <|
        Value.membersTaken_cons (by decide) hdate Value.membersTaken_nil

theorem accepts_token {b : Balance} (h : b.Plain) (ns : Namespace) (symbol : String) :
    (Selector.text ns "Token" symbol).accepts (codec.write b) = (b.token == symbol) := by
  obtain ⟨amount, credit, lockUpDate, hm⟩ := members_taken h
  have hw : codec.write b = spreadObject [] [] [] (rowMembers layout.fields (layout.toRow b)) :=
    layout.write_eq_spreadObject b
  have hv := Value.ofBytes_spreadObject [] [] [] rfl rfl rfl Value.maxDepth (by decide) hm
  rw [Selector.accepts, hw, hv]
  simp only [Selector.text, Value.member?, Value.lookup_foldl]
  simp [Value.lookup_cons, Value.same]

end Balance
end TokenLedger
