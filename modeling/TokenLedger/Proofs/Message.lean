import TokenLedger.Record.Transfer
import TokenLedger.Proofs.Json.Text

/-! What is hashed for a transfer. Each text stands behind its length and each number has a fixed length, so the
terms of the transfer can be read off the octets, whatever follows them: no other terms have the same message, and
none is the beginning of another. -/

namespace TokenLedger

namespace Text

def takeNumber? (n : Nat) (b : Bytes) : Option (Nat × Bytes) :=
  if b.length < n then none else some (ofLittleEndian (b.take n), b.drop n)

theorem takeNumber?_littleEndian {n v : Nat} (hv : v < Nat.pow 256 n) (b : Bytes) :
    takeNumber? n (littleEndian n v ++ b) = some (v, b) := by
  have hlength : (littleEndian n v).length = n := length_littleEndian n v
  rw [takeNumber?, if_neg (by simp), List.take_left' hlength, List.drop_left' hlength, ofLittleEndian_littleEndian,
    Nat.mod_eq_of_lt hv]

def takeFramed? (b : Bytes) : Option (String × Bytes) := do
  let (n, b) ← takeNumber? 8 b
  if b.length < n then none
  return (← ofUtf8? (b.take n), b.drop n)

theorem takeFramed?_framed {s : String} (hs : (utf8 s).length < UInt64.size) (b : Bytes) :
    takeFramed? (Transfer.framed s ++ b) = some (s, b) := by
  have hnumber := takeNumber?_littleEndian (n := 8) hs (utf8 s ++ b)
  simp [takeFramed?, Transfer.framed, List.append_assoc, hnumber]

end Text

namespace Transfer

/-- What the sender agrees to, as it can be read off what is hashed. -/
structure Terms where
  id : String
  token : String
  sender : String
  receiver : String
  amount : Amount
  date : Timestamp
  deriving DecidableEq, Repr

def terms (t : Transfer) : Terms := ⟨t.id, t.token, t.sender, t.receiver, t.amount, t.date⟩

open Text in
/-- The terms at the front, and the octets behind them. -/
def Terms.take? (b : Bytes) : Option (Terms × Bytes) := do
  let tag := utf8 "coinbal-transfer-v1"
  if !tag.isPrefixOf b then none
  let (id, b) ← takeFramed? (b.drop tag.length)
  let (token, b) ← takeFramed? b
  let (sender, b) ← takeFramed? b
  let (receiver, b) ← takeFramed? b
  let (units, b) ← takeNumber? 8 b
  let (seconds, b) ← takeNumber? 8 b
  return (⟨id, token, sender, receiver, ← Amount.ofUnits? units, Int64.ofNat seconds⟩, b)

structure SameTerms (t u : Transfer) : Prop where
  id : t.id = u.id
  token : t.token = u.token
  sender : t.sender = u.sender
  receiver : t.receiver = u.receiver
  amount : t.amount = u.amount
  date : t.date = u.date

/-- The octets of each text can be counted in 64 bits, as those of any text in a memory can. -/
def Measured (t : Transfer) : Prop :=
  ∀ s ∈ [t.id, t.token, t.sender, t.receiver], (Text.utf8 s).length < UInt64.size

variable {t u : Transfer}

theorem sameTerms_iff : t.SameTerms u ↔ t.terms = u.terms := by
  simp only [terms, Terms.mk.injEq]
  constructor
  · rintro ⟨hid, htoken, hsender, hreceiver, hamount, hdate⟩
    exact ⟨hid, htoken, hsender, hreceiver, hamount, hdate⟩
  · rintro ⟨hid, htoken, hsender, hreceiver, hamount, hdate⟩
    exact ⟨hid, htoken, hsender, hreceiver, hamount, hdate⟩

theorem SameTerms.message (h : t.SameTerms u) : t.message = u.message := by
  simp only [Transfer.message, h.id, h.token, h.sender, h.receiver, h.amount, h.date]

theorem take?_message (ht : t.Measured) (r : Bytes) : Terms.take? (t.message ++ r) = some (t.terms, r) := by
  simp only [Measured, List.forall_mem_cons] at ht
  obtain ⟨hid, htoken, hsender, hreceiver, -⟩ := ht
  have hunits (b : Bytes) := Text.takeNumber?_littleEndian (n := 8) t.amount.units_lt b
  have hseconds (b : Bytes) := Text.takeNumber?_littleEndian (n := 8) t.date.toUInt64.toNat_lt b
  have hamount : Amount.ofUnits? t.amount.units = some t.amount := Amount.ofUnits?_eq_some.mpr rfl
  have hdate : Int64.ofNat t.date.toUInt64.toNat = t.date := by
    rw [← UInt64.toInt64_ofNat']
    simp
  simp [Terms.take?, Transfer.message, List.append_assoc, Text.takeFramed?_framed, hid, htoken, hsender, hreceiver,
    hunits, hseconds, hamount, hdate, terms]

/-- Different terms have different messages, and what follows a message cannot be taken for a part of it. -/
theorem message_append_inj (ht : t.Measured) (hu : u.Measured) {r s : Bytes}
    (h : t.message ++ r = u.message ++ s) : t.SameTerms u ∧ r = s := by
  have hread := take?_message ht r
  rw [h, take?_message hu s, Option.some.injEq, Prod.mk.injEq] at hread
  exact ⟨sameTerms_iff.mpr hread.1.symm, hread.2.symm⟩

theorem sameTerms_of_message (ht : t.Measured) (hu : u.Measured) (h : t.message = u.message) : t.SameTerms u :=
  (message_append_inj ht hu (congrArg (· ++ []) h)).1

/-- The characters `m` move from the end of one text to the beginning of the next, or they leave the last one for
the numbers behind it. -/
inductive Moves (m : String) : Transfer → Transfer → Prop
  | token (t : Transfer) (a b : String) :
      Moves m { t with id := a ++ m, token := b } { t with id := a, token := m ++ b }
  | sender (t : Transfer) (a b : String) :
      Moves m { t with token := a ++ m, sender := b } { t with token := a, sender := m ++ b }
  | receiver (t : Transfer) (a b : String) :
      Moves m { t with sender := a ++ m, receiver := b } { t with sender := a, receiver := m ++ b }
  | numbers (t : Transfer) (a : String) (n n' : Amount) (d d' : Timestamp) :
      Moves m { t with receiver := a ++ m, amount := n, date := d } { t with receiver := a, amount := n', date := d' }

theorem Moves.not_sameTerms {m : String} (h : Moves m t u) (hm : m ≠ "") : ¬ t.SameTerms u := by
  have hlonger {a : String} (ha : a ++ m = a) : False := hm (by simpa using ha)
  cases h with
  | token t a b => exact fun hsame => hlonger hsame.id
  | sender t a b => exact fun hsame => hlonger hsame.token
  | receiver t a b => exact fun hsame => hlonger hsame.sender
  | numbers t a n n' d d' => exact fun hsame => hlonger hsame.receiver

end Transfer

/-- What is hashed determines the terms: they can be read off it, whatever follows it. So two transfers have the same
message exactly if they are on the same terms, no message is a proper beginning of another, and characters that move
from one text to the next, or from the last one into the numbers, change the message. -/
theorem message_determines {t u : Transfer} (ht : t.Measured) (hu : u.Measured) :
    (∀ r, Transfer.Terms.take? (t.message ++ r) = some (t.terms, r)) ∧
      (t.message = u.message ↔ t.id = u.id ∧ t.token = u.token ∧ t.sender = u.sender ∧ t.receiver = u.receiver ∧
        t.amount = u.amount ∧ t.date = u.date) ∧
      (t.message <+: u.message ↔ t.message = u.message) ∧
      ∀ m, m ≠ "" → Transfer.Moves m t u → t.message ≠ u.message := by
  refine ⟨Transfer.take?_message ht, ⟨fun h => ?_, ?_⟩, ⟨?_, fun h => h ▸ List.prefix_refl _⟩, fun m hm hmoves h => ?_⟩
  · obtain ⟨hid, htoken, hsender, hreceiver, hamount, hdate⟩ := Transfer.sameTerms_of_message ht hu h
    exact ⟨hid, htoken, hsender, hreceiver, hamount, hdate⟩
  · rintro ⟨hid, htoken, hsender, hreceiver, hamount, hdate⟩
    exact Transfer.SameTerms.message ⟨hid, htoken, hsender, hreceiver, hamount, hdate⟩
  · rintro ⟨r, hr⟩
    obtain ⟨hsame, -⟩ := Transfer.message_append_inj ht hu (hr.trans (List.append_nil _).symm)
    exact hsame.message
  · exact hmoves.not_sameTerms hm (Transfer.sameTerms_of_message ht hu h)

def forBob : Transfer := ⟨"", "GLD", "ann", "bob", false, false, ⟨3978425819141910832, by decide⟩, "", 0⟩

def forBobby : Transfer := { forBob with receiver := "bob" ++ "01234567", amount := .zero }

theorem message_determines_forBobby :
    Text.utf8 "01234567" = Text.littleEndian 8 forBob.amount.units ∧
      Transfer.Terms.take? (forBobby.message ++ forBob.message) = some (forBobby.terms, forBob.message) ∧
      forBobby.message ≠ forBob.message := by
  have hmeasured : forBobby.Measured ∧ forBob.Measured := by
    simp only [Transfer.Measured, List.forall_mem_cons]
    decide
  obtain ⟨hread, -, -, hmoves⟩ := message_determines hmeasured.1 hmeasured.2
  exact ⟨by decide, hread _, hmoves "01234567" (by decide) (.numbers forBob "bob" .zero forBob.amount 0 0)⟩

end TokenLedger
