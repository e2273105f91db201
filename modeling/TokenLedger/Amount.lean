import TokenLedger.Text.Blank
import TokenLedger.Text.Quoted
import TokenLedger.Decimal.Numeral

/-! Amounts of a token, counted in units of `10 ^ -8`. An amount is read from a decimal numeral
exactly or not at all, and written as the shortest one without an exponent. -/

namespace TokenLedger

/-- A number of units that fits in 64 bits. -/
structure Amount where
  units : Nat
  units_lt : units < UInt64.size
  deriving DecidableEq, Repr

namespace Amount

@[ext] theorem ext {a b : Amount} (h : a.units = b.units) : a = b := by
  cases a; cases b; cases h; rfl

def places : Nat := 8

/-- The units of one whole token. -/
def scale : Nat := 100000000

def ofUnits? (n : Nat) : Option Amount := if h : n < UInt64.size then some ⟨n, h⟩ else none

def zero : Amount := ⟨0, by decide⟩
def max : Amount := ⟨UInt64.size - 1, by decide⟩

instance : Inhabited Amount := ⟨zero⟩

/-- The amount with the given number of units, or the largest one. -/
def saturating (n : Nat) : Amount := (ofUnits? n).getD max

def whole (n : Nat) : Amount := saturating (n * scale)

def isZero (a : Amount) : Bool := a.units == 0

def isIntegral (a : Amount) : Bool := a.units % scale == 0

def add? (a b : Amount) : Option Amount := ofUnits? (a.units + b.units)

def sub? (a b : Amount) : Option Amount :=
  if b.units ≤ a.units then some ⟨a.units - b.units, by have := a.units_lt; omega⟩ else none

theorem isZero_eq_false {a : Amount} : a.isZero = false ↔ 0 < a.units := by
  rw [isZero, beq_eq_false_iff_ne, Nat.pos_iff_ne_zero]

theorem ofUnits?_eq_some {n : Nat} {a : Amount} : ofUnits? n = some a ↔ a.units = n := by
  unfold ofUnits?
  split
  · constructor
    · intro h; cases h; rfl
    · intro h; congr 1; exact ext h.symm
  · constructor
    · intro h; cases h
    · intro h; have := a.units_lt; omega

theorem add?_eq_some {a b c : Amount} : a.add? b = some c ↔ c.units = a.units + b.units :=
  ofUnits?_eq_some

theorem sub?_eq_some {a b c : Amount} : a.sub? b = some c ↔ c.units + b.units = a.units := by
  unfold sub?
  split
  · constructor
    · intro h; cases h; simp; omega
    · intro h; congr 1; apply ext; simp; omega
  · constructor
    · intro h; cases h
    · intro h; omega

/-- Whole tokens, and behind a point the fraction without trailing zeros. -/
def chars (a : Amount) : List Char :=
  let fraction := a.units % scale
  Nat.toDigits 10 (a.units / scale) ++
    if fraction = 0 then []
    else '.' :: Text.dropRight (· == '0') (Decimal.fixedDigits places fraction)

def text (a : Amount) : String := String.ofList a.chars

/-- Why a text is no amount. -/
inductive Reason where
  | negative
  | tooPrecise
  | outOfRange
  | malformed
  deriving DecidableEq, Repr

/-- A text that is no amount, without the white space around it. -/
structure Unreadable where
  reason : Reason
  text : String
  deriving DecidableEq, Repr

def Unreadable.message (e : Unreadable) : String :=
  match e.reason with
  | .negative => "amount cannot be negative: " ++ e.text
  | .tooPrecise => "amount has more than 8 decimal places: " ++ e.text
  | .outOfRange => "amount out of range: " ++ e.text
  | .malformed => "malformed amount: " ++ Text.quote e.text

/-- The zeros between the last significant digit and the last place of an amount; negative if there
are digits beyond that place. -/
def padding (n : Decimal.Numeral) : Int := n.place + places - n.significant.length

/-- The exact amount. No amount has more than 20 digits, so at most 19 zeros are put behind the
significant ones. -/
def ofNumeral (n : Decimal.Numeral) : Except Reason Amount :=
  let ds := n.significant
  let pad := padding n
  if ds.isEmpty then .ok zero
  else if pad < 0 then .error .tooPrecise
  else if 20 < ds.length + pad then .error .outOfRange
  else match ofUnits? (Decimal.natural (ds ++ List.replicate pad.toNat '0')) with
    | some a => .ok a
    | none => .error .outOfRange

/-- The amount that a text without white space at its ends spells. -/
def ofTrimmed (s : List Char) : Except Reason Amount :=
  if s.head? = some '-' then .error .negative
  else match Decimal.Numeral.ofChars? s with
    | none => .error .malformed
    | some n => ofNumeral n

def ofChars (s : List Char) : Except Unreadable Amount :=
  let t := Text.trim s
  (ofTrimmed t).mapError fun r => ⟨r, String.ofList t⟩

def ofText (s : String) : Except Unreadable Amount := ofChars s.toList

example : (ofText " 2.50 ").map text = .ok "2.5" := rfl
example : ofText "0.000000001" = .error ⟨.tooPrecise, "0.000000001"⟩ := rfl

end Amount
end TokenLedger
