import TokenLedger.Text.Printable

/-! Quotation inside messages: the quote and the backslash are escaped, and what cannot be shown is
written as its code point. -/

namespace TokenLedger.Text

/-- The lower-case digits of a number in base 16. -/
def hexDigits (n : Nat) : List Char := Nat.toDigits 16 n

def quotedChar (mark c : Char) : List Char :=
  match c with
  | '\\' => ['\\', '\\']
  | '\n' => ['\\', 'n']
  | '\r' => ['\\', 'r']
  | '\t' => ['\\', 't']
  | '\x00' => ['\\', '0']
  | c =>
    if c = mark then ['\\', c]
    else if isPrintable c then [c]
    else ['\\', 'u', '{'] ++ hexDigits c.toNat ++ ['}']

/-- The text between double quotes. -/
def quoted (s : List Char) : List Char := '"' :: s.flatMap (quotedChar '"') ++ ['"']

def quote (s : String) : String := String.ofList (quoted s.toList)

example : quote "a\"b\\c\n\u200b" = "\"a\\\"b\\\\c\\n\\u\x7b200b\x7d\"" := by decide +kernel

end TokenLedger.Text
