/-! White space, and texts without it at their ends. -/

namespace TokenLedger.Text

/-- The characters with the Unicode property White_Space. -/
def isBlank (c : Char) : Bool :=
  let n := c.toNat
  (0x9 ≤ n && n ≤ 0xD) || n == 0x20 || n == 0x85 || n == 0xA0 || n == 0x1680
    || (0x2000 ≤ n && n ≤ 0x200A) || n == 0x2028 || n == 0x2029 || n == 0x202F || n == 0x205F
    || n == 0x3000

def dropRight (p : Char → Bool) (s : List Char) : List Char := (s.reverse.dropWhile p).reverse

def strip (p : Char → Bool) (s : List Char) : List Char := dropRight p (s.dropWhile p)

/-- The text without white space at either end. -/
def trim (s : List Char) : List Char := strip isBlank s

def withoutMark : List Char → List Char
  | '0' :: 'x' :: s => s
  | s => s

def withoutMarks : List Char → List Char
  | '0' :: 'x' :: s => withoutMarks s
  | s => s

end TokenLedger.Text
