import Std.Data.ExtTreeMap
import TokenLedger.Text.Split

/-! State keys. A key is a namespace and a list of components, and its text is
`NAMESPACE/c₁/c₂/…` with `%` and `/` escaped inside the components, so different keys have different
texts and `NAMESPACE/c₁/` begins the texts of the keys that extend `c₁` and of no others. -/

namespace TokenLedger

inductive Namespace where
  | wallets
  | tokens
  | balances
  | scores
  deriving DecidableEq, Repr

namespace Namespace

def all : List Namespace := [.wallets, .tokens, .balances, .scores]

def tag : Namespace → String
  | .wallets => "WALLETS"
  | .tokens => "TOKEN"
  | .balances => "BALANCES"
  | .scores => "SCORES"

def ofTag? (s : String) : Option Namespace := all.find? (·.tag == s)

@[simp] theorem ofTag?_tag (n : Namespace) : ofTag? n.tag = some n := by cases n <;> decide

end Namespace

structure Key where
  ns : Namespace
  components : List String
  deriving DecidableEq, Repr

namespace Key

def escapeChar : Char → List Char
  | '%' => ['%', '2', '5']
  | '/' => ['%', '2', 'F']
  | c => [c]

def escape (s : List Char) : List Char := s.flatMap escapeChar

/-- Refuses a `%` that begins no escape. -/
def unescape? : List Char → Option (List Char)
  | [] => some []
  | '%' :: '2' :: '5' :: s => (unescape? s).map ('%' :: ·)
  | '%' :: '2' :: 'F' :: s => (unescape? s).map ('/' :: ·)
  | '%' :: _ => none
  | c :: s => (unescape? s).map (c :: ·)

def encodeChars (k : Key) : List Char :=
  k.ns.tag.toList ++ k.components.flatMap fun c => '/' :: escape c.toList

/-- The text of a key. -/
def encode (k : Key) : String := String.ofList k.encodeChars

/-- The beginning of the texts of all keys that extend `k` by further components. -/
def scanPrefix (k : Key) : String := String.ofList (k.encodeChars ++ ['/'])

/-- A text that is no key. -/
inductive Unreadable where
  | unknownNamespace (text : String)
  | badComponent (text : String)
  deriving DecidableEq, Repr

def decode (s : String) : Except Unreadable Key :=
  match Text.pieces '/' s.toList with
  | [] => .error (.unknownNamespace s)
  | tag :: parts =>
    match Namespace.ofTag? (String.ofList tag) with
    | none => .error (.unknownNamespace s)
    | some ns =>
      match parts.mapM unescape? with
      | none => .error (.badComponent s)
      | some cs => .ok ⟨ns, cs.map String.ofList⟩

def wallet (address : String) : Key := ⟨.wallets, [address]⟩
def token (symbol : String) : Key := ⟨.tokens, [symbol]⟩
def scores (actor : String) : Key := ⟨.scores, [actor]⟩

end Key

/-- What an address holds of one token. -/
structure Account where
  address : String
  token : String
  deriving DecidableEq, Repr

namespace Account

/-- Accounts are in the order of their addresses, and for one address of their tokens. -/
instance : Ord Account := ⟨compareLex (compareOn address) (compareOn token)⟩

instance : Std.TransOrd Account :=
  inferInstanceAs (Std.TransCmp (compareLex (compareOn Account.address) (compareOn Account.token)))

instance : Std.LawfulEqOrd Account where
  eq_of_compare {a b} h := by
    obtain ⟨h₁, h₂⟩ := Ordering.then_eq_eq.1 h
    have h₁ : a.address = b.address := Std.LawfulEqOrd.eq_of_compare h₁
    have h₂ : a.token = b.token := Std.LawfulEqOrd.eq_of_compare h₂
    cases a; cases b; simp_all

/-- The key of the balance record. -/
def key (a : Account) : Key := ⟨.balances, [a.address, a.token]⟩

def ofKey? : Key → Option Account
  | ⟨.balances, [address, token]⟩ => some ⟨address, token⟩
  | _ => none

@[simp] theorem ofKey?_key (a : Account) : ofKey? a.key = some a := rfl

def chars (a : Account) : List Char :=
  Key.escape a.address.toList ++ '/' :: Key.escape a.token.toList

/-- The text of the key without its namespace. -/
def text (a : Account) : String := String.ofList a.chars

end Account
end TokenLedger
