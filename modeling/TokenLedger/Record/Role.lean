import TokenLedger.Json.Codec

/-! The roles of callers. -/

namespace TokenLedger

inductive Role where
  | admin
  | user
  | business
  | guarantor
  | courtMember
  | exchange
  deriving DecidableEq, Repr

namespace Role

def all : List Role := [.admin, .user, .business, .guarantor, .courtMember, .exchange]

def name : Role → String
  | .admin => "ADMIN"
  | .user => "USER"
  | .business => "BUSINESS"
  | .guarantor => "GUARANTOR"
  | .courtMember => "COURT_MEMBER"
  | .exchange => "EXCHANGE"

def ofName? (s : String) : Option Role := all.find? (·.name == s)

@[simp] theorem ofName?_name (r : Role) : ofName? r.name = some r := by cases r <;> decide

def codec : Json.Codec Role := .variant ofName? (all.map name) name

end Role
end TokenLedger
