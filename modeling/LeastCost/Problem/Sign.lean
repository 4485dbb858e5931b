import LeastCost.Text.Blank

/-!
# Constraint signs

How the two sides of a constraint row compare, and the spellings of it.
-/

namespace LeastCost

/-- The comparison of a row's activity with its right-hand side. -/
inductive Sign where
  | lessEqual
  | greaterEqual
  | equal
  deriving DecidableEq, Repr

/-- Text that spells no constraint sign, without the blanks around it. -/
structure UnknownSign where
  text : String
  deriving DecidableEq

namespace Sign

/-- The sign of a row multiplied by minus one. -/
def flipped : Sign → Sign
  | .lessEqual => .greaterEqual
  | .greaterEqual => .lessEqual
  | .equal => .equal

def symbol : Sign → String
  | .lessEqual => "<="
  | .greaterEqual => ">="
  | .equal => "="

def all : List Sign := [.lessEqual, .greaterEqual, .equal]

def ofSymbol? (text : String) : Option Sign := all.find? (·.symbol == text)

/-- Reads a sign in any of its spellings, blanks around it ignored. -/
def ofText (text : String) : Except UnknownSign Sign :=
  let trimmed := String.ofList (Text.trim text.toList)
  match trimmed with
  | "<=" | "≤" => .ok .lessEqual
  | ">=" | "≥" => .ok .greaterEqual
  | "=" | "==" => .ok .equal
  | _ => .error ⟨trimmed⟩

@[simp] theorem flipped_flipped (s : Sign) : s.flipped.flipped = s := by
  cases s <;> rfl

end Sign

def UnknownSign.message (e : UnknownSign) : String :=
  "unknown constraint sign '" ++ e.text ++ "', expected one of <=, >=, ="

end LeastCost
