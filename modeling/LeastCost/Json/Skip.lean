import LeastCost.Json.Numeral
import LeastCost.Json.Text

/-!
# Skipping values

A value nobody asked for is passed over, however deep it is nested. What is still owed of the
enclosing values is kept in a list.
-/

namespace LeastCost.Json

/-- What is owed of a value: all of it, or the rest of an array or of an object behind one of
its items. -/
inductive Owed where
  | value
  | elements
  | members

def skipKey (text : List Char) : Except Fault (List Char) := do
  mark ':' (← skipString (← mark '"' text))

/-- Passes over all that is owed. Each step takes at least one character of the text. -/
def skipOwed : Nat → List Owed → List Char → Except Fault (List Char)
  | _, [], text => .ok text
  | 0, _ :: _, _ => .error .truncated
  | fuel + 1, .value :: owed, text =>
    match skipBlanks text with
    | [] => .error .truncated
    | 'n' :: rest => do skipOwed fuel owed (← word ['u', 'l', 'l'] rest)
    | 't' :: rest => do skipOwed fuel owed (← word ['r', 'u', 'e'] rest)
    | 'f' :: rest => do skipOwed fuel owed (← word ['a', 'l', 's', 'e'] rest)
    | '"' :: rest => do skipOwed fuel owed (← skipString rest)
    | '[' :: rest =>
      match skipBlanks rest with
      | ']' :: rest => skipOwed fuel owed rest
      | rest => skipOwed fuel (.value :: .elements :: owed) rest
    | '\x7b' :: rest =>
      match skipBlanks rest with
      | '\x7d' :: rest => skipOwed fuel owed rest
      | rest => do skipOwed fuel (.value :: .members :: owed) (← skipKey rest)
    | c :: rest =>
      if Numeral.startsWith (c :: rest) then do skipOwed fuel owed (← Numeral.skip (c :: rest))
      else .error .malformed
  | fuel + 1, .elements :: owed, text =>
    match skipBlanks text with
    | [] => .error .truncated
    | ',' :: rest => skipOwed fuel (.value :: .elements :: owed) rest
    | ']' :: rest => skipOwed fuel owed rest
    | _ => .error .malformed
  | fuel + 1, .members :: owed, text =>
    match skipBlanks text with
    | [] => .error .truncated
    | ',' :: rest => do skipOwed fuel (.value :: .members :: owed) (← skipKey rest)
    | '\x7d' :: rest => skipOwed fuel owed rest
    | _ => .error .malformed

def skipValue (text : List Char) : Except Fault (List Char) :=
  skipOwed (text.length + 1) [.value] text

end LeastCost.Json
