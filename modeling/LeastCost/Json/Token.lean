import LeastCost.Json.Fault

/-!
# Tokens of JSON

Blanks, words, and punctuation. A text that ends inside a token is truncated; any other
character that does not belong is a fault of its own.
-/

namespace LeastCost.Json

def isBlank (c : Char) : Bool := c == ' ' || c == '\t' || c == '\n' || c == '\r'

def skipBlanks (text : List Char) : List Char := text.dropWhile isBlank

def word : List Char → List Char → Except Fault (List Char)
  | [], text => .ok text
  | _ :: _, [] => .error .truncated
  | expected :: word', c :: text => if c = expected then word word' text else .error .malformed

def mark (expected : Char) (text : List Char) : Except Fault (List Char) :=
  word [expected] (skipBlanks text)

/-- Looks for an element of an array, or its end. Comes back at the element, or at the closing
bracket. -/
def nextElement (isFirst : Bool) (text : List Char) : Except Fault (Bool × List Char) :=
  match skipBlanks text with
  | [] => .error .truncated
  | ']' :: rest => .ok (false, ']' :: rest)
  | c :: rest =>
    if isFirst then .ok (true, c :: rest)
    else if c = ',' then
      match skipBlanks rest with
      | [] => .error .truncated
      | ']' :: _ => .error .malformed
      | element => .ok (true, element)
    else .error .malformed

end LeastCost.Json
