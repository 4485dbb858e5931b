import LeastCost.Failure
import LeastCost.Text.Blank

/-!
# Endpoints

The kinds of problems a service answers for, by name or by route.
-/

namespace LeastCost.Service

inductive Endpoint where
  | simplex
  | assignment
  | transportation
  deriving DecidableEq, Repr

namespace Endpoint

def all : List Endpoint := [.simplex, .assignment, .transportation]

def name : Endpoint → String
  | .simplex => "simplex"
  | .assignment => "assignment"
  | .transportation => "transportation"

/-- The text behind the route that it starts with, however often the route is repeated. -/
def dropRoute : List Char → List Char
  | '/' :: 's' :: 'o' :: 'l' :: 'v' :: 'e' :: '/' :: rest => dropRoute rest
  | text => text

/-- A name without blanks, routes, and slashes around it. -/
def bareName (text : List Char) : List Char :=
  Text.trimBoth (· == '/') (dropRoute (Text.trim text))

/-- The endpoint that a name or a route stands for. A failure repeats the text as given. -/
def ofText (text : String) : Except Failure Endpoint :=
  match all.find? fun e => e.name.toList == bareName text.toList with
  | some e => .ok e
  | none => .error (.unknownEndpoint text)

end Endpoint

end LeastCost.Service
