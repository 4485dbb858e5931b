import LeastCost.Decimal.Style
import LeastCost.Json.Numeral
import LeastCost.Json.Text
import LeastCost.Problem.Sign

/-!
# Codecs

A codec reads and writes the values of one type. A value of another kind is a mismatch, but
only if it is itself well formed as far as one has to look.
-/

namespace LeastCost.Json

/-- The layout of numbers: a point in every number written positionally, and an exponent from
`1e+16` on and below `1e-5`. -/
def numberStyle : Decimal.Style := ⟨.even, fun place => -5 < place && place ≤ 16, true⟩

/-- A way to read and write values. Reading starts at the blanks in front of a value and comes
back with the text behind it. -/
structure Codec (β : Type) where
  read : List Char → Except Fault (β × List Char)
  write : β → List Char

def faultOf {β : Type} : Except Fault β → Fault
  | .error fault => fault
  | .ok _ => .mismatch

/-- The fault of a value of the wrong kind. -/
def misfit : List Char → Fault
  | [] => .truncated
  | 'n' :: rest => faultOf (word ['u', 'l', 'l'] rest)
  | 't' :: rest => faultOf (word ['r', 'u', 'e'] rest)
  | 'f' :: rest => faultOf (word ['a', 'l', 's', 'e'] rest)
  | '"' :: rest => faultOf (readString rest)
  | '[' :: _ | '\x7b' :: _ => .mismatch
  | text =>
    if Numeral.startsWith text then
      faultOf do
        let (n, _) ← Numeral.read text
        n.toFloat
    else .malformed

def commaSeparated (items : List (List Char)) : List Char :=
  [','].intercalate items

namespace Codec

variable {β γ : Type}

/-- Reads a whole text. Nothing but blanks may follow the value. -/
def decode (c : Codec β) (text : String) : Except Fault β := do
  let (value, rest) ← c.read text.toList
  if skipBlanks rest = [] then return value else throw .malformed

def encode (c : Codec β) (value : β) : String := String.ofList (c.write value)

def recode (c : Codec β) (text : String) : Except Fault String := (c.decode text).map c.encode

/-- The codec of a type with the same values. -/
def through (c : Codec β) (make : β → γ) (parts : γ → β) : Codec γ :=
  { read := fun text => do
      let (value, rest) ← c.read text
      return (make value, rest)
    write := fun value => c.write (parts value) }

def readNumeral (text : List Char) : Except Fault (Numeral × Float × List Char) := do
  let text := skipBlanks text
  if Numeral.startsWith text then
    let (n, rest) ← Numeral.read text
    return (n, ← n.toFloat, rest)
  else throw (misfit text)

/-- Numbers. What is not finite is written as null, which is no number when read. -/
def number : Codec Float :=
  { read := fun text => do
      let (_, x, rest) ← readNumeral text
      return (x, rest)
    write := fun x => if x.isFinite then numberStyle.write x else ['n', 'u', 'l', 'l'] }

def index : Codec UInt64 :=
  { read := fun text => do
      let (n, _, rest) ← readNumeral text
      match n.toWord? with
      | some value => return (value, rest)
      | none => throw .mismatch
    write := fun value => Nat.toDigits 10 value.toNat }

def flag : Codec Bool :=
  { read := fun text =>
      match skipBlanks text with
      | 't' :: rest => do return (true, ← word ['r', 'u', 'e'] rest)
      | 'f' :: rest => do return (false, ← word ['a', 'l', 's', 'e'] rest)
      | other => .error (misfit other)
    write := fun value => if value then ['t', 'r', 'u', 'e'] else ['f', 'a', 'l', 's', 'e'] }

def string : Codec String :=
  { read := fun text =>
      match skipBlanks text with
      | '"' :: rest => readString rest
      | other => .error (misfit other)
    write := writeString }

def optional (c : Codec β) : Codec (Option β) :=
  { read := fun text =>
      match skipBlanks text with
      | 'n' :: rest => do return (none, ← word ['u', 'l', 'l'] rest)
      | other => do
        let (value, rest) ← c.read other
        return (some value, rest)
    write := fun
      | none => ['n', 'u', 'l', 'l']
      | some value => c.write value }

/-- Reads the elements of an array up to its closing bracket. Each takes at least one
character of the text. -/
def readElements (c : Codec β) : Nat → Bool → List Char → Except Fault (List β × List Char)
  | 0, _, _ => .error .truncated
  | fuel + 1, isFirst, text => do
    let (isElement, text) ← nextElement isFirst text
    if isElement then
      let (value, text) ← c.read text
      let (values, text) ← readElements c fuel false text
      return (value :: values, text)
    else return ([], text)

def list (c : Codec β) : Codec (List β) :=
  { read := fun text =>
      match skipBlanks text with
      | '[' :: rest => do
        let (values, rest) ← readElements c (rest.length + 1) true rest
        return (values, ← mark ']' rest)
      | other => .error (misfit other)
    write := fun values => '[' :: (commaSeparated (values.map c.write) ++ [']']) }

def readElement (c : Codec β) (isFirst : Bool) (text : List Char) :
    Except Fault (β × List Char) := do
  let (isElement, text) ← nextElement isFirst text
  if isElement then c.read text else throw .mismatch

def pair (c : Codec β) : Codec (β × β) :=
  { read := fun text =>
      match skipBlanks text with
      | '[' :: rest => do
        let (first, rest) ← readElement c true rest
        let (second, rest) ← readElement c false rest
        return ((first, second), ← mark ']' rest)
      | other => .error (misfit other)
    write := fun (first, second) =>
      '[' :: (commaSeparated [c.write first, c.write second] ++ [']']) }

def signOf (text : String) : Except Fault Sign :=
  match Sign.ofSymbol? text with
  | some sign => .ok sign
  | none => .error .mismatch

def readNull (text : List Char) : Except Fault (List Char) :=
  match skipBlanks text with
  | 'n' :: rest => word ['u', 'l', 'l'] rest
  | other => .error (misfit other)

/-- Constraint signs: the symbol as a string, or an object with the symbol as its one key and
null as its value. A key that is no string is malformed, as it is in a record. -/
def sign : Codec Sign :=
  { read := fun text =>
      match skipBlanks text with
      | [] => .error .truncated
      | '"' :: rest => do
        let (symbol, rest) ← readString rest
        return (← signOf symbol, rest)
      | '\x7b' :: rest => do
        let (symbol, rest) ← readKey rest
        let value ← signOf symbol
        let rest ← readNull (← mark ':' rest)
        return (value, ← mark '\x7d' rest)
      | _ => .error .malformed
    write := fun value => writeString value.symbol }

end Codec

end LeastCost.Json
