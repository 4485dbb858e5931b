import LeastCost.Json.Token

/-!
# Strings of JSON

Writing escapes quotes, backslashes, and control characters. Reading takes every escape; a
character outside the basic plane may be given as a pair of surrogates.
-/

namespace LeastCost.Json

def hexDigit? (c : Char) : Option Nat :=
  if '0' ≤ c ∧ c ≤ '9' then some (c.toNat - '0'.toNat)
  else if 'a' ≤ c ∧ c ≤ 'f' then some (c.toNat - 'a'.toNat + 10)
  else if 'A' ≤ c ∧ c ≤ 'F' then some (c.toNat - 'A'.toNat + 10)
  else none

def byteCount (text : List Char) : Nat :=
  text.foldl (fun count c => count + c.utf8Size) 0

/-- Reads four hexadecimal digits. A text with less than four bytes left is truncated. -/
def hexQuad (text : List Char) : Except Fault (Nat × List Char) :=
  let digits := (text.take 4).filterMap hexDigit?
  if digits.length = 4 then .ok (digits.foldl (fun value d => 16 * value + d) 0, text.drop 4)
  else if byteCount text < 4 then .error .truncated
  else .error .malformed

def isLeading (unit : Nat) : Bool := 0xD800 ≤ unit && unit ≤ 0xDBFF

def isTrailing (unit : Nat) : Bool := 0xDC00 ≤ unit && unit ≤ 0xDFFF

/-- Reads the digits of a code unit escape, and the second half of a pair. A surrogate on its
own is no character. -/
def unicodeEscape (text : List Char) : Except Fault (Char × List Char) := do
  let (unit, rest) ← hexQuad text
  if isTrailing unit then throw .malformed
  if isLeading unit then
    let (second, rest) ← hexQuad (← word ['\\', 'u'] rest)
    if isTrailing second then
      return (Char.ofNat (0x10000 + 0x400 * (unit - 0xD800) + (second - 0xDC00)), rest)
    else throw .malformed
  return (Char.ofNat unit, rest)

def shortEscape? : Char → Option Char
  | '"' => some '"'
  | '\\' => some '\\'
  | '/' => some '/'
  | 'b' => some '\x08'
  | 'f' => some '\x0c'
  | 'n' => some '\n'
  | 'r' => some '\r'
  | 't' => some '\t'
  | _ => none

def escape : List Char → Except Fault (Char × List Char)
  | [] => .error .truncated
  | 'u' :: rest => unicodeEscape rest
  | c :: rest =>
    match shortEscape? c with
    | some meant => .ok (meant, rest)
    | none => .error .malformed

/-- Reads the characters up to the closing quote. Each takes at least one character of the
text. -/
def stringBody : Nat → List Char → Except Fault (List Char × List Char)
  | 0, _ | _ + 1, [] => .error .truncated
  | _ + 1, '"' :: rest => .ok ([], rest)
  | fuel + 1, '\\' :: rest => do
    let (c, rest) ← escape rest
    let (text, rest) ← stringBody fuel rest
    return (c :: text, rest)
  | fuel + 1, c :: rest =>
    if c.toNat < 0x20 then .error .malformed
    else do
      let (text, rest) ← stringBody fuel rest
      return (c :: text, rest)

def readString (text : List Char) : Except Fault (String × List Char) := do
  let (chars, rest) ← stringBody (text.length + 1) text
  return (String.ofList chars, rest)

/-- Reads the key of a member, from the blanks in front of its opening quote on. Anything but
a string is malformed here, a value of another kind too. -/
def readKey (text : List Char) : Except Fault (String × List Char) := do
  readString (← mark '"' text)

/-- Passes over what follows a backslash. Surrogates need not be paired. -/
def skipEscape : List Char → Except Fault (List Char)
  | [] => .error .truncated
  | 'u' :: rest => (hexQuad rest).map (·.2)
  | c :: rest => if (shortEscape? c).isSome then .ok rest else .error .malformed

def skipStringBody : Nat → List Char → Except Fault (List Char)
  | 0, _ | _ + 1, [] => .error .truncated
  | _ + 1, '"' :: rest => .ok rest
  | fuel + 1, '\\' :: rest => do skipStringBody fuel (← skipEscape rest)
  | fuel + 1, c :: rest =>
    if c.toNat < 0x20 then .error .malformed else skipStringBody fuel rest

def skipString (text : List Char) : Except Fault (List Char) :=
  skipStringBody (text.length + 1) text

def hexDigit (value : Nat) : Char := (Nat.toDigits 16 value).headD '0'

def writeChar (c : Char) : List Char :=
  match c with
  | '"' => ['\\', '"']
  | '\\' => ['\\', '\\']
  | '\x08' => ['\\', 'b']
  | '\x0c' => ['\\', 'f']
  | '\n' => ['\\', 'n']
  | '\r' => ['\\', 'r']
  | '\t' => ['\\', 't']
  | _ =>
    if c.toNat < 0x20 then
      ['\\', 'u', '0', '0', hexDigit (c.toNat / 16), hexDigit (c.toNat % 16)]
    else [c]

def writeString (text : String) : List Char := '"' :: (text.toList.flatMap writeChar ++ ['"'])

end LeastCost.Json
