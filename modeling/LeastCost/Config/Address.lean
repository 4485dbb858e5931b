import LeastCost.Decimal.Reader

/-!
# Socket addresses

An Internet address of either family with a port. The text of an IPv6 address may leave out
one run of zero groups and may end in dotted form; it is printed with the longest run left
out, and in dotted form only where it maps an IPv4 address.
-/

namespace LeastCost.Config

structure Octets where
  first : UInt8
  second : UInt8
  third : UInt8
  fourth : UInt8
  deriving DecidableEq

/-- The address of a host. The scope of an IPv6 address is zero where none is given. -/
inductive Host where
  | v4 (octets : Octets)
  | v6 (groups : Vector UInt16 8) (scope : UInt32)
  deriving DecidableEq

structure SocketAddress where
  host : Host
  port : UInt16
  deriving DecidableEq

namespace SocketAddress

/-! ## Reading -/

def digit? (base : Nat) (c : Char) : Option Nat :=
  let value :=
    if '0' ≤ c ∧ c ≤ '9' then c.toNat - '0'.toNat
    else if 'a' ≤ c ∧ c ≤ 'f' then c.toNat - 'a'.toNat + 10
    else if 'A' ≤ c ∧ c ≤ 'F' then c.toNat - 'A'.toNat + 10
    else base
  if value < base then some value else none

/-- Reads as many digits as follow, and their value. -/
def readDigits (base : Nat) (text : List Char) : List Nat × List Char :=
  let isDigit := fun c => (digit? base c).isSome
  ((text.takeWhile isDigit).filterMap (digit? base), text.dropWhile isDigit)

def ofDigits (base : Nat) (digits : List Nat) : Nat :=
  digits.foldl (fun value d => base * value + d) 0

def readChar (expected : Char) : List Char → Option (List Char)
  | c :: rest => if c = expected then some rest else none
  | [] => none

/-- Reads an octet: up to three digits without a leading zero. -/
def readOctet (text : List Char) : Option (UInt8 × List Char) :=
  let (digits, rest) := readDigits 10 text
  let value := ofDigits 10 digits
  if digits = [] ∨ 3 < digits.length ∨ (digits.head? = some 0 ∧ digits ≠ [0]) ∨ 255 < value
  then none
  else some (value.toUInt8, rest)

def readDotted (text : List Char) : Option (Octets × List Char) := do
  let (a, rest) ← readOctet text
  let (b, rest) ← readOctet (← readChar '.' rest)
  let (c, rest) ← readOctet (← readChar '.' rest)
  let (d, rest) ← readOctet (← readChar '.' rest)
  return (⟨a, b, c, d⟩, rest)

def readGroup (text : List Char) : Option (UInt16 × List Char) :=
  let (digits, rest) := readDigits 16 text
  if digits = [] ∨ 4 < digits.length then none
  else some ((ofDigits 16 digits).toUInt16, rest)

def groupOf (high low : UInt8) : UInt16 := high.toUInt16 * 256 + low.toUInt16

/-- Reads groups with colons between them, at most so many, as far as they go. Where two more
groups fit a dotted address may end them; whether it did is part of the answer. -/
def readGroups : Nat → Bool → List Char → List UInt16 × Bool × List Char
  | 0, _, text => ([], false, text)
  | room + 1, isFirst, text =>
    match if isFirst then some text else readChar ':' text with
    | none => ([], false, text)
    | some start =>
      match if room = 0 then none else readDotted start with
      | some (octets, rest) =>
        ([groupOf octets.first octets.second, groupOf octets.third octets.fourth], true, rest)
      | none =>
        match readGroup start with
        | none => ([], false, text)
        | some (group, rest) =>
          let (groups, isDotted, rest) := readGroups room false rest
          (group :: groups, isDotted, rest)

def eightGroups? (groups : List UInt16) : Option (Vector UInt16 8) :=
  if h : groups.toArray.size = 8 then some ⟨groups.toArray, h⟩ else none

/-- Reads an IPv6 address: eight groups, or less with one gap that stands for at least one
zero group. No dotted address comes before a gap. -/
def readV6 (text : List Char) : Option (Vector UInt16 8 × List Char) := do
  let (front, isDotted, rest) := readGroups 8 true text
  match eightGroups? front with
  | some groups => return (groups, rest)
  | none =>
    if isDotted then none
    let rest ← readChar ':' (← readChar ':' rest)
    let (back, _, rest) := readGroups (7 - front.length) true rest
    let zeros := List.replicate (8 - front.length - back.length) 0
    return (← eightGroups? (front ++ zeros ++ back), rest)

def readBelow (bound : Nat) (text : List Char) : Option (Nat × List Char) :=
  let (digits, rest) := readDigits 10 text
  let value := ofDigits 10 digits
  if digits ≠ [] ∧ value < bound then some (value, rest) else none

def readPort (text : List Char) : Option (UInt16 × List Char) := do
  let (port, rest) ← readBelow 0x10000 (← readChar ':' text)
  return (port.toUInt16, rest)

/-- Reads a scope, if one follows. What is not a scope is left where it is. -/
def readScope (text : List Char) : UInt32 × List Char :=
  match readChar '%' text >>= readBelow 0x100000000 with
  | some (scope, rest) => (scope.toUInt32, rest)
  | none => (0, text)

def readV4Address (text : List Char) : Option (SocketAddress × List Char) := do
  let (octets, rest) ← readDotted text
  let (port, rest) ← readPort rest
  return (⟨.v4 octets, port⟩, rest)

def readV6Address (text : List Char) : Option (SocketAddress × List Char) := do
  let (groups, rest) ← readV6 (← readChar '[' text)
  let (scope, rest) := readScope rest
  let (port, rest) ← readPort (← readChar ']' rest)
  return (⟨.v6 groups scope, port⟩, rest)

def ofText? (text : List Char) : Option SocketAddress := do
  let (address, rest) ← (readV4Address text).or (readV6Address text)
  if rest = [] then some address else none

/-! ## Printing -/

def dottedText (octets : Octets) : List Char :=
  ['.'].intercalate ([octets.first, octets.second, octets.third, octets.fourth].map fun o =>
    Nat.toDigits 10 o.toNat)

def groupsText (groups : List UInt16) : List Char :=
  [':'].intercalate (groups.map fun g => Nat.toDigits 16 g.toNat)

/-- The start and the length of the first longest run of zero groups. -/
def zeroRun (groups : List UInt16) : Nat × Nat :=
  (List.range groups.length).foldl
    (fun best start =>
      let length := ((groups.drop start).takeWhile (· == 0)).length
      if best.2 < length then (start, length) else best)
    (0, 0)

def mapped? (groups : List UInt16) : Option Octets :=
  match groups with
  | [0, 0, 0, 0, 0, 0xffff, high, low] =>
    some ⟨(high >>> 8).toUInt8, high.toUInt8, (low >>> 8).toUInt8, low.toUInt8⟩
  | _ => none

/-- The text of an IPv6 address. A single zero group is not left out. -/
def v6Text (groups : List UInt16) : List Char :=
  match mapped? groups with
  | some octets => "::ffff:".toList ++ dottedText octets
  | none =>
    let (start, length) := zeroRun groups
    if 1 < length then
      groupsText (groups.take start) ++ ':' :: ':' :: groupsText (groups.drop (start + length))
    else groupsText groups

def hostText : Host → List Char
  | .v4 octets => dottedText octets
  | .v6 groups scope =>
    let scopeText := if scope = 0 then [] else '%' :: Nat.toDigits 10 scope.toNat
    '[' :: (v6Text groups.toList ++ scopeText ++ [']'])

def text (a : SocketAddress) : String :=
  String.ofList (hostText a.host ++ ':' :: Nat.toDigits 10 a.port.toNat)

def isV6 (a : SocketAddress) : Bool :=
  match a.host with
  | .v4 _ => false
  | .v6 _ _ => true

end SocketAddress

end LeastCost.Config
