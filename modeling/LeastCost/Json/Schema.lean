import LeastCost.Json.Codec
import LeastCost.Json.Skip

/-!
# Schemas

A schema lists the fields of a record. A record is written as an object with the fields in
order. It is read from an object with its members in any order, members with unknown keys
skipped, or from an array of the fields in order.
-/

namespace LeastCost.Json

/-- One field of a record, and its value where an object has no member for it or an array is
too short for it. -/
structure Field (β : Type) where
  key : String
  codec : Codec β
  whenAbsent : Option β := none
  whenShort : Option β := none

namespace Field

variable {β : Type}

def required (key : String) (codec : Codec β) : Field β := { key, codec }

def withDefault (key : String) (codec : Codec β) (value : β) : Field β :=
  { key, codec, whenAbsent := some value, whenShort := some value }

def optional (key : String) (codec : Codec β) : Field (Option β) :=
  { key, codec := codec.optional, whenAbsent := some none }

end Field

inductive Schema : Type 1 where
  | done
  | field (β : Type) (head : Field β) (rest : Schema)

namespace Schema

@[reducible] def Value : Schema → Type
  | done => Unit
  | field β _ rest => β × Value rest

/-- The values of the fields met so far. -/
@[reducible] def Slots : Schema → Type
  | done => Unit
  | field β _ rest => Option β × Slots rest

def vacant : (s : Schema) → s.Slots
  | done => ()
  | field _ _ rest => (none, vacant rest)

/-- Whether the field with this key has been met, if there is one. -/
def isMet? : (s : Schema) → s.Slots → String → Option Bool
  | done, _, _ => none
  | field _ head rest, (slot, slots), key =>
    if head.key = key then some slot.isSome else isMet? rest slots key

def readSlot : (s : Schema) → s.Slots → String → List Char → Except Fault (s.Slots × List Char)
  | done, slots, _, text => .ok (slots, text)
  | field _ head rest, (slot, slots), key, text =>
    if head.key = key then do
      let (value, text) ← head.codec.read text
      return ((some value, slots), text)
    else do
      let (slots, text) ← readSlot rest slots key text
      return ((slot, slots), text)

/-- The record of the fields met, with the others as they are when absent. -/
def complete : (s : Schema) → s.Slots → Except Fault s.Value
  | done, _ => .ok ()
  | field _ head rest, (slot, slots) =>
    match slot.or head.whenAbsent with
    | some value => do return (value, ← complete rest slots)
    | none => .error .mismatch

/-- Looks for a member of an object, or its end. Comes back behind the key, or behind the
closing brace. -/
def nextKey (isFirst : Bool) (text : List Char) : Except Fault (Option String × List Char) :=
  match skipBlanks text with
  | [] => .error .truncated
  | '\x7d' :: rest => .ok (none, rest)
  | c :: rest => do
    let (key, rest) ← if isFirst then readKey (c :: rest)
      else if c = ',' then readKey rest
      else throw .malformed
    return (some key, rest)

/-- Reads the members of an object. Each takes at least one character of the text. -/
def readMembers (s : Schema) :
    Nat → Bool → s.Slots → List Char → Except Fault (s.Slots × List Char)
  | 0, _, _, _ => .error .truncated
  | fuel + 1, isFirst, slots, text => do
    match ← nextKey isFirst text with
    | (none, text) => return (slots, text)
    | (some key, text) =>
      match s.isMet? slots key with
      | some true => throw .mismatch
      | some false =>
        let (slots, text) ← s.readSlot slots key (← mark ':' text)
        readMembers s fuel false slots text
      | none =>
        let text ← skipValue (← mark ':' text)
        readMembers s fuel false slots text

def readElements : (s : Schema) → Bool → List Char → Except Fault (s.Value × List Char)
  | done, _, text => .ok ((), text)
  | field _ head rest, isFirst, text => do
    let (isElement, text) ← nextElement isFirst text
    if isElement then
      let (value, text) ← head.codec.read text
      let (values, text) ← readElements rest false text
      return ((value, values), text)
    else
      match head.whenShort with
      | some value =>
        let (values, text) ← readElements rest isFirst text
        return ((value, values), text)
      | none => throw .mismatch

def writeMembers : (s : Schema) → s.Value → List (List Char)
  | done, _ => []
  | field _ head rest, (value, values) =>
    (writeString head.key ++ ':' :: head.codec.write value) :: writeMembers rest values

/-- The codec of a record. -/
def codec (s : Schema) : Codec s.Value :=
  { read := fun text =>
      match skipBlanks text with
      | '\x7b' :: rest => do
        let (slots, rest) ← s.readMembers (rest.length + 1) true s.vacant rest
        return (← s.complete slots, rest)
      | '[' :: rest => do
        let (values, rest) ← s.readElements true rest
        return (values, ← mark ']' rest)
      | other => .error (misfit other)
    write := fun values => '\x7b' :: (commaSeparated (s.writeMembers values) ++ ['\x7d']) }

end Schema

end LeastCost.Json
