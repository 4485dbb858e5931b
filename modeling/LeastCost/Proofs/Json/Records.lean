import LeastCost.Json.Schema
import LeastCost.Proofs.Json.Strings

/-!
# Records come back

A record is written as an object with its fields in order. Reading them back fills one slot after
the other, so a record comes back as far as each of its fields does.
-/

namespace LeastCost.Json.Schema

variable {s t : Schema}

def keys : Schema → List String
  | done => []
  | field _ head rest => head.key :: keys rest

def echo : (s : Schema) → s.Value → Option s.Value
  | done, _ => some ()
  | field _ head rest, (value, values) => do
    return (← head.codec.echo value, ← echo rest values)

/-- What comes back of a field does not depend on the text that follows it. -/
def EchoesEach : Schema → Prop
  | done => True
  | field _ head rest => head.codec.Echoes head.codec.echo ∧ EchoesEach rest

def full : (s : Schema) → s.Value → s.Slots
  | done, _ => ()
  | field _ _ rest, (value, values) => (some value, full rest values)

theorem complete_full (s : Schema) (values : s.Value) :
    s.complete (s.full values) = .ok values := by
  induction s with
  | done => rfl
  | field β head rest ih =>
    obtain ⟨value, values⟩ := values
    simp only [full, complete, ih values]
    rfl

theorem length_writeMembers (s : Schema) (values : s.Value) :
    (s.writeMembers values).length = s.keys.length := by
  induction s with
  | done => rfl
  | field β head rest ih =>
    obtain ⟨value, values⟩ := values
    simp only [writeMembers, keys, List.length_cons, ih values]

theorem nextKey_separator (isFirst : Bool) (key : String) (rest : List Char) :
    nextKey isFirst (separator isFirst ++ (writeString key ++ rest)) = .ok (some key, rest) := by
  have hkey := readKey_writeString key rest
  rw [writeString_append] at hkey ⊢
  cases isFirst with
  | true =>
    change (readKey ('"' :: _) >>= fun found => pure (some found.1, found.2)) = _
    rw [hkey]
    rfl
  | false =>
    change (readKey ('"' :: _) >>= fun found => pure (some found.1, found.2)) = _
    rw [hkey]
    rfl

theorem readMembers_field {key : String} {fuel : Nat} {isFirst : Bool} {slots : s.Slots}
    {text behind : List Char} (hkey : nextKey isFirst text = .ok (some key, ':' :: behind))
    (hmet : s.isMet? slots key = some false) :
    s.readMembers (fuel + 1) isFirst slots text =
      s.readSlot slots key behind >>= fun found => s.readMembers fuel false found.1 found.2 := by
  have hmark : mark ':' (':' :: behind) = .ok behind := mark_cons (by decide)
  rw [readMembers, hkey]
  simp only [bind, Except.bind, hmet, hmark]

/-- The last fields `t` of a record `s`, with all fields in front of them met. -/
structure Window (s t : Schema) where
  put : t.Slots → s.Slots
  isMet?_put : ∀ slots, ∀ key ∈ t.keys, s.isMet? (put slots) key = t.isMet? slots key
  readSlot_put : ∀ slots text, ∀ key ∈ t.keys, s.readSlot (put slots) key text = do
    let (slots, text) ← t.readSlot slots key text
    return (put slots, text)

namespace Window

def whole (s : Schema) : Window s s where
  put := id
  isMet?_put _ _ _ := rfl
  readSlot_put slots text key _ := by
    change s.readSlot slots key text = _
    cases s.readSlot slots key text <;> rfl

def tail {β : Type} {head : Field β} {rest : Schema} (w : Window s (.field β head rest))
    (hkey : head.key ∉ rest.keys) (value : β) : Window s rest where
  put slots := w.put (some value, slots)
  isMet?_put slots key hmem := by
    rw [w.isMet?_put _ _ (List.mem_cons_of_mem _ hmem), isMet?, if_neg]
    rintro rfl
    exact hkey hmem
  readSlot_put slots text key hmem := by
    rw [w.readSlot_put _ _ _ (List.mem_cons_of_mem _ hmem), readSlot, if_neg]
    · cases rest.readSlot slots key text <;> rfl
    · rintro rfl
      exact hkey hmem

theorem readMembers (w : Window s t) (hkeys : t.keys.Nodup) (heach : t.EchoesEach)
    (values : t.Value) (rest : List Char) : ∀ fuel isFirst, t.keys.length < fuel →
      (s.readMembers fuel isFirst (w.put t.vacant)
        (separated isFirst (t.writeMembers values) ++ '\x7d' :: rest)).toOption =
          (t.echo values).map fun back => (w.put (t.full back), rest) := by
  -- On the fields still to be met. The record stays `s`, and the window moves behind each field.
  induction t with
  | done =>
    intro fuel isFirst hfuel
    obtain ⟨fuel, rfl⟩ := Nat.exists_eq_succ_of_ne_zero (Nat.ne_zero_of_lt hfuel)
    rfl
  | field β head t ih =>
    intro fuel isFirst hfuel
    obtain ⟨fuel, rfl⟩ := Nat.exists_eq_succ_of_ne_zero (Nat.ne_zero_of_lt hfuel)
    obtain ⟨value, values⟩ := values
    obtain ⟨hhead, hkeys⟩ := List.nodup_cons.mp hkeys
    obtain ⟨hecho, heach⟩ := heach
    let following := separated false (t.writeMembers values) ++ '\x7d' :: rest
    have hdelimits : Delimits following :=
      delimits_separated _ (.cons (by decide) (by decide) (by decide) (by decide))
    have htext : separated isFirst (writeMembers (.field β head t) (value, values)) ++
        '\x7d' :: rest = separator isFirst ++ (writeString head.key ++
          ':' :: (head.codec.write value ++ following)) := by
      simp [writeMembers, separated, following]
    have hmet : s.isMet? (w.put (vacant (.field β head t))) head.key = some false := by
      rw [w.isMet?_put _ _ List.mem_cons_self, vacant, isMet?, if_pos rfl]
      rfl
    have hslot : s.readSlot (w.put (vacant (.field β head t))) head.key
        (head.codec.write value ++ following) =
          head.codec.read (head.codec.write value ++ following) >>= fun found =>
            pure (w.put (some found.1, t.vacant), found.2) := by
      rw [w.readSlot_put _ _ _ List.mem_cons_self, vacant, readSlot, if_pos rfl]
      cases head.codec.read (head.codec.write value ++ following) <;> rfl
    rw [htext, readMembers_field (nextKey_separator _ _ _) hmet, hslot, toOption_bind,
      toOption_bind, hecho.reads value following hdelimits, echo]
    cases head.codec.echo value with
    | none => rfl
    | some back =>
      have hrest : (s.readMembers fuel false (w.put (some back, t.vacant)) following).toOption =
          (t.echo values).map fun others => (w.put (some back, t.full others), rest) :=
        ih (w.tail hhead back) hkeys heach values fuel false (Nat.lt_of_succ_lt_succ hfuel)
      change (s.readMembers fuel false (w.put (some back, t.vacant)) following).toOption = _
      rw [hrest]
      cases t.echo values <;> rfl

end Window

theorem echoes_codec (hkeys : s.keys.Nodup) (heach : s.EchoesEach) : s.codec.Echoes s.echo where
  begins _ := ⟨_, _, rfl, rfl, by decide⟩
  reads values rest _ := by
    have htext := commaSeparated_append (s.writeMembers values) '\x7d' rest
    let text := separated true (s.writeMembers values) ++ '\x7d' :: rest
    have hfuel : s.keys.length < text.length + 1 := by
      have hlength := length_le_length_separated (s.writeMembers values)
      rw [length_writeMembers] at hlength
      simp only [text, List.length_append, List.length_cons]
      omega
    have hread : (s.readMembers (text.length + 1) true s.vacant text).toOption =
        (s.echo values).map fun back => (s.full back, rest) :=
      (Window.whole s).readMembers hkeys heach values rest _ true hfuel
    have hwhole : s.codec.read (s.codec.write values ++ rest) =
        s.readMembers (text.length + 1) true s.vacant text >>= fun found =>
          s.complete found.1 >>= fun back => pure (back, found.2) := by
      simp only [text, ← htext]
      rfl
    rw [hwhole, toOption_bind, hread]
    cases s.echo values with
    | none => rfl
    | some back =>
      change (s.complete (s.full back) >>= fun back => pure (back, rest)).toOption = _
      rw [complete_full]
      rfl

end LeastCost.Json.Schema
