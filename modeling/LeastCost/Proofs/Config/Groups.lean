import LeastCost.Proofs.Config.Numbers
import LeastCost.Proofs.Text.Trimming
import Mathlib.Tactic.SplitIfs

/-! # Groups inside addresses

Four octets with points between them, and groups with colons between them, are read back where
nothing follows that could go on with them. The digits of a group alone are no dotted address.
-/

namespace LeastCost.Config.SocketAddress

variable {text rest : List Char} {c : Char} {n room : Nat} {isFirst : Bool}
  {groups : List UInt16}

section Dotted

theorem digit?_ten_of_sixteen (h : digit? 16 c = none) : digit? 10 c = none := by
  simp only [digit?] at h ⊢
  split_ifs at h ⊢ <;> first | rfl | omega

theorem dottedText_eq (o : Octets) : dottedText o =
    Nat.toDigits 10 o.first.toNat ++ '.' :: (Nat.toDigits 10 o.second.toNat ++
      '.' :: (Nat.toDigits 10 o.third.toNat ++ '.' :: Nat.toDigits 10 o.fourth.toNat)) := by
  simp [dottedText, List.intercalate_cons_cons]

theorem readDotted_dottedText (o : Octets) (hrest : ∀ c ∈ rest.head?, digit? 10 c = none) :
    readDotted (dottedText o ++ rest) = some (o, rest) := by
  have hpoint := digit?_of_mem_head? (show digit? 10 '.' = none by decide)
  simp [dottedText_eq, readDotted, readOctet_toDigits _ (hpoint _), readOctet_toDigits _ hrest,
    readChar]

theorem readDotted_eq_none
    (h : ∀ c ∈ (text.dropWhile fun c => (digit? 10 c).isSome).head?, c ≠ '.') :
    readDotted text = none := by
  have hchar : readChar '.' (text.dropWhile fun c => (digit? 10 c).isSome) = none := by
    cases htail : text.dropWhile fun c => (digit? 10 c).isSome with
    | nil => rfl
    | cons c tail =>
      rw [htail] at h
      simp [readChar, h c rfl]
  have hoctet : ∀ o tail, readOctet text = some (o, tail) →
      tail = text.dropWhile fun c => (digit? 10 c).isSome := by
    intro o tail ho
    unfold readOctet readDigits at ho
    dsimp only at ho
    split at ho
    · cases ho
    · exact (Prod.mk.inj (Option.some.inj ho)).2.symm
  cases ho : readOctet text with
  | none => simp [readDotted, ho]
  | some p =>
    obtain ⟨o, tail⟩ := p
    rw [← hoctet o tail ho] at hchar
    simp [readDotted, ho, hchar]

end Dotted

section Groups

/-- A text that goes on with neither a digit nor a point. -/
def Parts (rest : List Char) : Prop := ∀ c ∈ rest.head?, digit? 16 c = none ∧ c ≠ '.'

theorem Parts.cons (h : digit? 16 c = none) (hc : c ≠ '.') (rest : List Char) :
    Parts (c :: rest) := by
  rintro d ⟨⟩
  exact ⟨h, hc⟩

theorem Parts.digit?_ten (h : Parts rest) : ∀ c ∈ rest.head?, digit? 10 c = none :=
  fun c hc => digit?_ten_of_sixteen (h c hc).1

theorem Parts.readDotted_eq (h : Parts rest) : readDotted rest = none := by
  refine readDotted_eq_none ?_
  rw [Text.dropWhile_eq_self_of_head fun c hc => by rw [h.digit?_ten c hc]; rfl]
  exact fun c hc => (h c hc).2

theorem Parts.readGroup_eq (h : Parts rest) : readGroup rest = none := by
  have hnil : rest.takeWhile (fun c => (digit? 16 c).isSome) = [] := by
    cases rest with
    | nil => rfl
    | cons c rest => simp [(h c rfl).1]
  simp [readGroup, readDigits, hnil]

/-- The digits of a group are not those of an octet with a point behind it. -/
theorem Parts.readDotted_toDigits (h : Parts rest) (n : Nat) :
    readDotted (Nat.toDigits 16 n ++ rest) = none := by
  obtain ⟨digits, hspells⟩ := exists_spells (by decide : 1 < 16) n
  refine readDotted_eq_none fun c hc => ?_
  rw [List.dropWhile_append] at hc
  split at hc
  · rw [Text.dropWhile_eq_self_of_head fun c hc => by rw [h.digit?_ten c hc]; rfl] at hc
    exact (h c hc).2
  · next hne =>
    rw [List.head?_append_of_ne_nil _ (by simpa using hne)] at hc
    have hmem := (List.dropWhile_sublist _).subset (List.mem_of_mem_head? hc)
    rw [hspells.toDigits_eq, List.mem_map] at hmem
    obtain ⟨d, hd, rfl⟩ := hmem
    have hall : ∀ d < 16, Nat.digitChar d ≠ '.' := by decide
    exact hall d (hspells.lt_base d hd)

/-- A text with which no list of groups goes on. -/
def Ends (rest : List Char) : Prop :=
  Parts rest ∧ ∀ tail, readChar ':' rest = some tail → Parts tail

theorem Ends.gap (rest : List Char) : Ends (':' :: ':' :: rest) := by
  refine ⟨Parts.cons (by decide) (by decide) _, ?_⟩
  rintro tail ⟨⟩
  exact Parts.cons (by decide) (by decide) _

theorem Ends.cons (h : digit? 16 c = none) (hc : c ≠ '.') (hcolon : c ≠ ':') (rest : List Char) :
    Ends (c :: rest) := by
  refine ⟨Parts.cons h hc rest, fun tail htail => ?_⟩
  simp [readChar, hcolon] at htail

theorem Ends.readGroups_eq (h : Ends rest) (room : Nat) (isFirst : Bool) :
    readGroups room isFirst rest = ([], false, rest) := by
  have hstart : ∀ start, (if isFirst then some rest else readChar ':' rest) = some start →
      Parts start := by
    intro start hs
    split at hs
    · exact Option.some.inj hs ▸ h.1
    · exact h.2 start hs
  cases room with
  | zero => rfl
  | succ room =>
    rw [readGroups]
    split
    · rfl
    · next start hs =>
      rw [(hstart start hs).readDotted_eq, (hstart start hs).readGroup_eq, ite_self]

theorem readGroups_toDigits (g : UInt16) (h : Parts rest) (room : Nat) :
    readGroups (room + 1) true (Nat.toDigits 16 g.toNat ++ rest) =
      (g :: (readGroups room false rest).1, (readGroups room false rest).2) := by
  rw [readGroups]
  simp only [if_true, h.readDotted_toDigits, ite_self,
    readGroup_toDigits g fun c hc => (h c hc).1]

theorem readGroups_colon (room : Nat) (text : List Char) :
    readGroups room false (':' :: text) =
      if room = 0 then ([], false, ':' :: text)
      else if (readGroups room true text).1 = [] then ([], false, ':' :: text)
      else readGroups room true text := by
  cases room with
  | zero => rfl
  | succ room =>
    simp only [readGroups, readChar, if_true, Bool.false_eq_true, if_false,
      Nat.add_one_ne_zero]
    split
    · rfl
    · split
      · rfl
      · rfl

def groupsTail (groups : List UInt16) : List Char :=
  groups.flatMap fun g => ':' :: Nat.toDigits 16 g.toNat

theorem groupsText_cons (g : UInt16) (groups : List UInt16) :
    groupsText (g :: groups) = Nat.toDigits 16 g.toNat ++ groupsTail groups := by
  induction groups generalizing g with
  | nil => simp [groupsText, groupsTail]
  | cons next groups ih =>
    have hnext := ih next
    simp only [groupsText, List.map_cons, groupsTail, List.flatMap_cons] at hnext ⊢
    rw [List.intercalate_cons_cons, hnext]
    simp

theorem Ends.parts_groupsTail (h : Ends rest) (groups : List UInt16) :
    Parts (groupsTail groups ++ rest) := by
  cases groups with
  | nil => exact h.1
  | cons g groups => exact Parts.cons (by decide) (by decide) _

theorem Ends.readGroups_groupsTail (h : Ends rest) (hroom : groups.length ≤ room) :
    readGroups room false (groupsTail groups ++ rest) = (groups, false, rest) := by
  induction groups generalizing room with
  | nil => exact h.readGroups_eq room false
  | cons g groups ih =>
    obtain ⟨room, rfl⟩ : ∃ left, room = left + 1 :=
      Nat.exists_eq_add_one_of_ne_zero (by simp at hroom; omega)
    have hgroups := ih (Nat.le_of_succ_le_succ hroom)
    change readGroups (room + 1) false
      (':' :: (Nat.toDigits 16 g.toNat ++ groupsTail groups) ++ rest) = _
    rw [List.cons_append, List.append_assoc, readGroups_colon,
      readGroups_toDigits g (h.parts_groupsTail groups), hgroups]
    simp

theorem Ends.readGroups_groupsText (h : Ends rest) (hroom : groups.length ≤ room) :
    readGroups room true (groupsText groups ++ rest) = (groups, false, rest) := by
  cases groups with
  | nil => exact h.readGroups_eq room true
  | cons g groups =>
    obtain ⟨room, rfl⟩ : ∃ left, room = left + 1 :=
      Nat.exists_eq_add_one_of_ne_zero (by simp at hroom; omega)
    rw [groupsText_cons, List.append_assoc, readGroups_toDigits g (h.parts_groupsTail groups),
      h.readGroups_groupsTail (Nat.le_of_succ_le_succ hroom)]

end Groups

end LeastCost.Config.SocketAddress
