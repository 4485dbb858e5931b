import LeastCost.Proofs.Config.Groups
import Mathlib.Data.List.TakeWhile

/-! # Printed addresses

Every address is read back from the text that it is printed as, whichever run of zero groups is
left out, and whether or not the text ends in dotted form. The text has no blanks.
-/

namespace LeastCost.Config.SocketAddress

variable {rest : List Char} {groups : List UInt16}

section Groups

theorem groupOf_bytes (w : UInt16) : groupOf (w >>> 8).toUInt8 w.toUInt8 = w := by
  have hlt := w.toNat_lt
  rw [← UInt16.toNat_inj]
  simp only [groupOf, UInt16.toNat_add, UInt16.toNat_mul, UInt8.toNat_toUInt16,
    UInt16.toNat_toUInt8, UInt16.toNat_shiftRight, UInt16.reduceToNat, Nat.shiftRight_eq_div_pow,
    Nat.reduceMod, Nat.reducePow]
  omega

theorem eightGroups?_toList (groups : Vector UInt16 8) :
    eightGroups? groups.toList = some groups := by
  obtain ⟨groups, h⟩ := groups
  simp [eightGroups?, h]

theorem eightGroups?_eq_none (h : groups.length ≠ 8) : eightGroups? groups = none := by
  simp [eightGroups?, h]

theorem mapped?_eq_some {o : Octets} (h : mapped? groups = some o) :
    groups = [0, 0, 0, 0, 0, 0xffff, groupOf o.first o.second, groupOf o.third o.fourth] := by
  unfold mapped? at h
  split at h
  · obtain rfl := Option.some.inj h
    simp only [groupOf_bytes]
  · cases h

end Groups

section ZeroRun

theorem zeroRun_le (groups : List UInt16) :
    (zeroRun groups).2 ≤ ((groups.drop (zeroRun groups).1).takeWhile (· == 0)).length := by
  unfold zeroRun
  refine List.foldlRecOn (motive := fun best : Nat × Nat =>
    best.2 ≤ ((groups.drop best.1).takeWhile (· == 0)).length) _ _ (Nat.zero_le _) ?_
  intro best hbest start _
  dsimp only
  split
  · exact le_rfl
  · exact hbest

theorem take_append_replicate_append_drop (groups : List UInt16) :
    groups.take (zeroRun groups).1 ++ List.replicate (zeroRun groups).2 0 ++
      groups.drop ((zeroRun groups).1 + (zeroRun groups).2) = groups := by
  have hle := zeroRun_le groups
  generalize (zeroRun groups).1 = start at hle ⊢
  generalize (zeroRun groups).2 = length at hle ⊢
  have hrun : (groups.drop start).take length = List.replicate length 0 := by
    have hzeros := List.prefix_iff_eq_take.mp
      (List.takeWhile_prefix (· == 0) (l := groups.drop start))
    have htake : (groups.drop start).take length =
        ((groups.drop start).takeWhile (· == 0)).take length := by
      rw [hzeros, List.take_take, Nat.min_eq_left hle]
    rw [htake, List.eq_replicate_iff, List.length_take, Nat.min_eq_left hle]
    exact ⟨rfl, fun g hg => by simpa using List.mem_takeWhile_imp (List.mem_of_mem_take hg)⟩
  rw [← hrun, ← List.drop_drop, List.append_assoc, List.take_append_drop, List.take_append_drop]

end ZeroRun

section V6

theorem readGroups_dotted (o : Octets) (hrest : ∀ c ∈ rest.head?, digit? 10 c = none)
    (room : Nat) :
    readGroups (room + 2) true (dottedText o ++ rest) =
      ([groupOf o.first o.second, groupOf o.third o.fourth], true, rest) := by
  simp [readGroups, readDotted_dottedText o hrest]

/-- Groups, a gap and what follows it are read where together they leave room for the gap. -/
theorem readV6_gap (front : List UInt16) {back : List UInt16} {text : List Char} {isDotted : Bool}
    {groups : Vector UInt16 8} (hfront : front.length < 8)
    (hback : readGroups (7 - front.length) true text = (back, isDotted, rest))
    (hgroups : front ++ List.replicate (8 - front.length - back.length) 0 ++ back =
      groups.toList) :
    readV6 (groupsText front ++ ':' :: ':' :: text) = some (groups, rest) := by
  have hread : readGroups 8 true (groupsText front ++ ':' :: ':' :: text) =
      (front, false, ':' :: ':' :: text) :=
    (Ends.gap text).readGroups_groupsText hfront.le
  simp [readV6, hread, eightGroups?_eq_none hfront.ne, readChar, hback, hgroups,
    eightGroups?_toList, -List.append_assoc]

theorem readV6_v6Text (groups : Vector UInt16 8) (h : Ends rest) :
    readV6 (v6Text groups.toList ++ rest) = some (groups, rest) := by
  have hlength : groups.toList.length = 8 := groups.length_toList
  unfold v6Text
  split
  · next o hmapped =>
    have hback : readGroups 7 true ("ffff:".toList ++ dottedText o ++ rest) =
        ([0xffff, groupOf o.first o.second, groupOf o.third o.fourth], true, rest) := by
      have hcolon : Parts (':' :: (dottedText o ++ rest)) := Parts.cons (by decide) (by decide) _
      have hread := readGroups_toDigits 0xffff hcolon 6
      rw [readGroups_colon, readGroups_dotted o h.1.digit?_ten 4] at hread
      exact hread
    exact readV6_gap [] (by decide) hback (mapped?_eq_some hmapped).symm
  · have hwhole := take_append_replicate_append_drop groups.toList
    generalize zeroRun groups.toList = run at hwhole ⊢
    obtain ⟨start, length⟩ := run
    dsimp only at hwhole ⊢
    split
    · next hgap =>
      have hsum := congrArg List.length hwhole
      simp only [List.length_append, List.length_replicate, hlength] at hsum
      have hback : readGroups (7 - (groups.toList.take start).length) true
          (groupsText (groups.toList.drop (start + length)) ++ rest) =
            (groups.toList.drop (start + length), false, rest) :=
        h.readGroups_groupsText (by omega)
      rw [List.append_assoc, List.cons_append, List.cons_append]
      have hzeros : 8 - (groups.toList.take start).length -
          (groups.toList.drop (start + length)).length = length := by omega
      exact readV6_gap _ (by omega) hback (by rw [hzeros, hwhole])
    · simp [readV6, h.readGroups_groupsText hlength.le, eightGroups?_toList]

end V6

section Ends

theorem readScope_text (scope : UInt32) (rest : List Char) :
    readScope ((if scope = 0 then [] else '%' :: Nat.toDigits 10 scope.toNat) ++ ']' :: rest) =
      (scope, ']' :: rest) := by
  split
  · next hzero => simp [readScope, readChar, hzero]
  · have hbracket := digit?_of_mem_head? (show digit? 10 ']' = none by decide) rest
    simp [readScope, readChar, readBelow_toDigits scope.toNat_lt hbracket]

theorem readPort_text (port : UInt16) :
    readPort (':' :: Nat.toDigits 10 port.toNat) = some (port, []) := by
  have hread : readBelow 0x10000 (Nat.toDigits 10 port.toNat ++ []) = some (port.toNat, []) :=
    readBelow_toDigits port.toNat_lt (by simp)
  rw [List.append_nil] at hread
  simp [readPort, readChar, hread]

theorem ends_scope (scope : UInt32) (rest : List Char) :
    Ends ((if scope = 0 then [] else '%' :: Nat.toDigits 10 scope.toNat) ++ ']' :: rest) := by
  split
  · exact Ends.cons (by decide) (by decide) (by decide) rest
  · exact Ends.cons (by decide) (by decide) (by decide) _

end Ends

/-- What an address is printed as is read as that address. -/
theorem ofText?_text (a : SocketAddress) : ofText? a.text.toList = some a := by
  obtain ⟨host, port⟩ := a
  rw [text, String.toList_ofList]
  cases host with
  | v4 octets =>
    have hcolon := digit?_of_mem_head? (show digit? 10 ':' = none by decide)
      (Nat.toDigits 10 port.toNat)
    simp [ofText?, hostText, readV4Address, readDotted_dottedText octets hcolon, readPort_text]
  | v6 groups scope =>
    have hnone : readDotted ('[' :: (v6Text groups.toList ++
        ((if scope = 0 then [] else '%' :: Nat.toDigits 10 scope.toNat) ++
          ']' :: ':' :: Nat.toDigits 10 port.toNat))) = none :=
      (Parts.cons (by decide) (by decide) _).readDotted_eq
    have hgroups := readV6_v6Text groups (ends_scope scope (':' :: Nat.toDigits 10 port.toNat))
    simp only [hostText, List.cons_append, List.append_assoc, List.nil_append]
    simp only [ofText?, readV4Address, hnone, readV6Address, readChar, if_true, hgroups,
      readScope_text, readPort_text, Option.bind_eq_bind, Option.bind_none, Option.bind_some,
      Option.none_or, Option.pure_def]

section Blank

theorem isBlank_of_mem_toDigits {base n : Nat} (hbase : 1 < base) (hle : base ≤ 16) {c : Char}
    (h : c ∈ Nat.toDigits base n) : Text.isBlank c = false := by
  obtain ⟨digits, hspells⟩ := exists_spells hbase n
  rw [hspells.toDigits_eq, List.mem_map] at h
  obtain ⟨d, hd, rfl⟩ := h
  have hall : ∀ d < 16, Text.isBlank (Nat.digitChar d) = false := by decide
  exact hall d (Nat.lt_of_lt_of_le (hspells.lt_base d hd) hle)

theorem isBlank_of_mem_dottedText {o : Octets} {c : Char} (h : c ∈ dottedText o) :
    Text.isBlank c = false := by
  have hdigits : ∀ n, c ∈ Nat.toDigits 10 n → Text.isBlank c = false := fun n =>
    isBlank_of_mem_toDigits (by decide) (by decide)
  have hpoint : Text.isBlank '.' = false := by decide
  simp only [dottedText_eq, List.mem_append, List.mem_cons] at h
  rcases h with h | rfl | h | rfl | h | rfl | h <;> first | exact hpoint | exact hdigits _ h

theorem isBlank_of_mem_groupsText {c : Char} (h : c ∈ groupsText groups) :
    Text.isBlank c = false := by
  have hdigits : ∀ g : UInt16, c ∈ Nat.toDigits 16 g.toNat → Text.isBlank c = false := fun g =>
    isBlank_of_mem_toDigits (by decide) (by decide)
  cases groups with
  | nil => cases h
  | cons g groups =>
    rw [groupsText_cons, List.mem_append] at h
    rcases h with h | h
    · exact hdigits g h
    · obtain ⟨g, -, hg⟩ := List.mem_flatMap.mp h
      rcases List.mem_cons.mp hg with rfl | hg
      · decide
      · exact hdigits g hg

theorem isBlank_of_mem_v6Text {c : Char} (h : c ∈ v6Text groups) : Text.isBlank c = false := by
  have hcolon : Text.isBlank ':' = false := by decide
  unfold v6Text at h
  split at h
  · rcases List.mem_append.mp h with h | h
    · have hall : ("::ffff:".toList.all fun c => !Text.isBlank c) = true := by decide
      exact Text.forall_of_all hall c h
    · exact isBlank_of_mem_dottedText h
  · dsimp only at h
    split at h
    · simp only [List.mem_append, List.mem_cons] at h
      rcases h with h | rfl | rfl | h
      · exact isBlank_of_mem_groupsText h
      · exact hcolon
      · exact hcolon
      · exact isBlank_of_mem_groupsText h
    · exact isBlank_of_mem_groupsText h

theorem isBlank_of_mem_hostText {host : Host} {c : Char} (h : c ∈ hostText host) :
    Text.isBlank c = false := by
  cases host with
  | v4 octets => exact isBlank_of_mem_dottedText h
  | v6 groups scope =>
    simp only [hostText, List.mem_cons, List.mem_append, List.not_mem_nil, or_false] at h
    rcases h with rfl | (h | h) | rfl
    · decide
    · exact isBlank_of_mem_v6Text h
    · split at h
      · cases h
      · rcases List.mem_cons.mp h with rfl | h
        · decide
        · exact isBlank_of_mem_toDigits (by decide) (by decide) h
    · decide

theorem isBlank_of_mem_text (a : SocketAddress) {c : Char} (h : c ∈ a.text.toList) :
    Text.isBlank c = false := by
  rw [text, String.toList_ofList] at h
  rcases List.mem_append.mp h with h | h
  · exact isBlank_of_mem_hostText h
  · rcases List.mem_cons.mp h with rfl | h
    · decide
    · exact isBlank_of_mem_toDigits (by decide) (by decide) h

end Blank

end LeastCost.Config.SocketAddress
