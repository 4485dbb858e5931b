import LeastCost.Text.Blank
import Mathlib.Data.List.DropRight

/-! # Trimmed text

Trimming takes characters of a class off both ends, as many as there are. More of them around a
text make no difference, and a text without any comes back as it is.
-/

namespace LeastCost.Text

variable {drop : Char → Bool} {front core text back : List Char}

theorem exists_trimBoth (drop : Char → Bool) (text : List Char) :
    ∃ front back, (∀ c ∈ front, drop c = true) ∧ (∀ c ∈ back, drop c = true) ∧
      text = front ++ trimBoth drop text ++ back := by
  refine ⟨text.takeWhile drop, (text.dropWhile drop).rtakeWhile drop,
    fun c => List.mem_takeWhile_imp, fun c => List.mem_rtakeWhile_imp, ?_⟩
  calc text = text.takeWhile drop ++ text.dropWhile drop :=
        List.takeWhile_append_dropWhile.symm
    _ = text.takeWhile drop ++ ((text.dropWhile drop).rdropWhile drop ++
          (text.dropWhile drop).rtakeWhile drop) := by rw [List.rdropWhile_append_rtakeWhile]
    _ = text.takeWhile drop ++ trimBoth drop text ++ (text.dropWhile drop).rtakeWhile drop :=
        (List.append_assoc ..).symm

theorem trimBoth_append (hfront : ∀ c ∈ front, drop c = true) (hback : ∀ c ∈ back, drop c = true)
    (text : List Char) : trimBoth drop (front ++ text ++ back) = trimBoth drop text := by
  rw [trimBoth, trimBoth, List.append_assoc, List.dropWhile_append_of_pos hfront,
    List.dropWhile_append]
  split
  · next hempty =>
    rw [List.isEmpty_iff.mp hempty, List.dropWhile_eq_nil_iff.mpr hback]
  · rw [List.reverse_append, List.dropWhile_append_of_pos fun c hc =>
      hback c (List.mem_reverse.mp hc)]

theorem dropWhile_eq_self_of_head (h : ∀ c ∈ text.head?, drop c = false) :
    text.dropWhile drop = text := by
  cases text with
  | nil => rfl
  | cons c rest => rw [List.dropWhile_cons_of_neg (by simp [h c rfl])]

theorem forall_of_all (h : (core.all fun c => !drop c) = true) : ∀ c ∈ core, drop c = false := by
  simpa using h

theorem trimBoth_of_forall (h : ∀ c ∈ core, drop c = false) : trimBoth drop core = core := by
  have hmem : ∀ {l : List Char}, ∀ c ∈ l.head?, c ∈ l := fun c hc => List.mem_of_mem_head? hc
  rw [trimBoth, dropWhile_eq_self_of_head fun c hc => h c (hmem c hc),
    dropWhile_eq_self_of_head fun c hc => h c (List.mem_reverse.mp (hmem c hc)),
    List.reverse_reverse]

/-- A text without characters of the class is what is left of it between any of them. -/
theorem trimBoth_between (hfront : ∀ c ∈ front, drop c = true) (h : ∀ c ∈ core, drop c = false)
    (hback : ∀ c ∈ back, drop c = true) : trimBoth drop (front ++ core ++ back) = core := by
  rw [trimBoth_append hfront hback, trimBoth_of_forall h]

end LeastCost.Text
