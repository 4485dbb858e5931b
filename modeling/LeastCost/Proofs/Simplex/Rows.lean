import Mathlib.Algebra.BigOperators.Ring.Finset
import Mathlib.Algebra.Order.BigOperators.Group.Finset
import Mathlib.Tactic.Ring
import LeastCost.Proofs.Exact
import LeastCost.Simplex.Tableau

/-! # Rows as linear forms

A row with a right-hand side holds at a point when its linear form takes that value there. The
gap between the two is linear in the entries, so row operations act on gaps as on entries.
-/

namespace LeastCost.Simplex

section Entries

variable {α : Type} [Scalar α] {r : List α} {c j : Nat} {v : α}

theorem entry_eq_getElem (h : j < r.length) : entry r j = r[j] := by
  simp [entry, List.getD_eq_getElem?_getD, h]

theorem entry_of_le (h : r.length ≤ j) : entry r j = 0 := by
  simp [entry, List.getD_eq_getElem?_getD, List.getElem?_eq_none h]

theorem entry_set (h : c < r.length) :
    entry (r.set c v) j = if j = c then v else entry r j := by
  by_cases hj : j = c
  · subst hj
    rw [if_pos rfl, entry_eq_getElem (by simpa using h), List.getElem_set_self]
  · simp [entry, List.getD_eq_getElem?_getD, List.getElem?_set_ne (Ne.symm hj), hj]

@[simp] theorem entry_append_left {rest : List α} (h : j < r.length) :
    entry (r ++ rest) j = entry r j := by
  simp [entry, List.getD_eq_getElem?_getD, List.getElem?_append_left h]

@[simp] theorem entry_append_add (rest : List α) :
    entry (r ++ rest) (r.length + j) = entry rest j := by
  simp [entry, List.getD_eq_getElem?_getD, List.getElem?_append_right]

@[simp] theorem entry_replicate_zero (n : Nat) : entry (List.replicate n (0 : α)) j = 0 := by
  by_cases h : j < n
  · simp [entry, List.getD_eq_getElem?_getD, h]
  · exact entry_of_le (by simpa using h)

theorem entry_take {n : Nat} (h : j < n) : entry (r.take n) j = entry r j := by
  simp [entry, List.getD_eq_getElem?_getD, h]

@[simp] theorem entry_cons_zero : entry (v :: r) 0 = v := rfl

@[simp] theorem entry_cons_succ : entry (v :: r) (j + 1) = entry r j := rfl

@[simp] theorem length_eliminate {p : List α} (h : p.length = r.length) :
    (eliminate p c r).length = r.length := by
  simp only [eliminate]
  split <;> simp [h]

end Entries

variable {n c : Nat} {r p : List Rat} {y z : Nat → Rat}

theorem entry_nonneg (h : ∀ v ∈ r, 0 ≤ v) (j : Nat) : 0 ≤ entry r j := by
  by_cases hj : j < r.length
  · rw [entry_eq_getElem hj]
    exact h _ (List.getElem_mem hj)
  · rw [entry_of_le (not_lt.mp hj)]

theorem entry_map {f : Rat → Rat} (hf : f 0 = 0) (r : List Rat) (j : Nat) :
    entry (r.map f) j = f (entry r j) := by
  by_cases h : j < r.length
  · rw [entry_eq_getElem (by simpa using h), entry_eq_getElem h, List.getElem_map]
  · rw [entry_of_le (by simpa using h), entry_of_le (by simpa using h), hf]

theorem entry_zipWith {f : Rat → Rat → Rat} (hf : f 0 0 = 0) (h : r.length = p.length)
    (j : Nat) : entry (r.zipWith f p) j = f (entry r j) (entry p j) := by
  by_cases hj : j < r.length
  · rw [entry_eq_getElem (by simp [← h, hj]), entry_eq_getElem hj,
      entry_eq_getElem (by omega), List.getElem_zipWith]
  · rw [entry_of_le (by simp [← h]; omega), entry_of_le (by omega), entry_of_le (by omega), hf]

theorem entry_eliminate (h : p.length = r.length) (hc : c < r.length)
    (hp : entry p c = 1) (j : Nat) :
    entry (eliminate p c r) j = entry r j - entry r c * entry p j := by
  simp only [eliminate]
  split
  · next hz => rw [(Scalar.isZero_rat_iff _).mp hz, zero_mul, sub_zero]
  · rw [entry_set (by simp [h, hc]), entry_zipWith (by simp) h.symm]
    split_ifs with hj
    · rw [hj, hp]; ring
    · rfl

def eval (n : Nat) (r : List Rat) (y : Nat → Rat) : Rat :=
  ∑ j ∈ Finset.range n, entry r j * y j

def gap (n : Nat) (r : List Rat) (y : Nat → Rat) : Rat := eval n r y - entry r n

theorem eval_congr (h : ∀ j < n, entry r j * y j = entry p j * z j) :
    eval n r y = eval n p z :=
  Finset.sum_congr rfl fun j hj => h j (Finset.mem_range.mp hj)

theorem eval_add_smul (t : Rat) :
    eval n r (fun j => y j + t * z j) = eval n r y + t * eval n r z := by
  simp only [eval, Finset.mul_sum, ← Finset.sum_add_distrib]
  exact Finset.sum_congr rfl fun j _ => by ring

theorem eval_single (h : c < n) : eval n r (fun j => if j = c then 1 else 0) = entry r c := by
  simp [eval, h]

theorem eval_set {v : Rat} (hc : c < n) (hl : c < r.length) :
    eval n (r.set c v) y = eval n r y + (v - entry r c) * y c := by
  have hsplit : ∀ j ∈ Finset.range n, entry (r.set c v) j * y j =
      entry r j * y j + if j = c then (v - entry r c) * y c else 0 := by
    intro j _
    rw [entry_set hl]
    split_ifs with hj
    · subst hj; ring
    · ring
  rw [eval, Finset.sum_congr rfl hsplit, Finset.sum_add_distrib]
  simp [eval, hc]

theorem eval_nonneg (h : ∀ j < n, 0 ≤ entry r j * y j) : 0 ≤ eval n r y :=
  Finset.sum_nonneg fun j hj => h j (Finset.mem_range.mp hj)

theorem gap_sub_mul {q : List Rat} (f : Rat)
    (h : ∀ j ≤ n, entry q j = entry r j - f * entry p j) :
    gap n q y = gap n r y - f * gap n p y := by
  have he : eval n q y = eval n r y - f * eval n p y := by
    simp only [eval, Finset.mul_sum, ← Finset.sum_sub_distrib]
    refine Finset.sum_congr rfl fun j hj => ?_
    rw [h j (Finset.mem_range.mp hj).le]
    ring
  rw [gap, gap, gap, he, h n le_rfl]
  ring

theorem gap_mul {q : List Rat} (f : Rat) (h : ∀ j ≤ n, entry q j = f * entry r j) :
    gap n q y = f * gap n r y := by
  have hq := gap_sub_mul (r := []) (p := r) (q := q) (y := y) (n := n) (-f)
    (fun j hj => by rw [h j hj, entry_of_le (r := []) (Nat.zero_le j)]; ring)
  rw [hq]
  simp [gap, eval, entry_of_le]

end LeastCost.Simplex
