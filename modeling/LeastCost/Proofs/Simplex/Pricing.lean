import LeastCost.Proofs.Simplex.Canonical

/-! # Priced tableaus

The cost row of a priced tableau says what a point costs that solves the rows: the objective of
the basic solution, plus what its non-basic variables add. Reduced costs that are not negative
prove the basic solution optimal; a negative one over entries that are not positive leads to
points of any cost.
-/

namespace LeastCost.Simplex.Tableau

theorem zip_eq_map_range {α : Type} {t : Tableau α} (h : t.Shaped) :
    t.basis.zip t.rows = (List.range t.rows.length).map fun i => (t.basic i, t.row i) := by
  apply List.ext_getElem
  · simp [h.basis_length]
  · intro i hi _
    rw [List.length_zip, h.basis_length, min_self] at hi
    simp [row_eq_getElem hi, basic_eq_getElem (h.basis_length ▸ hi)]

variable {t : Tableau Rat} {c : List Rat} {i k j : Nat} {y : Nat → Rat}

theorem sum_zip (h : t.Shaped) (f : Nat × List Rat → Rat) :
    ((t.basis.zip t.rows).map f).sum =
      ∑ i ∈ Finset.range t.rows.length, f (t.basic i, t.row i) := by
  rw [zip_eq_map_range h, List.map_map]
  rfl

/-- The point with these values of the basic variables and zeros elsewhere. -/
def basicPoint (t : Tableau Rat) (f : Nat → Rat) (j : Nat) : Rat :=
  ∑ i ∈ Finset.range t.rows.length, if t.basic i = j then f i else 0

def solution (t : Tableau Rat) : Nat → Rat := t.basicPoint fun i => t.rhs (t.row i)

theorem eval_basicPoint (h : t.Shaped) (row : List Rat) (f : Nat → Rat) :
    eval t.columns row (t.basicPoint f) =
      ∑ i ∈ Finset.range t.rows.length, entry row (t.basic i) * f i := by
  simp only [eval, basicPoint, Finset.mul_sum]
  rw [Finset.sum_comm]
  refine Finset.sum_congr rfl fun i hi => ?_
  simp [h.basic_lt (Finset.mem_range.mp hi)]

theorem Solved.eval_row_basicPoint (h : t.Solved) (hk : k < t.rows.length) (f : Nat → Rat) :
    eval t.columns (t.row k) (t.basicPoint f) = f k := by
  rw [eval_basicPoint h.toShaped, Finset.sum_eq_single k]
  · rw [h.unit k hk k hk, if_pos rfl, one_mul]
  · intro i hi hik
    rw [h.unit i (Finset.mem_range.mp hi) k hk, if_neg (Ne.symm hik), zero_mul]
  · intro hn
    exact absurd (Finset.mem_range.mpr hk) hn

theorem Solved.solves_solution (h : t.Solved) : t.Solves t.solution :=
  forall_row_iff.mpr fun _ hk => h.eval_row_basicPoint hk _

theorem Canonical.solution_nonneg (h : t.Canonical) (j : Nat) : 0 ≤ t.solution j := by
  rw [solution, basicPoint]
  refine Finset.sum_nonneg fun i hi => ?_
  split
  · exact h.rhs_row (Finset.mem_range.mp hi)
  · exact le_rfl

theorem Solved.basicPoint_basic (h : t.Solved) (hi : i < t.rows.length) (f : Nat → Rat) :
    t.basicPoint f (t.basic i) = f i := by
  rw [basicPoint, Finset.sum_eq_single i]
  · rw [if_pos rfl]
  · intro k hk hki
    rw [if_neg fun he => hki (h.basic_injective (Finset.mem_range.mp hk) hi he)]
  · intro hn
    exact absurd (Finset.mem_range.mpr hi) hn

theorem basicPoint_eq_zero (hj : ∀ i < t.rows.length, t.basic i ≠ j) (f : Nat → Rat) :
    t.basicPoint f j = 0 :=
  Finset.sum_eq_zero fun i hi => if_neg (hj i (Finset.mem_range.mp hi))

theorem Solved.basicPoint_comp (h : t.Solved) {g : Rat → Rat} (hg : g 0 = 0) (f : Nat → Rat)
    (j : Nat) : t.basicPoint (fun i => g (f i)) j = g (t.basicPoint f j) := by
  by_cases hj : ∃ i < t.rows.length, t.basic i = j
  · obtain ⟨i, hi, rfl⟩ := hj
    rw [h.basicPoint_basic hi, h.basicPoint_basic hi]
  · have hne : ∀ i < t.rows.length, t.basic i ≠ j := fun i hi he => hj ⟨i, hi, he⟩
    rw [basicPoint_eq_zero hne, basicPoint_eq_zero hne, hg]

theorem Solved.solution_basic (h : t.Solved) (hi : i < t.rows.length) :
    t.solution (t.basic i) = t.rhs (t.row i) :=
  h.basicPoint_basic hi _

/-- The cost row holds the reduced costs for these column costs. -/
structure Priced (t : Tableau Rat) (c : List Rat) : Prop where
  costs_length : t.costs.length = t.columns + 1
  costs_basic : ∀ i < t.rows.length, entry t.costs (t.basic i) = 0
  value : ∀ y, t.Solves y → eval t.columns c y = t.objective + eval t.columns t.costs y

theorem objective_add_eval :
    t.objective + eval t.columns t.costs y = gap t.columns t.costs y := by
  rw [objective, gap]; ring

theorem Priced.entry_costs_pivot (hp : t.Priced c) (h : t.Shaped) {q : Nat} (hq : q < t.columns)
    (ha : entry (t.row i) q ≠ 0) (j : Nat) : entry (t.pivot i q).costs j =
      entry t.costs j - entry t.costs q * (entry (t.row i) j / entry (t.row i) q) := by
  have hi := lt_length_of_entry_ne ha
  rw [← entry_pivotRow h hq ha]
  exact entry_eliminate (by rw [length_pivotRow, h.length_row hi, hp.costs_length])
    (by rw [hp.costs_length]; omega) (by rw [entry_pivotRow h hq ha, div_self ha]) j

theorem Priced.pivot (hp : t.Priced c) (h : t.Solved) {q : Nat} (hq : q < t.columns)
    (ha : entry (t.row i) q ≠ 0) : (t.pivot i q).Priced c := by
  have hi := lt_length_of_entry_ne ha
  have hentry := hp.entry_costs_pivot h.toShaped hq ha
  constructor
  · simp only [Tableau.pivot]
    rw [length_eliminate (by rw [length_pivotRow, h.length_row hi, hp.costs_length]),
      hp.costs_length]
  · intro l hl
    rw [length_rows_pivot] at hl
    rw [hentry, basic_pivot (h.basis_length ▸ hl)]
    split_ifs with hli
    · rw [div_self ha, mul_one, sub_self]
    · rw [hp.costs_basic l hl, h.unit l hl i hi, if_neg (Ne.symm hli), zero_div, mul_zero,
        sub_zero]
  · intro y hy
    have hs := (solves_pivot_iff h.toShaped hq ha).mp hy
    have hgap := gap_sub_mul (n := t.columns) (y := y) (r := t.costs) (p := t.row i)
      (q := (t.pivot i q).costs) (entry t.costs q / entry (t.row i) q)
      fun j _ => by rw [hentry]; ring
    rw [objective_add_eval, columns_pivot, hgap, solves_iff_gap.mp hs i hi, mul_zero, sub_zero,
      ← objective_add_eval]
    exact hp.value y hs

/-- A pivot changes the objective by the reduced cost of the column for each unit that it
grows. -/
theorem Priced.objective_pivot (hp : t.Priced c) (h : t.Shaped) {q : Nat} (hq : q < t.columns)
    (ha : entry (t.row i) q ≠ 0) : (t.pivot i q).objective =
      t.objective + entry t.costs q * (t.rhs (t.row i) / entry (t.row i) q) := by
  rw [objective, columns_pivot, hp.entry_costs_pivot h hq ha, objective, rhs]
  ring

section PriceOut

def priceStep (c costs : List Rat) (line : List Rat × Nat) : List Rat :=
  if Scalar.isZero (entry c line.2) then costs
  else costs.zipWith (fun x a => x - entry c line.2 * a) line.1

theorem costs_priceOut (t : Tableau Rat) (c : List Rat) :
    (t.priceOut c).costs = (t.rows.zip t.basis).foldl (priceStep c) (c ++ [0]) := rfl

theorem entry_priceStep {costs : List Rat} {line : List Rat × Nat}
    (h : costs.length = line.1.length) (j : Nat) :
    entry (priceStep c costs line) j = entry costs j - entry c line.2 * entry line.1 j := by
  unfold priceStep
  split
  · next hz => rw [(Scalar.isZero_rat_iff _).mp hz, zero_mul, sub_zero]
  · rw [entry_zipWith (by simp) h]

theorem length_priceStep {costs : List Rat} {line : List Rat × Nat}
    (h : costs.length = line.1.length) : (priceStep c costs line).length = costs.length := by
  unfold priceStep
  split <;> simp [h]

variable {n : Nat} {lines : List (List Rat × Nat)}

theorem length_foldl_priceStep (hl : ∀ line ∈ lines, line.1.length = n) (costs : List Rat)
    (hc : costs.length = n) : (lines.foldl (priceStep c) costs).length = n := by
  induction lines generalizing costs with
  | nil => exact hc
  | cons line lines ih =>
    have he := hl line List.mem_cons_self
    exact ih (fun l h => hl l (List.mem_cons_of_mem _ h)) _
      (by rw [length_priceStep (hc.trans he.symm), hc])

theorem entry_foldl_priceStep (hl : ∀ line ∈ lines, line.1.length = n) (costs : List Rat)
    (hc : costs.length = n) (j : Nat) : entry (lines.foldl (priceStep c) costs) j =
      entry costs j - (lines.map fun line => entry c line.2 * entry line.1 j).sum := by
  induction lines generalizing costs with
  | nil => simp
  | cons line lines ih =>
    have he := hl line List.mem_cons_self
    rw [List.foldl_cons, ih (fun l h => hl l (List.mem_cons_of_mem _ h)) _
      (by rw [length_priceStep (hc.trans he.symm), hc]), entry_priceStep (hc.trans he.symm)]
    simp only [List.map_cons, List.sum_cons]
    ring

theorem Shaped.length_of_mem_zip (h : t.Shaped) :
    ∀ line ∈ t.rows.zip t.basis, line.1.length = t.columns + 1 :=
  fun _ hl => h.row_length _ (List.of_mem_zip hl).1

theorem entry_costs_priceOut (h : t.Shaped) (hc : c.length = t.columns) (j : Nat) :
    entry (t.priceOut c).costs j = entry (c ++ [0]) j -
      ∑ i ∈ Finset.range t.rows.length, entry c (t.basic i) * entry (t.row i) j := by
  rw [costs_priceOut, entry_foldl_priceStep h.length_of_mem_zip _ (by simp [hc]),
    ← sum_zip h fun line => entry c line.1 * entry line.2 j, ← List.zip_swap t.rows,
    List.map_map]
  rfl

theorem priced_priceOut (h : t.Solved) (hc : c.length = t.columns) : (t.priceOut c).Priced c := by
  have hentry := entry_costs_priceOut h.toShaped hc
  have hlt : ∀ j < t.columns, entry (c ++ [0]) j = entry c j :=
    fun j hj => entry_append_left (hc ▸ hj)
  have hlast : entry (c ++ [0]) t.columns = 0 := by
    have := entry_append_add (r := c) (j := 0) [0]
    rwa [Nat.add_zero, hc] at this
  constructor
  · rw [costs_priceOut, length_foldl_priceStep h.toShaped.length_of_mem_zip _ (by simp [hc])]
    rfl
  · intro k hk
    have hk' : k < t.rows.length := hk
    change entry (t.priceOut c).costs (t.basic k) = 0
    rw [hentry, hlt _ (h.basic_lt hk'), Finset.sum_eq_single k]
    · rw [h.unit k hk' k hk', if_pos rfl, mul_one, sub_self]
    · intro i hi hik
      rw [h.unit k hk' i (Finset.mem_range.mp hi), if_neg hik, mul_zero]
    · intro hn
      exact absurd (Finset.mem_range.mpr hk') hn
  · intro y hy
    have hy' : t.Solves y := hy
    -- The rows subtracted from the costs all hold at the point, so they have no gap there.
    have hrows : ∑ i ∈ Finset.range t.rows.length,
        entry c (t.basic i) * gap t.columns (t.row i) y = 0 :=
      Finset.sum_eq_zero fun i hi => by
        rw [solves_iff_gap.mp hy' i (Finset.mem_range.mp hi), mul_zero]
    have heval : eval t.columns (t.priceOut c).costs y = eval t.columns c y -
        ∑ i ∈ Finset.range t.rows.length, entry c (t.basic i) * eval t.columns (t.row i) y := by
      simp only [eval, Finset.mul_sum]
      rw [Finset.sum_comm, ← Finset.sum_sub_distrib]
      refine Finset.sum_congr rfl fun j hj => ?_
      rw [hentry, hlt j (Finset.mem_range.mp hj), sub_mul, Finset.sum_mul]
      simp only [mul_assoc]
    rw [objective_add_eval]
    change eval t.columns c y = gap t.columns (t.priceOut c).costs y
    rw [gap, hentry, heval, hlast]
    simp only [gap, mul_sub, Finset.sum_sub_distrib] at hrows
    linarith

theorem Canonical.priceOut (h : t.Canonical) (c : List Rat) : (t.priceOut c).Canonical where
  row_length := h.row_length
  basis_length := h.basis_length
  basis_lt := h.basis_lt
  unit := h.unit
  rhs_nonneg := h.rhs_nonneg

end PriceOut

section Certificates

/-- The basic solution costs what the tableau says. -/
theorem Priced.eval_solution (hp : t.Priced c) (h : t.Solved) :
    eval t.columns c t.solution = t.objective := by
  rw [hp.value _ h.solves_solution, solution, eval_basicPoint h.toShaped,
    Finset.sum_eq_zero fun i hi => by rw [hp.costs_basic i (Finset.mem_range.mp hi), zero_mul],
    add_zero]

/-- Where no reduced cost is negative, no non-negative solution costs less than the basic
solution. -/
theorem Priced.objective_le (hp : t.Priced c) (hd : ∀ j < t.columns, 0 ≤ entry t.costs j)
    (hs : t.Solves y) (hy : ∀ j < t.columns, 0 ≤ y j) : t.objective ≤ eval t.columns c y := by
  rw [hp.value y hs]
  have := eval_nonneg (r := t.costs) (y := y) (n := t.columns)
    fun j hj => mul_nonneg (hd j hj) (hy j hj)
  linarith

/-- The point reached from the basic solution by letting one column grow. -/
def ray (t : Tableau Rat) (q : Nat) (amount : Rat) (j : Nat) : Rat :=
  t.solution j +
    amount * ((if j = q then 1 else 0) + -1 * t.basicPoint (fun i => entry (t.row i) q) j)

variable {q : Nat} {amount : Rat}

theorem eval_ray (row : List Rat) (hq : q < t.columns) :
    eval t.columns row (t.ray q amount) = eval t.columns row t.solution +
      amount * (entry row q -
        eval t.columns row (t.basicPoint fun i => entry (t.row i) q)) := by
  have hdirection := eval_add_smul (r := row) (n := t.columns)
    (y := fun j => if j = q then 1 else 0)
    (z := t.basicPoint fun i => entry (t.row i) q) (-1)
  have hall := eval_add_smul (r := row) (n := t.columns) (y := t.solution)
    (z := fun j => (if j = q then 1 else 0) + -1 * t.basicPoint (fun i => entry (t.row i) q) j)
    amount
  rw [eval_single hq] at hdirection
  exact hall.trans (by rw [hdirection]; ring)

theorem Solved.solves_ray (h : t.Solved) (hq : q < t.columns) : t.Solves (t.ray q amount) := by
  refine forall_row_iff.mpr fun k hk => ?_
  rw [eval_ray _ hq, h.eval_row_basicPoint hk, sub_self, mul_zero, add_zero]
  exact h.eval_row_basicPoint hk _

theorem Canonical.ray_nonneg (h : t.Canonical) (hcol : ∀ i < t.rows.length, entry (t.row i) q ≤ 0)
    (ha : 0 ≤ amount) (j : Nat) : 0 ≤ t.ray q amount j := by
  have hpoint : t.basicPoint (fun i => entry (t.row i) q) j ≤ 0 :=
    Finset.sum_nonpos fun i hi => by
      split
      · exact hcol i (Finset.mem_range.mp hi)
      · exact le_rfl
  have hunit : (0 : Rat) ≤ if j = q then 1 else 0 := by split <;> norm_num
  exact add_nonneg (h.solution_nonneg j) (mul_nonneg ha (by linarith))

theorem Priced.eval_ray (hp : t.Priced c) (h : t.Solved) (hq : q < t.columns) :
    eval t.columns c (t.ray q amount) = t.objective + amount * entry t.costs q := by
  have hz : ∀ f, eval t.columns t.costs (t.basicPoint f) = 0 := fun f => by
    rw [eval_basicPoint h.toShaped]
    exact Finset.sum_eq_zero fun i hi => by
      rw [hp.costs_basic i (Finset.mem_range.mp hi), zero_mul]
  rw [hp.value _ (h.solves_ray hq), Tableau.eval_ray _ hq, solution, hz, hz, zero_add, sub_zero]

/-- A negative reduced cost over entries that are not positive leads to non-negative solutions
that cost less than any bound. -/
theorem Priced.exists_eval_lt (hp : t.Priced c) (h : t.Canonical) (hq : q < t.columns)
    (hd : entry t.costs q < 0) (hcol : ∀ i < t.rows.length, entry (t.row i) q ≤ 0)
    (bound : Rat) : ∃ y, t.Solves y ∧ (∀ j, 0 ≤ y j) ∧ eval t.columns c y < bound := by
  have hpos : 0 < -entry t.costs q := neg_pos.mpr hd
  have habs : 0 ≤ |t.objective - bound| + 1 := by positivity
  refine ⟨t.ray q ((|t.objective - bound| + 1) / -entry t.costs q), h.solves_ray hq,
    h.ray_nonneg hcol (div_nonneg habs hpos.le), ?_⟩
  have hmul : (|t.objective - bound| + 1) / -entry t.costs q * entry t.costs q =
      -(|t.objective - bound| + 1) := by
    rw [div_neg, neg_mul, div_mul_cancel₀ _ hd.ne]
  rw [hp.eval_ray h.toSolved hq, hmul]
  have := le_abs_self (t.objective - bound)
  linarith

end Certificates

end LeastCost.Simplex.Tableau
