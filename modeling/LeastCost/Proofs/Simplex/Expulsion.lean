import LeastCost.Proofs.Simplex.Pricing
import LeastCost.Simplex.Artificial

/-! # Expelling artificial variables

Where the artificial basic variables are zero, pivoting them out changes no right-hand side. A
row that keeps one has no entry in a real column, so dropping it loses nothing: the real columns
alone are left canonical, with the same solutions.
-/

namespace LeastCost.Simplex.Tableau

variable {t : Tableau Rat} {real i j k : Nat} {tolerance : Rat} {y : Nat → Rat}

/-- Every artificial basic variable is zero. -/
def Vanishing (real : Nat) (t : Tableau Rat) : Prop :=
  ∀ i < t.rows.length, real ≤ t.basic i → t.rhs (t.row i) = 0

/-- A row that needs no further attention: its basic column is real, or none of its real columns
can become basic. -/
def Settled (real : Nat) (t : Tableau Rat) (i : Nat) : Prop :=
  t.basic i < real ∨ ∀ j < real, entry (t.row i) j = 0

theorem rhs_row_pivot (h : t.Shaped) (hj : j < t.columns) (ha : entry (t.row i) j ≠ 0)
    (hzero : t.rhs (t.row i) = 0) (hk : k < t.rows.length) :
    (t.pivot i j).rhs ((t.pivot i j).row k) = t.rhs (t.row k) := by
  simp only [rhs] at hzero ⊢
  rw [columns_pivot, entry_pivot h hj ha hk, hzero, zero_div, mul_zero, sub_zero]
  split
  · next hki => rw [hki, hzero]
  · rfl

/-- A pivot on a row with right-hand side zero does not move the basic solution. -/
theorem solution_pivot (h : t.Shaped) (hj : j < t.columns) (ha : entry (t.row i) j ≠ 0)
    (hzero : t.rhs (t.row i) = 0) : (t.pivot i j).solution = t.solution := by
  funext l
  rw [solution, solution, basicPoint, basicPoint, length_rows_pivot]
  refine Finset.sum_congr rfl fun k hk => ?_
  have hk' := Finset.mem_range.mp hk
  rw [rhs_row_pivot h hj ha hzero hk', basic_pivot (h.basis_length ▸ hk')]
  by_cases hki : k = i
  · rw [hki, hzero]
    simp
  · rw [if_neg hki]

theorem Canonical.pivot_of_rhs_eq_zero (h : t.Canonical) (hj : j < t.columns)
    (ha : entry (t.row i) j ≠ 0) (hzero : t.rhs (t.row i) = 0) : (t.pivot i j).Canonical where
  toSolved := h.toSolved.pivot hj ha
  rhs_nonneg := forall_row_iff.mpr fun k hk => by
    rw [length_rows_pivot] at hk
    rw [rhs_row_pivot h.toShaped hj ha hzero hk]
    exact h.rhs_row hk

theorem expelRow_eq (real : Nat) (tolerance : Rat) (t : Tableau Rat) (i : Nat) :
    (expelRow real tolerance t i = t ∧
      (t.basic i < real ∨ ∀ j < real, |entry (t.row i) j| ≤ tolerance)) ∨
    ∃ j < real, tolerance < |entry (t.row i) j| ∧ real ≤ t.basic i ∧
      expelRow real tolerance t i = t.pivot i j := by
  unfold expelRow
  split
  · next h => exact Or.inl ⟨rfl, Or.inl h⟩
  · next h =>
    split
    · next j hj =>
      have hmem := List.mem_of_find?_eq_some hj
      have htest := List.find?_some hj
      simp only [Scalar.abs_rat, decide_eq_true_eq] at htest
      exact Or.inr ⟨j, List.mem_range.mp hmem, htest, not_lt.mp h, rfl⟩
    · next hnone =>
      simp only [List.find?_eq_none, List.mem_range, Scalar.abs_rat, decide_eq_true_eq,
        not_lt] at hnone
      exact Or.inl ⟨rfl, Or.inr hnone⟩

/-- What expelling keeps: a canonical tableau with the solutions, the basic solution and the
vanishing artificial variables of another one. -/
structure Expels (real : Nat) (t u : Tableau Rat) : Prop where
  canonical : u.Canonical
  vanishing : u.Vanishing real
  columns_eq : u.columns = t.columns
  length_eq : u.rows.length = t.rows.length
  solves_iff : ∀ y, u.Solves y ↔ t.Solves y
  solution_eq : u.solution = t.solution

theorem Expels.refl (h : t.Canonical) (hv : t.Vanishing real) : Expels real t t :=
  ⟨h, hv, rfl, rfl, fun _ => Iff.rfl, rfl⟩

theorem Expels.expelRow {u : Tableau Rat} (h : Expels real t u) (hreal : real ≤ t.columns) :
    Expels real t (u.expelRow real 0 i) := by
  rcases expelRow_eq real 0 u i with ⟨he, -⟩ | ⟨j, hj, ha, hb, he⟩
  · rw [he]
    exact h
  · rw [he]
    have ha' := abs_pos.mp ha
    have hj' : j < u.columns := h.columns_eq ▸ hj.trans_le hreal
    have hzero := h.vanishing i (lt_length_of_entry_ne ha') hb
    have hshaped := h.canonical.toShaped
    refine ⟨h.canonical.pivot_of_rhs_eq_zero hj' ha' hzero, ?_, h.columns_eq,
      by rw [length_rows_pivot, h.length_eq],
      fun y => (solves_pivot_iff hshaped hj' ha').trans (h.solves_iff y),
      (solution_pivot hshaped hj' ha' hzero).trans h.solution_eq⟩
    intro k hk hbk
    rw [length_rows_pivot] at hk
    rw [rhs_row_pivot hshaped hj' ha' hzero hk]
    rw [basic_pivot (hshaped.basis_length ▸ hk)] at hbk
    split_ifs at hbk with hki
    · exact absurd hj (not_lt.mpr hbk)
    · exact h.vanishing k hk hbk

theorem Settled.expelRow (h : t.Shaped) (hreal : real ≤ t.columns) (hk : k < t.rows.length)
    (hs : t.Settled real k) : (t.expelRow real 0 i).Settled real k := by
  rcases expelRow_eq real 0 t i with ⟨he, -⟩ | ⟨j, hj, ha, hb, he⟩
  · rw [he]
    exact hs
  · rw [he]
    have ha' := abs_pos.mp ha
    have hki : k ≠ i := by
      rintro rfl
      rcases hs with hs | hs
      · omega
      · exact ha' (hs j hj)
    rcases hs with hs | hs
    · left
      rwa [basic_pivot (h.basis_length ▸ hk), if_neg hki]
    · right
      intro l hl
      rw [entry_pivot h (hj.trans_le hreal) ha' hk, if_neg hki, hs l hl, hs j hj, zero_mul,
        sub_zero]

theorem settled_expelRow (h : t.Shaped) (hi : i < t.rows.length) :
    (t.expelRow real 0 i).Settled real i := by
  rcases expelRow_eq real 0 t i with ⟨he, hs⟩ | ⟨j, hj, -, -, he⟩
  · rw [he]
    exact hs.imp_right fun hs l hl => abs_nonpos_iff.mp (hs l hl)
  · rw [he]
    left
    rwa [basic_pivot (h.basis_length ▸ hi), if_pos rfl]

theorem expels_foldl (h : t.Canonical) (hv : t.Vanishing real) (hreal : real ≤ t.columns)
    {m : Nat} (hm : m ≤ t.rows.length) :
    Expels real t ((List.range m).foldl (expelRow real 0) t) ∧
      ∀ i < m, ((List.range m).foldl (expelRow real 0) t).Settled real i := by
  induction m with
  | zero => exact ⟨.refl h hv, by simp⟩
  | succ m ih =>
    obtain ⟨hexpels, hsettled⟩ := ih (by omega)
    rw [List.range_succ, List.foldl_append]
    have hshaped := hexpels.canonical.toShaped
    refine ⟨hexpels.expelRow hreal, fun i hi => ?_⟩
    rcases Nat.lt_succ_iff_lt_or_eq.mp hi with hlt | rfl
    · exact (hsettled i hlt).expelRow hshaped (hexpels.columns_eq ▸ hreal)
        (by rw [hexpels.length_eq]; omega)
    · exact settled_expelRow hshaped (by rw [hexpels.length_eq]; omega)

section Drop

theorem Solved.pairwise_zip (h : t.Solved) : (t.basis.zip t.rows).Pairwise fun line line' =>
    entry line.2 line'.1 = 0 ∧ entry line'.2 line.1 = 0 := by
  rw [zip_eq_map_range h.toShaped, List.pairwise_map]
  refine List.pairwise_lt_range.imp_of_mem fun hi hk hlt => ?_
  rw [List.mem_range] at hi hk
  exact ⟨by rw [h.unit _ hk _ hi, if_neg hlt.ne], by rw [h.unit _ hi _ hk, if_neg hlt.ne']⟩

def realLines (real : Nat) (t : Tableau Rat) : List (Nat × List Rat) :=
  ((t.basis.zip t.rows).filter fun line => line.1 < real).map fun line =>
    (line.1, line.2.take real ++ [t.rhs line.2])

theorem mem_realLines_iff (h : t.Shaped) {line : Nat × List Rat} : line ∈ t.realLines real ↔
    ∃ i < t.rows.length, t.basic i < real ∧
      line = (t.basic i, (t.row i).take real ++ [t.rhs (t.row i)]) := by
  simp only [realLines, zip_eq_map_range h, List.mem_map, List.mem_filter, List.mem_range,
    decide_eq_true_eq]
  constructor
  · rintro ⟨_, ⟨⟨i, hi, rfl⟩, hlt⟩, rfl⟩
    exact ⟨i, hi, hlt, rfl⟩
  · rintro ⟨i, hi, hlt, rfl⟩
    exact ⟨_, ⟨⟨i, hi, rfl⟩, hlt⟩, rfl⟩

theorem rows_drop (real : Nat) (t : Tableau Rat) :
    ((t.dropRedundantRows real).dropArtificialColumns real).rows =
      (t.realLines real).map (·.2) := by
  simp only [dropRedundantRows, dropArtificialColumns, realLines, List.map_map]
  rfl

theorem basis_drop (real : Nat) (t : Tableau Rat) :
    ((t.dropRedundantRows real).dropArtificialColumns real).basis =
      (t.realLines real).map (·.1) := by
  simp only [dropRedundantRows, dropArtificialColumns, realLines, List.map_map]
  rfl

theorem length_take_row (h : t.Shaped) (hreal : real ≤ t.columns) (hi : i < t.rows.length) :
    ((t.row i).take real).length = real := by
  rw [List.length_take, h.length_row hi]
  omega

theorem entry_realRow (h : t.Shaped) (hreal : real ≤ t.columns) (hi : i < t.rows.length)
    (hj : j < real) :
    entry ((t.row i).take real ++ [t.rhs (t.row i)]) j = entry (t.row i) j := by
  rw [entry_append_left (by rwa [length_take_row h hreal hi]), entry_take hj]

theorem entry_realRow_rhs (h : t.Shaped) (hreal : real ≤ t.columns) (hi : i < t.rows.length) :
    entry ((t.row i).take real ++ [t.rhs (t.row i)]) real = t.rhs (t.row i) := by
  have := entry_append_add (r := (t.row i).take real) (j := 0) [t.rhs (t.row i)]
  rwa [length_take_row h hreal hi] at this

theorem Solved.drop (h : t.Solved) (hreal : real ≤ t.columns) :
    ((t.dropRedundantRows real).dropArtificialColumns real).Solved := by
  refine solved_of_lines _ (basis_drop real t) (rows_drop real t) (fun line hl => ?_) ?_
  · obtain ⟨i, hi, hlt, rfl⟩ := (mem_realLines_iff h.toShaped).mp hl
    refine ⟨?_, hlt, ?_⟩
    · rw [List.length_append, length_take_row h.toShaped hreal hi]
      rfl
    · rw [entry_realRow h.toShaped hreal hi hlt, h.unit i hi i hi, if_pos rfl]
  · refine List.pairwise_map.mpr ((h.pairwise_zip.filter _).imp_of_mem ?_)
    intro line line' hl hl' hzero
    obtain ⟨hmem, hlt⟩ := List.mem_filter.mp hl
    obtain ⟨hmem', hlt'⟩ := List.mem_filter.mp hl'
    rw [zip_eq_map_range h.toShaped] at hmem hmem'
    obtain ⟨i, hi, rfl⟩ := List.mem_map.mp hmem
    obtain ⟨k, hk, rfl⟩ := List.mem_map.mp hmem'
    rw [List.mem_range] at hi hk
    rw [decide_eq_true_eq] at hlt hlt'
    exact ⟨by rw [entry_realRow h.toShaped hreal hi hlt', hzero.1],
      by rw [entry_realRow h.toShaped hreal hk hlt, hzero.2]⟩

theorem Canonical.drop (h : t.Canonical) (hreal : real ≤ t.columns) :
    ((t.dropRedundantRows real).dropArtificialColumns real).Canonical where
  toSolved := h.toSolved.drop hreal
  rhs_nonneg row hrow := by
    rw [rows_drop] at hrow
    obtain ⟨line, hl, rfl⟩ := List.mem_map.mp hrow
    obtain ⟨i, hi, -, rfl⟩ := (mem_realLines_iff h.toShaped).mp hl
    exact (h.rhs_row hi).trans_eq (entry_realRow_rhs h.toShaped hreal hi).symm

def realPart (real : Nat) (y : Nat → Rat) (j : Nat) : Rat := if j < real then y j else 0

theorem eval_realPart {n : Nat} (hreal : real ≤ n) (row : List Rat) (y : Nat → Rat) :
    eval n row (realPart real y) = eval real row y := by
  rw [eval, ← Finset.sum_subset (Finset.range_subset_range.mpr hreal)]
  · exact eval_congr fun j hj => by rw [realPart, if_pos hj]
  · intro j _ hn
    rw [realPart, if_neg (by simpa using hn), mul_zero]

theorem eval_realRow (h : t.Shaped) (hreal : real ≤ t.columns) {i : Nat}
    (hi : i < t.rows.length) (y : Nat → Rat) :
    eval real ((t.row i).take real ++ [t.rhs (t.row i)]) y = eval real (t.row i) y :=
  eval_congr fun j hj => by rw [entry_realRow h hreal hi hj]

theorem Solves.drop (h : t.Shaped) (hreal : real ≤ t.columns) (hs : t.Solves (realPart real y)) :
    ((t.dropRedundantRows real).dropArtificialColumns real).Solves y := by
  rw [Solves, rows_drop]
  rw [Solves, forall_row_iff] at hs
  simp only [eval_realPart hreal] at hs
  refine List.forall_mem_map.mpr fun line hl => ?_
  obtain ⟨i, hi, -, rfl⟩ := (mem_realLines_iff h).mp hl
  exact (eval_realRow h hreal hi y).trans
    ((hs i hi).trans (entry_realRow_rhs h hreal hi).symm)

theorem solves_drop_iff (h : t.Shaped) (hv : t.Vanishing real) (hreal : real ≤ t.columns)
    (hs : ∀ i < t.rows.length, t.Settled real i) :
    ((t.dropRedundantRows real).dropArtificialColumns real).Solves y ↔
      t.Solves (realPart real y) := by
  refine ⟨fun hlines => ?_, Solves.drop h hreal⟩
  rw [Solves, rows_drop, List.forall_mem_map] at hlines
  rw [Solves, forall_row_iff]
  simp only [eval_realPart hreal]
  intro i hi
  by_cases hb : t.basic i < real
  · have := hlines _ ((mem_realLines_iff h).mpr ⟨i, hi, hb, rfl⟩)
    rw [← eval_realRow h hreal hi y]
    exact this.trans (entry_realRow_rhs h hreal hi)
  · rw [hv i hi (not_lt.mp hb)]
    exact Finset.sum_eq_zero fun j hj => by
      rw [(hs i hi).resolve_left hb j (Finset.mem_range.mp hj), zero_mul]

end Drop

/-- Expelling the artificial variables and dropping their columns leaves a canonical tableau,
which the real parts of the solutions solve. -/
theorem canonical_expelArtificials (h : t.Canonical) (hv : t.Vanishing real)
    (hreal : real ≤ t.columns) :
    ((t.expelArtificials real 0).dropArtificialColumns real).Canonical := by
  obtain ⟨hexpels, -⟩ := expels_foldl h hv hreal le_rfl
  exact hexpels.canonical.drop (hexpels.columns_eq ▸ hreal)

theorem solves_expelArtificials_iff (h : t.Canonical) (hv : t.Vanishing real)
    (hreal : real ≤ t.columns) :
    ((t.expelArtificials real 0).dropArtificialColumns real).Solves y ↔
      t.Solves (realPart real y) := by
  obtain ⟨hexpels, hsettled⟩ := expels_foldl h hv hreal le_rfl
  exact (solves_drop_iff hexpels.canonical.toShaped hexpels.vanishing (hexpels.columns_eq ▸ hreal)
    fun i hi => hsettled i (hi.trans_eq hexpels.length_eq)).trans (hexpels.solves_iff _)

end LeastCost.Simplex.Tableau
