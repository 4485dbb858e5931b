import LeastCost.Proofs.Simplex.Expulsion

/-! # Redundant rows

A row that keeps its artificial variable has no entry in a real column, and no later pivot gives
it one. The rows found so on the way are therefore the rows that are redundant in the end, and
removing them and the artificial columns leaves the basic solution of the real variables and the
solutions without artificial parts as they were.
-/

namespace LeastCost.Simplex.Tableau

variable {t u : Tableau Rat} {real i j k m : Nat}

/-- The row is solved for an artificial variable and has no entry in a real column. -/
def Redundant (real : Nat) (t : Tableau Rat) (i : Nat) : Prop :=
  real ≤ t.basic i ∧ ∀ j < real, entry (t.row i) j = 0

instance : Decidable (t.Redundant real i) :=
  inferInstanceAs (Decidable (real ≤ t.basic i ∧ ∀ j < real, entry (t.row i) j = 0))

def passed (real : Nat) (t : Tableau Rat) (m : Nat) : Tableau Rat :=
  (List.range m).foldl (expelRow real 0) t

/-- The rows that are redundant when it is their turn. -/
def marked (real : Nat) (t : Tableau Rat) : List Nat :=
  (List.range t.rows.length).filter fun i => (t.passed real i).Redundant real i

def eraseRows (places : List Nat) (t : Tableau Rat) : Tableau Rat :=
  { t with
    rows := places.foldr (fun i rows => rows.eraseIdx i) t.rows
    basis := places.foldr (fun i basis => basis.eraseIdx i) t.basis }

section Marks

theorem passed_succ (real : Nat) (t : Tableau Rat) (m : Nat) :
    t.passed real (m + 1) = (t.passed real m).expelRow real 0 m := by
  rw [passed, List.range_succ, List.foldl_append]
  rfl

theorem basic_expelRow_of_ne (h : t.Shaped) (hk : k < t.rows.length) (hki : k ≠ i) :
    (t.expelRow real 0 i).basic k = t.basic k := by
  rcases expelRow_eq real 0 t i with ⟨he, -⟩ | ⟨j, -, -, -, he⟩
  · rw [he]
  · rw [he, basic_pivot (h.basis_length ▸ hk), if_neg hki]

theorem le_basic_expelRow_iff (h : t.Shaped) (hi : i < t.rows.length) :
    real ≤ (t.expelRow real 0 i).basic i ↔ t.Redundant real i := by
  rcases expelRow_eq real 0 t i with ⟨he, hs⟩ | ⟨j, hj, ha, hb, he⟩
  · rw [he]
    refine ⟨fun hb => ⟨hb, fun l hl => ?_⟩, And.left⟩
    exact abs_nonpos_iff.mp (hs.resolve_left (not_lt.mpr hb) l hl)
  · rw [he, basic_pivot (h.basis_length ▸ hi), if_pos rfl]
    refine ⟨fun hle => absurd hj (not_lt.mpr hle), fun hr => ?_⟩
    exact absurd (hr.2 j hj) (abs_pos.mp ha)

theorem le_basic_passed_iff (h : t.Canonical) (hv : t.Vanishing real) (hreal : real ≤ t.columns)
    (hm : m ≤ t.rows.length) (hi : i < m) :
    real ≤ (t.passed real m).basic i ↔ (t.passed real i).Redundant real i := by
  induction m with
  | zero => omega
  | succ m ih =>
    have hexpels : Expels real t (t.passed real m) :=
      (expels_foldl h hv hreal (Nat.le_of_succ_le hm)).1
    have hshaped := hexpels.canonical.toShaped
    rw [passed_succ]
    rcases Nat.lt_succ_iff_lt_or_eq.mp hi with hlt | rfl
    · rw [← ih (Nat.le_of_succ_le hm) hlt]
      exact iff_of_eq (congrArg (real ≤ ·) (basic_expelRow_of_ne hshaped
        (by rw [hexpels.length_eq]; omega) hlt.ne))
    · exact le_basic_expelRow_iff hshaped (by rw [hexpels.length_eq]; omega)

theorem foldr_eraseIdx {β : Type} (drop : Nat → Bool) {m : Nat} (xs : List β)
    (hm : m ≤ xs.length) :
    ((List.range m).filter drop).foldr (fun i xs => xs.eraseIdx i) xs =
      ((List.range m).filter (!drop ·)).filterMap (xs[·]?) ++ xs.drop m := by
  induction m generalizing xs with
  | zero => simp
  | succ m ih =>
    rw [List.range_succ, List.filter_append, List.filter_append, List.foldr_append]
    cases hd : drop m with
    | true =>
      have herased : ∀ i ∈ (List.range m).filter (!drop ·), (xs.eraseIdx m)[i]? = xs[i]? :=
        fun i hi => List.getElem?_eraseIdx_of_lt (List.mem_range.mp (List.mem_filter.mp hi).1)
      have hdrop : (xs.eraseIdx m).drop m = xs.drop (m + 1) := by
        rw [List.eraseIdx_eq_take_drop_succ, List.drop_left' (by simp; omega)]
      simp [hd, ih (xs.eraseIdx m) (by rw [List.length_eraseIdx]; split <;> omega), hdrop,
        List.filterMap_congr herased]
    | false =>
      have hlt : m < xs.length := hm
      simp only [List.filter_cons, hd, Bool.false_eq_true, if_false, List.filter_nil,
        List.foldr_nil, ih xs (by omega), Bool.not_false, if_true, List.filterMap_append,
        List.filterMap_cons, List.getElem?_eq_getElem hlt, List.filterMap_nil, List.append_assoc,
        List.singleton_append, ← List.drop_eq_getElem_cons hlt]

theorem foldr_eraseIdx_eq_map {β : Type} (drop : Nat → Bool) (xs : List β) (f : Nat → β)
    (hf : ∀ i < xs.length, xs[i]? = some (f i)) :
    ((List.range xs.length).filter drop).foldr (fun i xs => xs.eraseIdx i) xs =
      ((List.range xs.length).filter (!drop ·)).map f := by
  rw [foldr_eraseIdx drop xs le_rfl, List.drop_length, List.append_nil, ← List.filterMap_eq_map]
  exact List.filterMap_congr fun i hi =>
    hf i (List.mem_range.mp (List.mem_filter.mp hi).1)

/-- The rows left out are the marked ones. -/
theorem expelArtificials_eq_eraseRows (h : t.Canonical) (hv : t.Vanishing real)
    (hreal : real ≤ t.columns) :
    t.expelArtificials real 0 = (t.passed real t.rows.length).eraseRows (t.marked real) := by
  have hexpels : Expels real t (t.passed real t.rows.length) := (expels_foldl h hv hreal le_rfl).1
  have hshaped := hexpels.canonical.toShaped
  have hexpel : t.expelArtificials real 0 = (t.passed real t.rows.length).dropRedundantRows real :=
    rfl
  have hmarked : t.marked real = (List.range (t.passed real t.rows.length).rows.length).filter
      fun i => decide (real ≤ (t.passed real t.rows.length).basic i) := by
    rw [hexpels.length_eq, marked]
    exact List.filter_congr fun i hi => decide_eq_decide.mpr
      (le_basic_passed_iff h hv hreal le_rfl (List.mem_range.mp hi)).symm
  rw [hexpel, hmarked]
  generalize t.passed real t.rows.length = u at hshaped
  have hkept : ∀ i, (!decide (real ≤ u.basic i)) = decide (u.basic i < real) := fun i => by
    rw [← decide_not, decide_eq_decide, not_le]
  have hrows := foldr_eraseIdx_eq_map (fun i => decide (real ≤ u.basic i)) u.rows u.row
    fun i hi => by rw [row_eq_getElem hi, List.getElem?_eq_getElem hi]
  have hbasis := foldr_eraseIdx_eq_map (fun i => decide (real ≤ u.basic i)) u.basis u.basic
    fun i hi => by rw [basic_eq_getElem hi, List.getElem?_eq_getElem hi]
  rw [hshaped.basis_length] at hbasis
  simp only [eraseRows, hrows, hbasis, hkept, dropRedundantRows, zip_eq_map_range hshaped,
    List.filter_map, List.map_map]
  rfl

end Marks

theorem solution_drop (h : t.Solved) (hreal : real ≤ t.columns) (hj : j < real) :
    ((t.dropRedundantRows real).dropArtificialColumns real).solution j = t.solution j := by
  have hdropped := h.drop hreal
  have hlines : ∀ line, line ∈ t.realLines real ↔
      ∃ k < ((t.dropRedundantRows real).dropArtificialColumns real).rows.length,
        line = (((t.dropRedundantRows real).dropArtificialColumns real).basic k,
          ((t.dropRedundantRows real).dropArtificialColumns real).row k) := by
    intro line
    rw [List.zip_of_prod (basis_drop real t).symm (rows_drop real t).symm,
      zip_eq_map_range hdropped.toShaped]
    simp [eq_comm]
  by_cases hb : ∃ i < t.rows.length, t.basic i = j
  · obtain ⟨i, hi, rfl⟩ := hb
    obtain ⟨k, hk, he⟩ := (hlines _).mp ((mem_realLines_iff h.toShaped).mpr ⟨i, hi, hj, rfl⟩)
    obtain ⟨hbasic, hrow⟩ := Prod.mk.inj he
    rw [h.solution_basic hi, hbasic, hdropped.solution_basic hk, ← hrow]
    exact entry_realRow_rhs h.toShaped hreal hi
  · rw [solution, solution, basicPoint_eq_zero, basicPoint_eq_zero]
    · exact fun i hi he => hb ⟨i, hi, he⟩
    · intro k hk he
      obtain ⟨i, hi, -, hline⟩ := (mem_realLines_iff h.toShaped).mp ((hlines _).mpr ⟨k, hk, rfl⟩)
      exact hb ⟨i, hi, (Prod.mk.inj hline).1.symm.trans he⟩

/-- Expelling the artificial variables of a canonical tableau in which they vanish, and dropping
their columns, leaves a canonical tableau of the real columns. Only real columns are basic, the
basic solution gives the real variables the same values, and the solutions are the old ones
without artificial parts. The rows removed are those that were redundant on their turn. -/
theorem Canonical.expelled (h : t.Canonical) (hreal : real ≤ t.columns)
    (hv : t.Vanishing real) :
    let u := (t.expelArtificials real 0).dropArtificialColumns real
    u.Canonical ∧ u.basis.Nodup ∧ u.columns = real ∧ (∀ b ∈ u.basis, b < real) ∧
      (∀ j < real, u.solution j = t.solution j) ∧
      (∀ y, u.Solves y ↔ t.Solves (realPart real y)) ∧
      t.expelArtificials real 0 = (t.passed real t.rows.length).eraseRows (t.marked real) := by
  intro u
  have hcanonical : u.Canonical := canonical_expelArtificials h hv hreal
  obtain ⟨hexpels, -⟩ := expels_foldl h hv hreal le_rfl
  refine ⟨hcanonical, hcanonical.basis_nodup, rfl, hcanonical.basis_lt, fun j hj => ?_,
    fun y => solves_expelArtificials_iff h hv hreal, expelArtificials_eq_eraseRows h hv hreal⟩
  rw [← hexpels.solution_eq]
  exact solution_drop hexpels.canonical.toSolved (hexpels.columns_eq ▸ hreal) hj

/-- Two artificial variables are basic at zero: one in a row that says nothing about the first
three columns, and one in a row with a negative entry to pivot on. -/
def leftover : Tableau Rat :=
  { rows := [[1, 2, 1, 0, 0, 0, 5], [0, 0, 0, 1, 0, -1, 0], [0, -1, 2, 0, 1, 3, 0]]
    basis := [0, 3, 4]
    costs := []
    columns := 6 }

theorem leftover_expelled : leftover.Canonical ∧ leftover.Vanishing 3 ∧
    leftover.marked 3 = [1] ∧
    (leftover.expelArtificials 3 0).dropArtificialColumns 3 =
      { rows := [[1, 0, 5, 5], [0, 1, -2, 0]], basis := [0, 1], costs := [], columns := 3 } ∧
    ∀ y, ((leftover.expelArtificials 3 0).dropArtificialColumns 3).Solves y ↔
      leftover.Solves (realPart 3 y) := by
  have h : leftover.Canonical :=
    { row_length := by decide
      basis_length := by decide
      basis_lt := by decide
      unit := by decide
      rhs_nonneg := by decide }
  have hv : leftover.Vanishing 3 := by
    unfold Vanishing
    decide
  obtain ⟨-, -, -, -, -, hsolves, -⟩ := h.expelled (by decide) hv
  exact ⟨h, hv, by decide +kernel, by decide +kernel, hsolves⟩

end LeastCost.Simplex.Tableau
