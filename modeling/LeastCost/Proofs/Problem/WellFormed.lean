import LeastCost.Proofs.Results

/-! # Well-formed problems

A problem has no violation exactly when its lists fit each other, its numbers are finite, and
its supplies and demands are not negative.
-/

namespace LeastCost

variable {α : Type}

section Reports

variable [Scalar α]

@[simp] theorem reportUnless_eq_nil_iff {holds : Bool} {violation : Violation} :
    reportUnless holds violation = [] ↔ holds = true := by
  cases holds <;> simp [reportUnless]

omit [Scalar α] in
theorem reportRows_eq_nil_iff {check : Nat → List α → List Violation} {rows : List (List α)} :
    reportRows check rows = [] ↔ ∀ i (h : i < rows.length), check i rows[i] = [] := by
  simp only [reportRows, List.flatMap_eq_nil_iff, Prod.forall, List.mem_zipIdx_iff_getElem?]
  constructor
  · intro h i hi
    exact h _ i (List.getElem?_eq_getElem hi)
  · intro h row i he
    obtain ⟨hi, rfl⟩ := List.getElem?_eq_some_iff.mp he
    exact h i hi

@[simp] theorem reportNonFinite_eq_nil_iff {place : Place} {values : List α} :
    reportNonFinite place values = [] ↔ ∀ v ∈ values, Scalar.isFinite v = true := by
  unfold reportNonFinite
  split
  · next h =>
    obtain ⟨hi, hf, _⟩ := List.findIdx?_eq_some_iff_getElem.mp h
    simp only [reduceCtorEq, false_iff]
    intro hall
    simp [hall _ (List.getElem_mem hi)] at hf
  · next h => simpa using h

@[simp] theorem reportNegative_eq_nil_iff {place : Place} {values : List α} :
    reportNegative place values = [] ↔ ∀ v ∈ values, ¬ v < 0 := by
  unfold reportNegative
  split
  · next v i h =>
    simp only [reduceCtorEq, false_iff]
    intro hall
    exact hall v (List.fst_mem_of_mem_zipIdx (List.mem_of_find?_eq_some h))
      (by simpa using List.find?_some h)
  · next h =>
    simp only [List.find?_eq_none, decide_eq_true_eq, Prod.forall] at h
    simp only [true_iff]
    intro v hv
    obtain ⟨i, hi, rfl⟩ := List.mem_iff_getElem.mp hv
    exact h _ i (List.mem_zipIdx_iff_getElem?.mpr (List.getElem?_eq_getElem hi))

end Reports

/-- What the rows of a matrix have to be: as long as they should be, with finite entries. -/
def RowsFit [Scalar α] (rows : List (List α)) (length : Nat) : Prop :=
  ∀ row ∈ rows, row.length = length ∧ ∀ v ∈ row, Scalar.isFinite v = true

theorem rowsFit_iff_getElem [Scalar α] {rows : List (List α)} {length : Nat} :
    RowsFit rows length ↔ ∀ i (h : i < rows.length),
      rows[i].length = length ∧ ∀ v ∈ rows[i], Scalar.isFinite v = true :=
  List.forall_mem_iff_forall_getElem

variable [Scalar α]

structure LinearProgram.WellFormed (p : LinearProgram α) : Prop where
  objective_ne_nil : p.objective ≠ []
  objective_finite : ∀ v ∈ p.objective, Scalar.isFinite v = true
  rows_fit : RowsFit p.constraints p.variableCount
  rhs_length : p.rhs.length = p.rowCount
  rhs_finite : ∀ v ∈ p.rhs, Scalar.isFinite v = true
  signs_length : p.signs.length = p.rowCount

theorem LinearProgram.violations_eq_nil_iff {p : LinearProgram α} :
    p.violations = [] ↔ p.WellFormed := by
  simp only [violations, List.append_eq_nil_iff, reportUnless_eq_nil_iff, bne_iff_ne,
    reportNonFinite_eq_nil_iff, reportRows_eq_nil_iff, beq_iff_eq, ← rowsFit_iff_getElem,
    variableCount, ne_eq, List.length_eq_zero_iff]
  constructor
  · rintro ⟨⟨⟨⟨⟨hne, hobj⟩, hrows⟩, hrhs⟩, hfin⟩, hsigns⟩
    exact ⟨hne, hobj, hrows, hrhs, hfin, hsigns⟩
  · rintro ⟨hne, hobj, hrows, hrhs, hfin, hsigns⟩
    exact ⟨⟨⟨⟨⟨hne, hobj⟩, hrows⟩, hrhs⟩, hfin⟩, hsigns⟩

structure Assignment.Problem.WellFormed (p : Assignment.Problem α) : Prop where
  size_ne_zero : p.size ≠ 0
  rows_fit : RowsFit p.costs p.size

theorem Assignment.Problem.violations_eq_nil_iff {p : Assignment.Problem α} :
    p.violations = [] ↔ p.WellFormed := by
  simp only [violations, List.append_eq_nil_iff, reportUnless_eq_nil_iff, bne_iff_ne,
    reportNonFinite_eq_nil_iff, reportRows_eq_nil_iff, beq_iff_eq, ← rowsFit_iff_getElem]
  exact ⟨fun h => ⟨h.1, h.2⟩, fun h => ⟨h.1, h.2⟩⟩

structure Transportation.Problem.WellFormed (p : Transportation.Problem α) : Prop where
  sources_ne_zero : p.sources ≠ 0
  destinations_ne_zero : p.destinations ≠ 0
  supply_finite : ∀ v ∈ p.supply, Scalar.isFinite v = true
  demand_finite : ∀ v ∈ p.demand, Scalar.isFinite v = true
  supply_not_neg : ∀ v ∈ p.supply, ¬ v < 0
  demand_not_neg : ∀ v ∈ p.demand, ¬ v < 0
  costs_length : p.costs.length = p.sources
  rows_fit : RowsFit p.costs p.destinations

theorem Transportation.Problem.violations_eq_nil_iff {p : Transportation.Problem α} :
    p.violations = [] ↔ p.WellFormed := by
  simp only [violations, List.append_eq_nil_iff, reportUnless_eq_nil_iff, bne_iff_ne,
    reportNonFinite_eq_nil_iff, reportNegative_eq_nil_iff, reportRows_eq_nil_iff, beq_iff_eq,
    ← rowsFit_iff_getElem]
  constructor
  · rintro ⟨⟨⟨⟨⟨⟨⟨hm, hn⟩, hsf⟩, hdf⟩, hs⟩, hd⟩, hc⟩, hr⟩
    exact ⟨hm, hn, hsf, hdf, hs, hd, hc, hr⟩
  · rintro ⟨hm, hn, hsf, hdf, hs, hd, hc, hr⟩
    exact ⟨⟨⟨⟨⟨⟨⟨hm, hn⟩, hsf⟩, hdf⟩, hs⟩, hd⟩, hc⟩, hr⟩

end LeastCost
