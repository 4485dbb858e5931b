import LeastCost.Hungarian.Solve
import LeastCost.Proofs.Problem.WellFormed
import LeastCost.Simplex.Solve
import LeastCost.Transport.Solve

/-! # Reports of validation

A problem is a list of checks in a fixed order, each with its own message. Validation reports the
messages of the checks that fail, one for each and in their order, and the engines reject exactly
the problems that it reports something about.
-/

namespace LeastCost

/-- One check of a problem: what it asks for, and what is said where that fails. -/
structure Check where
  Holds : Prop
  Says : String → Prop

/-- The messages of the checks that fail, one for each, in the order of the checks. -/
inductive Reports : List Check → List String → Prop
  | nil : Reports [] []
  | holds {c : Check} {checks : List Check} {messages : List String} :
      c.Holds → Reports checks messages → Reports (c :: checks) messages
  | fails {c : Check} {checks : List Check} {message : String} {messages : List String} :
      ¬ c.Holds → c.Says message → Reports checks messages →
        Reports (c :: checks) (message :: messages)

variable {α : Type}

namespace Check

def condition (holds : Prop) (violation : Violation) : Check := ⟨holds, (· = violation.message)⟩

/-- No entry is bad. The message is about the first one that is, and its index. -/
def entries (bad : α → Prop) (message : α → Nat → String) (values : List α) : Check where
  Holds := ∀ v ∈ values, ¬ bad v
  Says text := ∃ before v after, values = before ++ v :: after ∧ (∀ w ∈ before, ¬ bad w) ∧
    bad v ∧ text = message v before.length

variable [Scalar α]

def finite (place : Place) : List α → Check :=
  entries (fun v => ¬ Scalar.isFinite v = true) fun _ index =>
    place.name ++ " contains a non-finite value at index " ++ toString index

def nonNegative (place : Place) : List α → Check :=
  entries (· < 0) fun v index =>
    place.name ++ " must be non-negative, found " ++ Scalar.text v ++ " at index " ++
      toString index

end Check

/-- The checks of each row of a matrix, row by row. The rows are counted from a number on. -/
def rowChecks (checks : Nat → List α → List Check) : Nat → List (List α) → List Check
  | _, [] => []
  | index, row :: rows => checks index row ++ rowChecks checks (index + 1) rows

section Problems

variable [Scalar α]

def LinearProgram.checks (p : LinearProgram α) : List Check :=
  [.condition (p.objective ≠ []) .emptyObjective, .finite .objective p.objective] ++
  rowChecks (fun index row =>
    [.condition (row.length = p.variableCount)
      (.constraintLength index row.length p.variableCount), .finite (.constraint index) row])
    0 p.constraints ++
  [.condition (p.rhs.length = p.rowCount) (.boundCount p.rhs.length p.rowCount),
    .finite .rightHandSide p.rhs,
    .condition (p.signs.length = p.rowCount) (.signCount p.signs.length p.rowCount)]

def Assignment.Problem.checks (p : Assignment.Problem α) : List Check :=
  [.condition (p.size ≠ 0) .emptyMatrix] ++
  rowChecks (fun index row =>
    [.condition (row.length = p.size) (.notSquare index row.length p.size),
      .finite (.costRow index) row])
    0 p.costs

def Transportation.Problem.checks (p : Transportation.Problem α) : List Check :=
  [.condition (p.sources ≠ 0) .noSource, .condition (p.destinations ≠ 0) .noDestination,
    .finite .supply p.supply, .finite .demand p.demand, .nonNegative .supply p.supply,
    .nonNegative .demand p.demand,
    .condition (p.costs.length = p.sources) (.costRowCount p.costs.length p.sources)] ++
  rowChecks (fun index row =>
    [.condition (row.length = p.destinations)
      (.costRowLength index row.length p.destinations), .finite (.costRow index) row])
    0 p.costs

end Problems

namespace Reports

variable {c : Check} {checks checks' : List Check} {messages messages' : List String}

theorem append (h : Reports checks messages) (h' : Reports checks' messages') :
    Reports (checks ++ checks') (messages ++ messages') := by
  induction h with
  | nil => exact h'
  | holds hc _ ih => exact .holds hc ih
  | fails hc htext _ ih => exact .fails hc htext ih

theorem of_holds (h : c.Holds) : Reports [c] [] := .holds h .nil

theorem of_fails {message : String} (h : ¬ c.Holds) (htext : c.Says message) :
    Reports [c] [message] :=
  .fails h htext .nil

theorem reportUnless {holds : Bool} {P : Prop} (h : holds = true ↔ P) (violation : Violation) :
    Reports [.condition P violation]
      ((LeastCost.reportUnless holds violation).map Violation.message) := by
  cases holds with
  | true => exact of_holds (h.mp rfl)
  | false => exact of_fails (fun hP => Bool.false_ne_true (h.mpr hP)) rfl

theorem reportUnless_beq (m n : Nat) (violation : Violation) : Reports
    [.condition (m = n) violation]
    ((LeastCost.reportUnless (m == n) violation).map Violation.message) :=
  reportUnless beq_iff_eq violation

theorem reportUnless_bne (m n : Nat) (violation : Violation) : Reports
    [.condition (m ≠ n) violation]
    ((LeastCost.reportUnless (m != n) violation).map Violation.message) :=
  reportUnless bne_iff_ne violation

theorem rows {check : Nat → List α → List Violation} {rowCheck : Nat → List α → List Check}
    (h : ∀ index row, Reports (rowCheck index row) ((check index row).map Violation.message))
    (matrix : List (List α)) : Reports (rowChecks rowCheck 0 matrix)
      ((reportRows check matrix).map Violation.message) := by
  unfold reportRows
  generalize 0 = first
  induction matrix generalizing first with
  | nil => exact .nil
  | cons row matrix ih =>
    rw [List.zipIdx_cons, List.flatMap_cons, List.map_append]
    exact (h first row).append (ih (first + 1))

theorem of_find?_zipIdx (test : α → Bool) {values : List α} {first index : Nat} {v : α}
    (h : (values.zipIdx first).find? (fun x => test x.1) = some (v, index)) :
    ∃ before after, values = before ++ v :: after ∧ (∀ w ∈ before, test w = false) ∧
      test v = true ∧ index = first + before.length := by
  induction values generalizing first with
  | nil => cases h
  | cons x values ih =>
    rw [List.zipIdx_cons, List.find?_cons] at h
    cases hx : test x with
    | true =>
      simp only [hx, Option.some.injEq, Prod.mk.injEq] at h
      obtain ⟨rfl, rfl⟩ := h
      exact ⟨[], values, rfl, by simp, hx, rfl⟩
    | false =>
      simp only [hx] at h
      obtain ⟨before, after, rfl, hbefore, hv, rfl⟩ := ih h
      refine ⟨x :: before, after, rfl, ?_, hv, by rw [List.length_cons]; omega⟩
      exact List.forall_mem_cons.mpr ⟨hx, hbefore⟩

variable [Scalar α]

theorem reportNonFinite (place : Place) (values : List α) : Reports [.finite place values]
    ((LeastCost.reportNonFinite place values).map Violation.message) := by
  unfold LeastCost.reportNonFinite
  split
  · next index h =>
    obtain ⟨hlt, hbad, hbefore⟩ := List.findIdx?_eq_some_iff_getElem.mp h
    have hvalues : values = values.take index ++ values[index] :: values.drop (index + 1) := by
      rw [List.getElem_cons_drop, List.take_append_drop]
    refine of_fails (fun hall => hall _ (List.getElem_mem hlt) (by simpa using hbad)) ?_
    refine ⟨_, _, _, hvalues, fun w hw => ?_, by simpa using hbad, ?_⟩
    · obtain ⟨k, hk, rfl⟩ := List.mem_take_iff_getElem.mp hw
      simpa using hbefore k (by omega)
    · rw [List.length_take, Nat.min_eq_left (Nat.le_of_lt hlt)]
      rfl
  · next h => exact of_holds fun v hv => by simpa using List.findIdx?_eq_none_iff.mp h v hv

theorem reportNegative (place : Place) (values : List α) : Reports [.nonNegative place values]
    ((LeastCost.reportNegative place values).map Violation.message) := by
  unfold LeastCost.reportNegative
  split
  · next v index h =>
    obtain ⟨before, after, rfl, hbefore, hv, rfl⟩ := of_find?_zipIdx (fun x => decide (x < 0)) h
    rw [decide_eq_true_eq] at hv
    refine of_fails (fun hall => hall v (by simp) hv) ⟨before, v, after, rfl, ?_, hv, ?_⟩
    · exact fun w hw => of_decide_eq_false (hbefore w hw)
    · rw [Nat.zero_add]
      rfl
  · next h =>
    have hnil : LeastCost.reportNegative place values = [] := by
      unfold LeastCost.reportNegative
      rw [h]
    exact of_holds (reportNegative_eq_nil_iff.mp hnil)

theorem row (m n : Nat) (violation : Violation) (place : Place) (values : List α) : Reports
    [.condition (m = n) violation, .finite place values]
    ((LeastCost.reportUnless (m == n) violation ++
      LeastCost.reportNonFinite place values).map Violation.message) := by
  rw [List.map_append]
  exact (reportUnless_beq m n violation).append (reportNonFinite place values)

theorem linearProgram (p : LinearProgram α) :
    Reports p.checks (p.violations.map Violation.message) := by
  have hobjective : (p.variableCount != 0) = true ↔ p.objective ≠ [] := by
    rw [bne_iff_ne, LinearProgram.variableCount, ne_eq, List.length_eq_zero_iff]
  have hhead := (reportUnless hobjective .emptyObjective).append
    (reportNonFinite .objective p.objective)
  have hrows := rows (fun index values => row values.length p.variableCount
    (.constraintLength index values.length p.variableCount) (.constraint index) values)
    p.constraints
  have hbounds := (reportUnless_beq p.rhs.length p.rowCount
    (.boundCount p.rhs.length p.rowCount)).append (reportNonFinite .rightHandSide p.rhs)
  have hsigns := reportUnless_beq p.signs.length p.rowCount
    (.signCount p.signs.length p.rowCount)
  have hall := (hhead.append hrows).append (hbounds.append hsigns)
  simp only [LinearProgram.violations, List.map_append, List.append_assoc] at hall ⊢
  exact hall

theorem assignment (p : Assignment.Problem α) :
    Reports p.checks (p.violations.map Violation.message) := by
  have hrows := rows (fun index values => row values.length p.size
    (.notSquare index values.length p.size) (.costRow index) values) p.costs
  have hall := (reportUnless_bne p.size 0 .emptyMatrix).append hrows
  rw [← List.map_append] at hall
  exact hall

theorem transportation (p : Transportation.Problem α) :
    Reports p.checks (p.violations.map Violation.message) := by
  have hnodes := (reportUnless_bne p.sources 0 .noSource).append
    (reportUnless_bne p.destinations 0 .noDestination)
  have hfinite := (reportNonFinite .supply p.supply).append (reportNonFinite .demand p.demand)
  have hnegative := (reportNegative .supply p.supply).append (reportNegative .demand p.demand)
  have hcount := reportUnless_beq p.costs.length p.sources
    (.costRowCount p.costs.length p.sources)
  have hrows := rows (fun index values => row values.length p.destinations
    (.costRowLength index values.length p.destinations) (.costRow index) values) p.costs
  have hall := (((hnodes.append hfinite).append hnegative).append hcount).append hrows
  simp only [Transportation.Problem.violations, List.map_append, List.append_assoc] at hall ⊢
  exact hall

end Reports

/-- What a problem is told: nothing if it is well formed, else what its checks report, and the
same as a rejection. -/
structure Validated {σ : Type} (WellFormed : Prop) (checks : List Check)
    (violations : List Violation) (solved : Except Failure σ) : Prop where
  nil_iff : violations = [] ↔ WellFormed
  reports : Reports checks (violations.map Violation.message)
  rejected_iff : (∃ found, solved = .error (.invalidProblem found)) ↔ violations ≠ []
  rejection : ∀ found, solved = .error (.invalidProblem found) → ∀ wording,
    (Failure.invalidProblem found).message wording =
      "Invalid problem: " ++ "; ".intercalate (violations.map Violation.message)

theorem Validated.of_accept {σ : Type} {WellFormed : Prop} {checks : List Check}
    {violations : List Violation} (solve : Except EngineFault σ)
    (hnil : violations = [] ↔ WellFormed)
    (hreports : Reports checks (violations.map Violation.message)) :
    Validated WellFormed checks violations (accept violations solve) where
  nil_iff := hnil
  reports := hreports
  rejected_iff := by
    cases violations with
    | nil => cases solve <;> simp
    | cons v violations => simp
  rejection found h wording := by
    cases violations with
    | nil => cases solve <;> simp at h
    | cons v violations =>
      simp only [accept_cons, Except.error.injEq] at h
      rw [← h]
      rfl

/-- Validation has nothing to report exactly about well-formed problems. Otherwise it has one
message for each check that fails, in the order of the checks, and the engines reject the problem
with all of them. -/
theorem problems_validated [Scalar α] (s : Settings α) :
    (∀ p : LinearProgram α,
      Validated p.WellFormed p.checks p.violations (Simplex.solve s p)) ∧
    (∀ p : Assignment.Problem α,
      Validated p.WellFormed p.checks p.violations (Hungarian.solve s p)) ∧
    (∀ p : Transportation.Problem α,
      Validated p.WellFormed p.checks p.violations (Transport.solve s p)) :=
  ⟨fun p => .of_accept _ LinearProgram.violations_eq_nil_iff (.linearProgram p),
    fun p => .of_accept _ Assignment.Problem.violations_eq_nil_iff (.assignment p),
    fun p => .of_accept _ Transportation.Problem.violations_eq_nil_iff (.transportation p)⟩

end LeastCost
