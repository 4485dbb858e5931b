import LeastCost.Proofs.Transport.Shift

/-! # Shifts within a tolerance

A tie of a tie need not be a tie. The earlier donor wins each tie, so the amount of a shift can
exceed the least flow of the donors by the tolerance once for each of the other donors, and the
donor of least flow is then left with a negative flow. No flow becomes negative by more than the
tolerance if the donors that tie with each other are groups.
-/

namespace LeastCost.Transport

variable {m n : Nat} {b : Basis Rat m n} {c d e : Cell m n} {path : List (Cell m n)}
  {tolerance : Rat}

namespace Basis

/-- Flows within the tolerance of each other. -/
def Ties (b : Basis Rat m n) (tolerance : Rat) (d e : Cell m n) : Prop :=
  |b.flow d - b.flow e| ≤ tolerance

/-- A tie of a tie is a tie among the donors of a path. -/
def TiesChain (b : Basis Rat m n) (tolerance : Rat) (path : List (Cell m n)) : Prop :=
  ∀ d ∈ donors path, ∀ e ∈ donors path, ∀ f ∈ donors path,
    b.Ties tolerance d e → b.Ties tolerance e f → b.Ties tolerance d f

theorem leavingCell_le_add_of_tiesChain (ht : 0 ≤ tolerance) (hties : b.TiesChain tolerance path)
    (h : b.leavingCell tolerance path = some d) (he : e ∈ donors path) :
    b.flow d ≤ b.flow e + tolerance :=
  Selection.choose_tie_le_add_of_transitive b.flow ht hties h he

theorem flow_shiftAlongLoop_ge_iff (h : b.leavingCell tolerance path = some d)
    (h0 : ∀ e, 0 ≤ b.flow e) (hn : path.Nodup) (hc : c ∉ path) (ht : 0 ≤ tolerance) :
    (∀ e, -tolerance ≤ (b.shiftAlongLoop tolerance c path).2.flow e) ↔
      ∀ e ∈ donors path, b.flow d ≤ b.flow e + tolerance := by
  constructor
  · intro hge e he
    have hflow := hge e
    rw [flow_shiftAlongLoop_of_mem_donors hn hc h he] at hflow
    linarith
  · exact flow_shiftAlongLoop_ge h h0 hn hc ht

/-- A shift moves the flow of one of the donors. That flow can exceed the least one by more than
the tolerance, but not by more than the tolerance for each of the other donors, and so far at
most a flow becomes negative. No flow ends below zero by more than the tolerance exactly if the
amount exceeds the flow of no donor by more, as it is where a tie of a tie is a tie. -/
theorem Spans.shift_near_ties (h : b.Spans) (hc : b.isBasic c = false) (h0 : ∀ e, 0 ≤ b.flow e)
    (ht : 0 ≤ tolerance) :
    ∃ path, b.path? c = some path ∧
      let amount := (b.shiftAlongLoop tolerance c path).1
      let shifted := (b.shiftAlongLoop tolerance c path).2
      let drift : Rat := ((donors path).length - 1) * tolerance
      (∃ d ∈ donors path, b.flow d = amount) ∧
      (∀ d ∈ donors path, shifted.flow d = b.flow d - amount) ∧
      (∀ d ∈ donors path, amount ≤ b.flow d + drift) ∧
      (∀ e, -drift ≤ shifted.flow e) ∧
      ((∀ e, -tolerance ≤ shifted.flow e) ↔ ∀ d ∈ donors path, amount ≤ b.flow d + tolerance) ∧
      (b.TiesChain tolerance path → ∀ e, -tolerance ≤ shifted.flow e) := by
  obtain ⟨path, hpath⟩ := Option.isSome_iff_exists.mp (h.isSome_path c)
  obtain ⟨hroute, hn, hp⟩ := path_route hpath
  have hmem := notMem_path hp hc
  obtain ⟨d, hd⟩ := b.exists_leavingCell tolerance hroute.ne_nil
  have hdonor := leavingCell_mem hd
  have hamount : (b.shiftAlongLoop tolerance c path).1 = b.flow d := by
    simp only [Basis.shiftAlongLoop, hd]
  have hdrift : 0 ≤ (((donors path).length : Rat) - 1) * tolerance := by
    have hone : (1 : Rat) ≤ (donors path).length :=
      Nat.one_le_cast.mpr (List.length_pos_of_mem hdonor)
    exact mul_nonneg (sub_nonneg.mpr hone) ht
  have hiff := flow_shiftAlongLoop_ge_iff hd h0 hn hmem ht
  refine ⟨path, hpath, ?_⟩
  dsimp only
  rw [hamount]
  exact ⟨⟨d, hdonor, rfl⟩, fun e => flow_shiftAlongLoop_of_mem_donors hn hmem hd,
    fun e => leavingCell_le_add_others ht hd,
    flow_shiftAlongLoop_ge hd h0 hn hmem hdrift fun e => leavingCell_le_add_others ht hd,
    hiff, fun hties => hiff.mpr fun e => leavingCell_le_add_of_tiesChain ht hties hd⟩

end Basis

/-- A network with flows close to each other on the loop of the last cell. -/
def crowded : Network Rat 3 3 :=
  { supply := .ofFn ![2 + 1 / 2 ^ 30, 5 + 4 / 2 ^ 30, 1]
    demand := .ofFn ![5 + 3 / 2 ^ 30, 2, 1 + 2 / 2 ^ 30]
    costs := .ofFn ![![6, 3, 5], ![5, 4, 8], ![0, 0, 0]] }

theorem crowded_spans : (vogel crowded 0).Spans :=
  vogel_spans ⟨by decide +kernel, by decide +kernel⟩ (by decide) (by decide)

theorem path?_crowded : (vogel crowded 0).path? (2, 2) =
    some [(2, 0), (1, 0), (1, 1), (0, 1), (0, 2)] := by decide +kernel

/-- With two ties in a row the least of three donors ends below zero by more than the tolerance. -/
theorem crowded_overdrawn :
    let b := vogel crowded 0
    b.Spans ∧ b.isBasic (2, 2) = false ∧ (∀ e, 0 ≤ b.flow e) ∧
      ∃ path, b.path? (2, 2) = some path ∧
        b.flow (2, 0) + 1 / 10 ^ 9 < (b.shiftAlongLoop (1 / 10 ^ 9) (2, 2) path).1 ∧
        (b.shiftAlongLoop (1 / 10 ^ 9) (2, 2) path).2.flow (2, 0) < -(1 / 10 ^ 9) :=
  ⟨crowded_spans, by decide +kernel, by decide +kernel, _, path?_crowded, by decide +kernel,
    by decide +kernel⟩

/-- The greatest drift is reached where each donor ties with the next one only. -/
theorem crowded_near_ties :
    let b := vogel crowded 0
    b.Spans ∧ b.isBasic (2, 2) = false ∧ (∀ e, 0 ≤ b.flow e) ∧
      ∃ path, b.path? (2, 2) = some path ∧ (donors path).length = 3 ∧
        let shifted := (b.shiftAlongLoop (1 / 2 ^ 30) (2, 2) path).2
        let drift : Rat := ((donors path).length - 1) * (1 / 2 ^ 30)
        (∀ e, -drift ≤ shifted.flow e) ∧ shifted.flow (2, 0) = -drift := by
  have hbasic : (vogel crowded 0).isBasic (2, 2) = false := by decide +kernel
  have hflows : ∀ e, 0 ≤ (vogel crowded 0).flow e := by decide +kernel
  obtain ⟨path, hpath, -, -, -, hdrift, -⟩ :=
    crowded_spans.shift_near_ties hbasic hflows (by decide +kernel : (0 : Rat) ≤ 1 / 2 ^ 30)
  obtain rfl := Option.some.inj (hpath.symm.trans path?_crowded)
  exact ⟨crowded_spans, hbasic, hflows, _, path?_crowded, rfl, hdrift, by decide +kernel⟩

end LeastCost.Transport
