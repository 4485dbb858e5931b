import LeastCost.Proofs.Selection
import LeastCost.Proofs.Transport.Traversal
import LeastCost.Transport.Solve

/-! # Exchanged cells

A loop is closed by the entering cell and opened again by the leaving one. Whatever the flows
are, the cells remain a forest: without the leaving cell the ends of the entering one are
apart. What one such step keeps, all steps of an improvement keep.
-/

namespace LeastCost.Transport

variable {m n : Nat} {cells : Set (Cell m n)} {path : List (Cell m n)} {c d : Cell m n}
  {x y : Node m n}

theorem Cell.Joins.reachable (h : c.Joins x y) (hc : Joined cells c) :
    (cellGraph cells).Reachable x y := by
  rcases h with ⟨rfl, rfl⟩ | ⟨rfl, rfl⟩
  · exact hc
  · exact hc.symm

theorem Cell.Joins.joined (h : c.Joins x y) (hr : (cellGraph cells).Reachable x y) :
    Joined cells c := by
  rcases h with ⟨rfl, rfl⟩ | ⟨rfl, rfl⟩
  · exact hr
  · exact hr.symm

theorem Route.reachable (h : Route x y path) (hp : ∀ c ∈ path, Joined cells c) :
    (cellGraph cells).Reachable x y := by
  induction path generalizing x with
  | nil =>
    obtain rfl : x = y := h
    exact .refl x
  | cons c path ih =>
    obtain ⟨z, hc, h⟩ := h
    exact (hc.reachable (hp c List.mem_cons_self)).trans
      (ih h fun d hd => hp d (List.mem_cons_of_mem c hd))

/-- When the ends of a route are connected, one missing cell of it makes no difference. -/
theorem Route.joined (h : Route x y path) (hn : path.Nodup) (hd : d ∈ path)
    (hp : ∀ c ∈ path, c ≠ d → Joined cells c) (hr : (cellGraph cells).Reachable x y) :
    Joined cells d := by
  induction path generalizing x with
  | nil => cases hd
  | cons c path ih =>
    obtain ⟨z, hc, h⟩ := h
    rw [List.nodup_cons] at hn
    rcases List.mem_cons.mp hd with rfl | hd
    · have hrest : (cellGraph cells).Reachable z y := by
        refine h.reachable fun e he => hp e (List.mem_cons_of_mem d he) ?_
        rintro rfl
        exact hn.1 he
      exact hc.joined (hr.trans hrest.symm)
    · have hne : c ≠ d := by
        rintro rfl
        exact hn.1 hd
      have hstep := hc.reachable (hp c List.mem_cons_self hne)
      exact ih h hn.2 hd (fun e he => hp e (List.mem_cons_of_mem c he)) (hstep.symm.trans hr)

theorem exchange_acyclic (h : (cellGraph cells).IsAcyclic)
    (hroute : Route (.inl c.1) (.inr c.2) path) (hn : path.Nodup) (hp : ∀ e ∈ path, e ∈ cells)
    (hd : d ∈ path) : (cellGraph (insert c (cells \ {d}))).IsAcyclic := by
  rw [← Set.insert_sdiff_self_of_mem (hp d hd)] at h
  obtain ⟨hforest, happart⟩ := (isAcyclic_insert_iff (by simp)).mp h
  have hc : ¬ Joined (cells \ {d}) c := fun hj =>
    happart (hroute.joined hn hd (fun e he hne => joined_of_mem ⟨hp e he, hne⟩) hj)
  exact (isAcyclic_insert_iff fun hm => hc (joined_of_mem hm)).mpr ⟨hforest, hc⟩

theorem mem_of_mem_donors {ι : Type} {path : List ι} {d : ι} (h : d ∈ donors path) :
    d ∈ path := by
  induction path using donors.induct with
  | case1 => cases h
  | case2 donor => exact h
  | case3 donor taker rest ih =>
    rcases List.mem_cons.mp h with rfl | h
    · exact List.mem_cons_self
    · exact List.mem_cons_of_mem _ (List.mem_cons_of_mem _ (ih h))

namespace Basis

variable {α : Type} [Scalar α] {b : Basis α m n} {tolerance amount : α}

theorem basics_alternate (amount : α) (path : List (Cell m n)) (b : Basis α m n) :
    (alternate amount path b).basics = b.basics := by
  induction path using donors.induct generalizing b with
  | case1 => rfl
  | case2 donor => rfl
  | case3 donor taker rest ih => exact ih _

theorem leavingCell_mem (h : b.leavingCell tolerance path = some d) : d ∈ donors path :=
  Selection.mem_of_choose h

theorem basics_shiftAlongLoop (hc : b.isBasic c = false) (hp : ∀ e ∈ path, b.isBasic e = true)
    (h : b.leavingCell tolerance path = some d) :
    (b.shiftAlongLoop tolerance c path).2.basics = Insert.insert c (b.basics \ {d}) := by
  have hne : c ≠ d := by
    rintro rfl
    exact notMem_path hp hc (mem_of_mem_donors (leavingCell_mem h))
  simp only [shiftAlongLoop, h]
  rw [basics_erase, basics_adjust, basics_insert, basics_adjust, basics_alternate,
    Set.insert_sdiff_of_notMem _ (by simpa using hne)]

theorem shiftAlongLoop_acyclic (hforest : (cellGraph b.basics).IsAcyclic)
    (hc : b.isBasic c = false) (hpath : b.path? c = some path) :
    (cellGraph (b.shiftAlongLoop tolerance c path).2.basics).IsAcyclic := by
  obtain ⟨hroute, hn, hp⟩ := path_route hpath
  cases h : b.leavingCell tolerance path with
  | none =>
    simp only [shiftAlongLoop, h]
    exact hforest
  | some d =>
    rw [basics_shiftAlongLoop hc hp h]
    exact exchange_acyclic hforest hroute hn hp (mem_of_mem_donors (leavingCell_mem h))

end Basis

section Improvement

variable {α : Type} [Scalar α] {net : Network α m n} {b : Basis α m n}
  {tolerance threshold : α} {budget steps : Nat} {r : Improved α m n}

theorem improve_of_potentials_eq_none (hq : b.potentials? net = none) :
    improve net tolerance threshold budget steps b = .error .basisNotSpanning := by
  unfold improve
  rw [hq]

section Entering

variable {q : Potentials α m n} (hq : b.potentials? net = some q)

include hq

theorem improve_of_enteringCell_eq_none (hc : b.enteringCell net threshold q = none) :
    improve net tolerance threshold budget steps b = .ok ⟨true, b, steps⟩ := by
  unfold improve
  simp only [hq, hc]

variable (hc : b.enteringCell net threshold q = some c)

include hc

theorem improve_zero :
    improve net tolerance threshold 0 steps b = .ok ⟨false, b, steps⟩ := by
  unfold improve
  simp only [hq, hc]

theorem improve_of_path_eq_none (hp : b.path? c = none) :
    improve net tolerance threshold (budget + 1) steps b = .error (.noClosedLoop c.1 c.2) := by
  unfold improve
  simp only [hq, hc, hp]

theorem improve_succ (hp : b.path? c = some path) :
    improve net tolerance threshold (budget + 1) steps b =
      improve net tolerance threshold budget (steps + 1)
        (b.shiftAlongLoop tolerance c path).2 := by
  conv => lhs; unfold improve
  simp only [hq, hc, hp]

end Entering

/-- A run ends at once, for want of a cell to enter or of budget, or makes one step and goes
on. -/
theorem improve_cases (h : improve net tolerance threshold budget steps b = .ok r) :
    ∃ q, b.potentials? net = some q ∧
      ((b.enteringCell net threshold q = none ∧ r = ⟨true, b, steps⟩) ∨
        (budget = 0 ∧ r = ⟨false, b, steps⟩) ∨
        ∃ c path left, b.enteringCell net threshold q = some c ∧ b.path? c = some path ∧
          budget = left + 1 ∧ improve net tolerance threshold left (steps + 1)
            (b.shiftAlongLoop tolerance c path).2 = .ok r) := by
  unfold improve at h
  split at h
  · cases h
  · next q hq =>
    refine ⟨q, hq, ?_⟩
    split at h
    · next hentering => exact Or.inl ⟨hentering, (Except.ok.inj h).symm⟩
    · next c hentering =>
      cases budget with
      | zero => exact Or.inr (Or.inl ⟨rfl, (Except.ok.inj h).symm⟩)
      | succ left =>
        dsimp only at h
        split at h
        · cases h
        · next path hpath =>
          exact Or.inr (Or.inr ⟨c, path, left, hentering, hpath, rfl, h⟩)

theorem isBasic_enteringCell {q : Potentials α m n}
    (h : b.enteringCell net threshold q = some c) : b.isBasic c = false := by
  have hmem := Selection.mem_of_firstLeast h
  simp only [List.mem_filter, Bool.and_eq_true, Bool.not_eq_true'] at hmem
  exact hmem.2.1

theorem improve_induction {motive : Basis α m n → Prop}
    (step : ∀ b c path, motive b → b.isBasic c = false → b.path? c = some path →
      motive (b.shiftAlongLoop tolerance c path).2)
    (h : motive b) (hr : improve net tolerance threshold budget steps b = .ok r) :
    motive r.basis ∧ (r.isOptimal = true → ∃ q, r.basis.potentials? net = some q ∧
      r.basis.enteringCell net threshold q = none) := by
  induction budget generalizing b steps with
  | zero =>
    obtain ⟨q, hq, ⟨hentering, rfl⟩ | ⟨-, rfl⟩ | ⟨c, path, left, -, -, hleft, -⟩⟩ :=
      improve_cases hr
    · exact ⟨h, fun _ => ⟨q, hq, hentering⟩⟩
    · exact ⟨h, fun hoptimal => by cases hoptimal⟩
    · cases hleft
  | succ budget ih =>
    obtain ⟨q, hq, ⟨hentering, rfl⟩ | ⟨hzero, -⟩ | ⟨c, path, left, hentering, hpath, hleft, hr⟩⟩ :=
      improve_cases hr
    · exact ⟨h, fun _ => ⟨q, hq, hentering⟩⟩
    · cases hzero
    · obtain rfl := Nat.succ.inj hleft
      exact ih (step b c path h (isBasic_enteringCell hentering) hpath) hr

end Improvement

end LeastCost.Transport
