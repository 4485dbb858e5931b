import Mathlib.Data.Fintype.BigOperators
import Mathlib.Logic.Equiv.Fin.Basic
import LeastCost.Proofs.Simplex.StandardForm
import LeastCost.Proofs.Transport.Balanced

/-! # Shipping as a linear program

The amounts on all links of a transportation problem are the variables of a linear program, one
source after the other. Its feasible points are the amounts that meet the problem, and its
objective is their cost.
-/

namespace LeastCost.Transportation.Problem

open scoped BigOperators

section Definitions

variable {α : Type} [Scalar α] (p : Problem α)

/-- The signs of the source rows and of the destination rows: the lesser total is used up. -/
def rowSigns : Sign × Sign :=
  if p.totalDemand ≤ p.totalSupply then (.lessEqual, .equal) else (.equal, .lessEqual)

def flat {m n : Nat} (x : Fin m → Fin n → α) : List α :=
  List.ofFn fun k : Fin (m * n) => x k.divNat k.modNat

def fromSource {m : Nat} (n : Nat) (i : Fin m) : Fin m → Fin n → α :=
  fun i' _ => if i' = i then 1 else 0

def toDestination (m : Nat) {n : Nat} (j : Fin n) : Fin m → Fin n → α :=
  fun _ j' => if j' = j then 1 else 0

/-- Least cost over the flows of all links, with one row for each source and one row for each
destination. -/
def toProgram : LinearProgram α :=
  { direction := .minimize
    objective := p.costs.flatten
    constraints :=
      List.ofFn (fun i : Fin p.sources => flat (fromSource p.destinations i)) ++
        List.ofFn fun j : Fin p.destinations => flat (toDestination p.sources j)
    signs := List.replicate p.sources p.rowSigns.1 ++ List.replicate p.destinations p.rowSigns.2
    rhs := p.supply ++ p.demand }

end Definitions

variable {m n : Nat} {p : Problem Rat} {x : Fin p.sources → Fin p.destinations → Rat}

section Points

theorem divNat_link (i : Fin m) (j : Fin n) : (finProdFinEquiv (i, j)).divNat = i :=
  congrArg Prod.fst (finProdFinEquiv.symm_apply_apply (i, j))

theorem modNat_link (i : Fin m) (j : Fin n) : (finProdFinEquiv (i, j)).modNat = j :=
  congrArg Prod.snd (finProdFinEquiv.symm_apply_apply (i, j))

@[simp] theorem length_flat (x : Fin m → Fin n → Rat) : (flat x).length = m * n := by
  simp [flat]

theorem forall_mem_flat_iff {x : Fin m → Fin n → Rat} {P : Rat → Prop} :
    (∀ v ∈ flat x, P v) ↔ ∀ i j, P (x i j) := by
  simp only [flat, List.forall_mem_ofFn_iff]
  constructor
  · intro h i j
    have hk := h (finProdFinEquiv (i, j))
    rwa [divNat_link, modNat_link] at hk
  · intro h k
    exact h _ _

theorem exists_flat {l : List Rat} (h : l.length = m * n) :
    ∃ x : Fin m → Fin n → Rat, l = flat x := by
  refine ⟨fun i j => l.get ((finProdFinEquiv (i, j)).cast h.symm), ?_⟩
  apply List.ext_getElem
  · simp [h]
  · intro k hk hk'
    have he := congrArg Fin.val (finProdFinEquiv.apply_symm_apply (⟨k, h ▸ hk⟩ : Fin (m * n)))
    simp only [flat, List.getElem_ofFn, List.get_eq_getElem, Fin.val_cast]
    exact (getElem_congr_idx he).symm

theorem flatten_ofFn (x : Fin m → Fin n → Rat) :
    (List.ofFn fun i => List.ofFn (x i)).flatten = flat x := by
  have hrow : ∀ i : Fin m, List.ofFn (x i) = List.ofFn fun j : Fin n =>
      (fun k : Fin (m * n) => x k.divNat k.modNat) (finProdFinEquiv (i, j)) :=
    fun i => congrArg List.ofFn (funext fun j => by simp only [divNat_link, modNat_link])
  simp only [hrow]
  rw [flat, List.ofFn_mul]
  congr 1
  refine congrArg List.ofFn (funext fun i => congrArg List.ofFn (funext fun j => ?_))
  have hk : finProdFinEquiv (i, j) = (⟨i * n + j, by
      rw [Nat.mul_comm, Nat.add_comm]; exact (finProdFinEquiv (i, j)).isLt⟩ : Fin (m * n)) := by
    ext
    simp [Nat.mul_comm, Nat.add_comm]
  rw [hk]

theorem dot_flat (f x : Fin m → Fin n → Rat) :
    Scalar.dot (flat f) (flat x) = ∑ i, ∑ j, f i j * x i j := by
  rw [Scalar.dot_rat, flat, flat, Transport.zipWith_ofFn, List.sum_ofFn,
    ← Fintype.sum_prod_type']
  exact finProdFinEquiv.symm.sum_comp fun c : Fin m × Fin n => f c.1 c.2 * x c.1 c.2

theorem dot_source (i : Fin m) (x : Fin m → Fin n → Rat) :
    Scalar.dot (flat (fromSource n i)) (flat x) = ∑ j, x i j := by
  rw [dot_flat, Finset.sum_comm]
  simp [fromSource]

theorem dot_destination (j : Fin n) (x : Fin m → Fin n → Rat) :
    Scalar.dot (flat (toDestination m j)) (flat x) = ∑ i, x i j := by
  simp [dot_flat, toDestination]

end Points

section Rows

theorem supply_eq_ofFn (p : Problem Rat) : p.supply = List.ofFn p.supplyAt :=
  (List.ofFn_get p.supply).symm

theorem demand_eq_ofFn (p : Problem Rat) : p.demand = List.ofFn p.demandAt :=
  (List.ofFn_get p.demand).symm

theorem replicate_eq_ofFn (n : Nat) (sign : Sign) :
    List.replicate n sign = List.ofFn fun _ : Fin n => sign :=
  (List.ofFn_const n sign).symm

theorem rowList_toProgram (p : Problem Rat) : p.toProgram.rowList =
    List.ofFn (fun i => ⟨flat (fromSource p.destinations i), p.rowSigns.1, p.supplyAt i⟩) ++
      List.ofFn fun j => ⟨flat (toDestination p.sources j), p.rowSigns.2, p.demandAt j⟩ := by
  rw [LinearProgram.rowList, toProgram]
  rw [supply_eq_ofFn p, demand_eq_ofFn p]
  simp only [replicate_eq_ofFn]
  rw [List.zip_append (by simp), List.zip_append (by simp)]
  simp only [List.zip, Transport.zipWith_ofFn, List.map_append, List.map_ofFn]
  rfl

/-- The rows of the program say what it is to meet the problem, once for each side that can have
the greater total. -/
theorem rows_hold_iff : (∀ r ∈ p.toProgram.rowList, r.Holds (flat x)) ↔
    if p.totalDemand ≤ p.totalSupply then
      (∀ i, ∑ j, x i j ≤ p.supplyAt i) ∧ ∀ j, ∑ i, x i j = p.demandAt j
    else (∀ i, ∑ j, x i j = p.supplyAt i) ∧ ∀ j, ∑ i, x i j ≤ p.demandAt j := by
  simp only [rowList_toProgram, List.forall_mem_append, List.forall_mem_ofFn_iff, rowSigns]
  split <;> simp only [LinearProgram.Row.Holds, dot_source, dot_destination]

theorem rows_eq_of_le (hle : p.totalSupply ≤ p.totalDemand)
    (hrows : ∀ i, ∑ j, x i j ≤ p.supplyAt i) (hcolumns : ∀ j, ∑ i, x i j = p.demandAt j) :
    ∀ i, ∑ j, x i j = p.supplyAt i := by
  have hsum : ∑ i, p.supplyAt i ≤ ∑ i, ∑ j, x i j := by
    rw [Transport.sum_supplyAt, Finset.sum_comm, Finset.sum_congr rfl fun j _ => hcolumns j,
      Transport.sum_demandAt]
    exact hle
  have heq := (Finset.sum_eq_sum_iff_of_le fun i _ => hrows i).mp
    (le_antisymm (Finset.sum_le_sum fun i _ => hrows i) hsum)
  exact fun i => heq i (Finset.mem_univ i)

theorem meets_iff : p.Meets x ↔ (∀ i j, 0 ≤ x i j) ∧
    if p.totalDemand ≤ p.totalSupply then
      (∀ i, ∑ j, x i j ≤ p.supplyAt i) ∧ ∀ j, ∑ i, x i j = p.demandAt j
    else (∀ i, ∑ j, x i j = p.supplyAt i) ∧ ∀ j, ∑ i, x i j ≤ p.demandAt j := by
  constructor
  · intro h
    refine ⟨h.nonneg, ?_⟩
    split
    · next hle => exact (h.of_demand_le hle).symm
    · next hlt => exact h.of_supply_le (not_le.mp hlt).le
  · rintro ⟨h0, h⟩
    split at h
    · next hle =>
      refine ⟨h0, fun _ => h.symm, fun hle' => ?_⟩
      exact ⟨rows_eq_of_le hle' h.1 h.2, fun j => (h.2 j).le⟩
    · next hlt => exact ⟨h0, fun hle => absurd hle hlt, fun _ => h⟩

end Rows

section Program

theorem variableCount_toProgram (h : p.WellFormed) :
    p.toProgram.variableCount = p.sources * p.destinations := by
  rw [LinearProgram.variableCount, toProgram, Transport.costs_eq_ofFn h, flatten_ofFn, length_flat]

theorem feasible_flat_iff (h : p.WellFormed) : p.toProgram.Feasible (flat x) ↔ p.Meets x := by
  rw [meets_iff, ← rows_hold_iff, ← forall_mem_flat_iff]
  have hlength := (length_flat x).trans (variableCount_toProgram h).symm
  exact ⟨fun hx => ⟨hx.nonneg, hx.holds⟩, fun hx => ⟨hlength, hx.1, hx.2⟩⟩

theorem objectiveValue_flat (h : p.WellFormed) :
    p.toProgram.objectiveValue (flat x) = p.shippingCost x := by
  rw [LinearProgram.objectiveValue, toProgram, Transport.costs_eq_ofFn h, flatten_ofFn, dot_flat]
  simp only [shippingCost, mul_comm]

/-- The values of the feasible points are the costs of the amounts that meet the problem. -/
theorem image_objectiveValue (h : p.WellFormed) :
    p.toProgram.objectiveValue '' {l | p.toProgram.Feasible l} =
      p.shippingCost '' {x | p.Meets x} := by
  ext v
  constructor
  · rintro ⟨l, hl, rfl⟩
    obtain ⟨x, rfl⟩ := exists_flat (hl.length_eq.trans (variableCount_toProgram h))
    exact ⟨x, (feasible_flat_iff h).mp hl, (objectiveValue_flat h).symm⟩
  · rintro ⟨x, hx, rfl⟩
    exact ⟨flat x, (feasible_flat_iff h).mpr hx, objectiveValue_flat h⟩

theorem toProgram_wellFormed (h : p.WellFormed) : p.toProgram.WellFormed := by
  have hcount := variableCount_toProgram h
  refine ⟨?_, fun _ _ => rfl, ?_, ?_, fun _ _ => rfl, ?_⟩
  · rw [← List.length_pos_iff, ← LinearProgram.variableCount, hcount]
    exact Nat.mul_pos (Nat.pos_of_ne_zero h.sources_ne_zero)
      (Nat.pos_of_ne_zero h.destinations_ne_zero)
  · intro row hrow
    refine ⟨?_, fun _ _ => rfl⟩
    rw [hcount]
    rcases List.mem_append.mp hrow with hrow | hrow
    · obtain ⟨i, rfl⟩ := List.mem_ofFn.mp hrow
      exact length_flat _
    · obtain ⟨j, rfl⟩ := List.mem_ofFn.mp hrow
      exact length_flat _
  · simp [toProgram, LinearProgram.rowCount, sources, destinations]
  · simp [toProgram, LinearProgram.rowCount]

end Program

end LeastCost.Transportation.Problem
