import LeastCost.Proofs.Transport.FirstPlan
import LeastCost.Proofs.Transport.Optimality
import LeastCost.Proofs.Transport.Totality

/-! # What a shift costs

The potentials of a spanning tree price every basic cell at its cost, and a shift along a loop
leaves the total of every node as it was. So of all cells of the loop only the entering one
changes the cost, by its reduced cost for each unit that is shifted.
-/

namespace LeastCost.Transport

open scoped BigOperators

variable {m n : Nat} {net : Network Rat m n} {b : Basis Rat m n} {c d e : Cell m n}
  {path : List (Cell m n)} {tolerance : Rat}

namespace Basis

def cost (net : Network Rat m n) (b : Basis Rat m n) : Rat :=
  net.shippingCost fun i j => b.flow (i, j)

theorem cost_sub_cost (q : Potentials Rat m n) {b' : Basis Rat m n}
    (h : ∀ x, b'.total x = b.total x) :
    b'.cost net - b.cost net =
      ∑ i, ∑ j, (b'.flow (i, j) - b.flow (i, j)) * q.reduced net (i, j) := by
  have hrows : ∀ i, ∑ j, b'.flow (i, j) = ∑ j, b.flow (i, j) := fun i => h (.inl i)
  have hcolumns : ∀ j, ∑ i, b'.flow (i, j) = ∑ i, b.flow (i, j) := fun j => h (.inr j)
  rw [cost, cost, shippingCost_eq_totals net q, shippingCost_eq_totals net q]
  simp only [hrows, hcolumns, sub_mul, Finset.sum_sub_distrib, add_sub_add_right_eq_sub]

theorem isBasic_shiftAlongLoop_of_notMem (hc : b.isBasic c = false)
    (hp : ∀ e ∈ path, b.isBasic e = true) (h : b.leavingCell tolerance path = some d)
    (hec : e ≠ c) (he : e ∉ path) :
    (b.shiftAlongLoop tolerance c path).2.isBasic e = b.isBasic e := by
  have hed : e ≠ d := fun heq => he (heq ▸ mem_of_mem_donors (leavingCell_mem h))
  have hbasics := basics_shiftAlongLoop hc hp h
  rw [Bool.eq_iff_iff, ← mem_basics, ← mem_basics, hbasics]
  simp [hec, hed]

/-- Only the entering cell has a reduced cost, so it alone changes the cost. -/
theorem cost_shiftAlongLoop (hforest : (cellGraph b.basics).IsAcyclic)
    {q : Potentials Rat m n} (hq : b.potentials? net = some q) (hc : b.isBasic c = false)
    (hpath : b.path? c = some path) (h : b.leavingCell tolerance path = some d) :
    (b.shiftAlongLoop tolerance c path).2.cost net =
      b.cost net + b.flow d * q.reduced net c := by
  obtain ⟨hroute, hn, hp⟩ := path_route hpath
  have hmem := notMem_path hp hc
  have hothers : ∀ e, e ≠ c → ((b.shiftAlongLoop tolerance c path).2.flow e - b.flow e) *
      q.reduced net e = 0 := by
    intro e hec
    cases he : b.isBasic e with
    | true => rw [reduced_eq_zero hforest hq he, mul_zero]
    | false => rw [flow_shiftAlongLoop_of_notMem h hec (notMem_path hp he), sub_self, zero_mul]
  rw [← sub_eq_iff_eq_add', cost_sub_cost q (total_shiftAlongLoop hroute hn hmem h),
    Finset.sum_eq_single_of_mem c.1 (Finset.mem_univ _), Finset.sum_eq_single_of_mem c.2
      (Finset.mem_univ _)]
  · rw [Prod.mk.eta, flow_shiftAlongLoop_entering h hmem, add_sub_cancel_left]
  · intro j _ hj
    exact hothers (c.1, j) fun heq => hj (congrArg Prod.snd heq)
  · intro i _ hi
    exact Finset.sum_eq_zero fun j _ => hothers (i, j) fun heq => hi (congrArg Prod.fst heq)

/-- A shift along the loop of a cell outside a spanning tree keeps what every node ships or
receives, all cells off the loop and the tree. The cost changes by the reduced cost of the cell
for each unit shifted. Without tolerance the least flow of the donors is shifted, so flows that
were not negative are not negative after it. -/
theorem Spans.shift_at_reduced_cost (h : b.Spans) (hc : b.isBasic c = false) (net : Network Rat m n)
    (tolerance : Rat) :
    ∃ path q, b.path? c = some path ∧ b.potentials? net = some q ∧
      let amount := (b.shiftAlongLoop tolerance c path).1
      let shifted := (b.shiftAlongLoop tolerance c path).2
      (∀ i, ∑ j, shifted.flow (i, j) = ∑ j, b.flow (i, j)) ∧
      (∀ j, ∑ i, shifted.flow (i, j) = ∑ i, b.flow (i, j)) ∧
      (∀ e, e ≠ c → e ∉ path → shifted.flow e = b.flow e ∧ shifted.isBasic e = b.isBasic e) ∧
      (cellGraph shifted.basics).IsTree ∧
      shifted.cost net =
        b.cost net + amount * (net.costs c.1 c.2 - q.row c.1 - q.column c.2) ∧
      (tolerance = 0 → (∀ e, 0 ≤ b.flow e) →
        (∃ d ∈ donors path, b.flow d = amount) ∧ (∀ d ∈ donors path, amount ≤ b.flow d) ∧
          ∀ e, 0 ≤ shifted.flow e) := by
  have hm : 0 < m := Nat.zero_lt_of_lt c.1.isLt
  obtain ⟨path, hpath⟩ := Option.isSome_iff_exists.mp (h.isSome_path c)
  obtain ⟨q, hq⟩ : ∃ q, b.potentials? net = some q :=
    Option.isSome_iff_exists.mp (h.isSome_potentials hm)
  obtain ⟨hroute, hn, hp⟩ := path_route hpath
  have hmem := notMem_path hp hc
  obtain ⟨d, hd⟩ := b.exists_leavingCell tolerance hroute.ne_nil
  have hamount : (b.shiftAlongLoop tolerance c path).1 = b.flow d := by
    simp only [Basis.shiftAlongLoop, hd]
  have htotal := total_shiftAlongLoop hroute hn hmem hd
  refine ⟨path, q, hpath, hq, ?_⟩
  dsimp only
  rw [hamount]
  refine ⟨fun i => htotal (.inl i), fun j => htotal (.inr j), fun e hec he =>
    ⟨flow_shiftAlongLoop_of_notMem hd hec he,
      isBasic_shiftAlongLoop_of_notMem hc hp hd hec he⟩,
    h.shiftAlongLoop hc hpath, cost_shiftAlongLoop h.isAcyclic hq hc hpath hd, ?_⟩
  rintro rfl h0
  exact ⟨⟨d, leavingCell_mem hd, rfl⟩, fun e he => leavingCell_le hd he,
    flow_shiftAlongLoop_nonneg hd h0 hn hmem⟩

end Basis

/-- A network on which the loop of the last source and the first destination has all nodes. -/
def detour : Network Rat 3 3 :=
  { supply := .ofFn ![4, 5, 3]
    demand := .ofFn ![3, 5, 4]
    costs := .ofFn ![![1, 4, 9], ![6, 2, 5], ![8, 7, 3]] }

theorem detour_at_reduced_cost :
    let b := vogel detour 0
    b.Spans ∧ b.isBasic (2, 0) = false ∧ (∀ e, 0 ≤ b.flow e) ∧
      ∃ path, b.path? (2, 0) = some path ∧ path.length = 5 ∧
        (b.shiftAlongLoop 0 (2, 0) path).1 = 3 ∧
        (b.shiftAlongLoop 0 (2, 0) path).2.cost detour = b.cost detour + 3 * 11 ∧
        ∀ e, 0 ≤ (b.shiftAlongLoop 0 (2, 0) path).2.flow e := by
  have hspans : (vogel detour 0).Spans :=
    vogel_spans ⟨by decide +kernel, by decide +kernel⟩ (by decide) (by decide)
  have hbasic : (vogel detour 0).isBasic (2, 0) = false := by decide +kernel
  have hflows : ∀ e, 0 ≤ (vogel detour 0).flow e := by decide +kernel
  have hreduced : ((vogel detour 0).potentials? detour).map
      (fun q => detour.costs 2 0 - q.row 2 - q.column 0) = some 11 := by decide +kernel
  have hfive : (vogel detour 0).path? (2, 0) =
      some [(2, 2), (1, 2), (1, 1), (0, 1), (0, 0)] := by decide +kernel
  have hthree : ((vogel detour 0).shiftAlongLoop 0 (2, 0)
      [(2, 2), (1, 2), (1, 1), (0, 1), (0, 0)]).1 = 3 := by decide +kernel
  obtain ⟨path, q, hpath, hq, -, -, -, -, hcost, hleast⟩ :=
    hspans.shift_at_reduced_cost hbasic detour 0
  obtain rfl := Option.some.inj (hpath.symm.trans hfive)
  rw [hq] at hreduced
  have heleven : detour.costs 2 0 - q.row 2 - q.column 0 = 11 := Option.some.inj hreduced
  rw [heleven, hthree] at hcost
  exact ⟨hspans, hbasic, hflows, _, hfive, rfl, hthree, hcost, (hleast rfl hflows).2.2⟩

end LeastCost.Transport
