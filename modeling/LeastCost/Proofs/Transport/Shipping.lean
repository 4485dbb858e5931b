import Mathlib.Algebra.Order.BigOperators.Group.Finset
import LeastCost.Proofs.Exact
import LeastCost.Proofs.Transport.Completion
import LeastCost.Proofs.Transport.Draft
import LeastCost.Transport.Solve

/-! # Exact shipments

Over the rationals and without tolerance, the first plan of a balanced network ships every
supply and meets every demand, with nothing on the other cells. Completing it ships nothing
more.
-/

namespace LeastCost.Transport

open scoped BigOperators

variable {m n : Nat} {net : Network Rat m n} {b : Basis Rat m n} {c : Cell m n} {x : Node m n}

namespace Basis

def total (b : Basis Rat m n) : Node m n → Rat
  | .inl i => ∑ j, b.flow (i, j)
  | .inr j => ∑ i, b.flow (i, j)

theorem total_congr {b' : Basis Rat m n} (h : ∀ c, b'.flow c = b.flow c) (x : Node m n) :
    b'.total x = b.total x := by
  rcases x with i | j
  · exact Finset.sum_congr rfl fun j _ => h (i, j)
  · exact Finset.sum_congr rfl fun i _ => h (i, j)

/-- The share of a node in an amount on a cell. -/
def share (c : Cell m n) (amount : Rat) (x : Node m n) : Rat :=
  (if x = .inl c.1 then amount else 0) + (if x = .inr c.2 then amount else 0)

theorem share_nonneg {amount : Rat} (h : 0 ≤ amount) (c : Cell m n) (x : Node m n) :
    0 ≤ share c amount x := by
  unfold share
  split <;> split <;> linarith

theorem share_neg (c : Cell m n) (amount : Rat) (x : Node m n) :
    share c (-amount) x = -share c amount x := by
  unfold share
  split <;> split <;> ring

@[simp] theorem share_zero (c : Cell m n) (x : Node m n) : share c 0 x = 0 := by
  simp [share]

theorem flow_adjust_eq_add (b : Basis Rat m n) (c d : Cell m n) (f : Rat → Rat) :
    (b.adjust c f).flow d = b.flow d + if c = d then f (b.flow c) - b.flow c else 0 := by
  rw [flow_adjust]
  split
  · next h =>
    subst h
    ring
  · rw [add_zero]

theorem total_adjust (b : Basis Rat m n) (c : Cell m n) (f : Rat → Rat) (x : Node m n) :
    (b.adjust c f).total x = b.total x + share c (f (b.flow c) - b.flow c) x := by
  obtain ⟨i, j⟩ := c
  rcases x with i' | j'
  · simp only [total, share, flow_adjust_eq_add, Finset.sum_add_distrib, Prod.mk.injEq, ite_and,
      Sum.inl.injEq, reduceCtorEq, if_false, add_zero, eq_comm]
    congr 1
    split <;> simp
  · simp only [total, share, flow_adjust_eq_add, Finset.sum_add_distrib, Prod.mk.injEq, ite_and,
      Sum.inr.injEq, reduceCtorEq, if_false, zero_add, eq_comm]
    simp

end Basis

def Network.amount (net : Network Rat m n) : Node m n → Rat
  | .inl i => net.supply i
  | .inr j => net.demand j

@[simp] theorem Network.amount_inl (i : Fin m) : net.amount (.inl i) = net.supply i := rfl

@[simp] theorem Network.amount_inr (j : Fin n) : net.amount (.inr j) = net.demand j := rfl

/-- No amount is negative, and the supplies make up for the demands. -/
structure Network.Balanced (net : Network Rat m n) : Prop where
  nonneg : ∀ x, 0 ≤ net.amount x
  sum_eq : ∑ i, net.supply i = ∑ j, net.demand j

/-- The flows meet the amounts of all nodes, over basic cells only. -/
structure Basis.Ships (net : Network Rat m n) (b : Basis Rat m n) : Prop where
  total : ∀ x, b.total x = net.amount x
  nonneg : ∀ c, 0 ≤ b.flow c
  idle : ∀ c, b.isBasic c = false → b.flow c = 0

namespace Draft

variable {d : Draft Rat m n}

def left (d : Draft Rat m n) : Node m n → Rat
  | .inl i => d.supply i
  | .inr j => d.demand j

/-- Flows and rests add up to the amounts of the nodes, and closed nodes have no rest. -/
structure Settles (net : Network Rat m n) (d : Draft Rat m n) : Prop where
  total : ∀ x, d.basis.total x + d.left x = net.amount x
  left_nonneg : ∀ x, 0 ≤ d.left x
  left_closed : ∀ x, ¬ d.IsOpen x → d.left x = 0
  nonneg : ∀ c, 0 ≤ d.basis.flow c
  idle : ∀ c, d.basis.isBasic c = false → d.basis.flow c = 0

theorem start_settles (h : net.Balanced) : (Draft.start net).Settles net := by
  have hflow : ∀ c, (Draft.start net).basis.flow c = 0 := by
    intro c
    simp [Draft.start, Basis.empty, Basis.flow]
  have hleft : ∀ x, (Draft.start net).left x = net.amount x := by
    rintro (i | j) <;> rfl
  refine ⟨?_, fun x => hleft x ▸ h.nonneg x, ?_, fun c => (hflow c).ge, fun c _ => hflow c⟩
  · intro x
    rw [hleft]
    rcases x with i | j <;> simp [Basis.total, hflow]
  · rintro (i | j) hopen <;> simp [IsOpen, Draft.start] at hopen

def shipped (d : Draft Rat m n) (c : Cell m n) : Rat := min (d.supply c.1) (d.demand c.2)

theorem left_allocate (d : Draft Rat m n) (tolerance : Rat) (c : Cell m n) (x : Node m n) :
    (d.allocate tolerance c).left x = d.left x - Basis.share c (d.shipped c) x := by
  rcases x with i | j
  · simp only [left, allocate, Family.get_set, Scalar.min_rat, Basis.share, shipped,
      Sum.inl.injEq, reduceCtorEq, if_false, add_zero]
    by_cases h : c.1 = i
    · rw [if_pos h, if_pos h.symm, h]
    · rw [if_neg h, if_neg (Ne.symm h), sub_zero]
  · simp only [left, allocate, Family.get_set, Scalar.min_rat, Basis.share, shipped,
      Sum.inr.injEq, reduceCtorEq, if_false, zero_add]
    by_cases h : c.2 = j
    · rw [if_pos h, if_pos h.symm, h]
    · rw [if_neg h, if_neg (Ne.symm h), sub_zero]

theorem flow_allocate (d : Draft Rat m n) (tolerance : Rat) (c e : Cell m n) :
    (d.allocate tolerance c).basis.flow e =
      (d.basis.adjust c (· + d.shipped c)).flow e := by
  simp only [allocate, Scalar.min_rat, Basis.flow_insert, shipped]

theorem total_allocate (d : Draft Rat m n) (tolerance : Rat) (c : Cell m n) (x : Node m n) :
    (d.allocate tolerance c).basis.total x =
      d.basis.total x + Basis.share c (d.shipped c) x := by
  rw [Basis.total_congr fun e => d.flow_allocate tolerance c e, Basis.total_adjust,
    add_sub_cancel_left]

theorem Settles.shipped_nonneg (h : d.Settles net) (c : Cell m n) : 0 ≤ d.shipped c :=
  le_min (h.left_nonneg (.inl c.1)) (h.left_nonneg (.inr c.2))

theorem Settles.left_allocate_nonneg (h : d.Settles net) (tolerance : Rat) (c : Cell m n)
    (x : Node m n) : 0 ≤ (d.allocate tolerance c).left x := by
  rw [left_allocate]
  have hx := h.left_nonneg x
  rcases x with i | j
  · simp only [Basis.share, reduceCtorEq, if_false, add_zero, Sum.inl.injEq]
    split
    · next he =>
      subst he
      exact sub_nonneg.mpr (min_le_left _ _)
    · rwa [sub_zero]
  · simp only [Basis.share, reduceCtorEq, if_false, zero_add, Sum.inr.injEq]
    split
    · next he =>
      subst he
      exact sub_nonneg.mpr (min_le_right _ _)
    · rwa [sub_zero]

theorem Settles.left_closes (h : d.Settles net) (hopen : d.IsOpen x)
    (hclosed : ¬ (d.allocate 0 c).IsOpen x) : (d.allocate 0 c).left x = 0 := by
  have hrow := h.left_allocate_nonneg 0 c (.inl c.1)
  have hcolumn := h.left_allocate_nonneg 0 c (.inr c.2)
  obtain ⟨z, hz, hiff⟩ := d.allocate_closes 0 c
  obtain rfl : x = z := not_not.mp fun hne => hclosed ((hiff x).mpr ⟨hopen, hne⟩)
  rcases hz with rfl | rfl
  · rcases min_choice (d.supply c.1) (d.demand c.2) with hmin | hmin
    · rw [left_allocate]
      simp [Basis.share, left, shipped, hmin]
    · have hdemand : (d.allocate 0 c).left (.inr c.2) = 0 := by
        rw [left_allocate]
        simp [Basis.share, left, shipped, hmin]
      exact le_antisymm (supply_le_of_closed hopen hclosed hdemand.le) hrow
  · exact le_antisymm (demand_le_of_closed hopen hclosed) hcolumn

theorem Settles.allocate (h : d.Settles net) : (d.allocate 0 c).Settles net := by
  refine ⟨?_, h.left_allocate_nonneg 0 c, ?_, ?_, ?_⟩
  · intro x
    rw [total_allocate, left_allocate, ← h.total x]
    ring
  · intro x hclosed
    by_cases hopen : d.IsOpen x
    · exact h.left_closes hopen hclosed
    · refine le_antisymm ?_ (h.left_allocate_nonneg 0 c x)
      rw [left_allocate, h.left_closed x hopen, zero_sub, neg_nonpos]
      exact Basis.share_nonneg (h.shipped_nonneg c) c x
  · intro e
    rw [flow_allocate, Basis.flow_adjust]
    split
    · exact add_nonneg (h.nonneg c) (h.shipped_nonneg c)
    · exact h.nonneg e
  · intro e he
    have hnot := (Basis.notMem_basics _).mpr he
    rw [basics_allocate, Set.mem_insert_iff, not_or] at hnot
    rw [flow_allocate, Basis.flow_adjust, if_neg (Ne.symm hnot.1)]
    exact h.idle e ((Basis.notMem_basics _).mp hnot.2)

/-- When one side is closed, the other one has nothing left either. -/
theorem Settles.left_eq_zero (h : d.Settles net) (hb : net.Balanced)
    (hclosed : (∀ i, ¬ d.IsOpen (.inl i)) ∨ ∀ j, ¬ d.IsOpen (.inr j)) (x : Node m n) :
    d.left x = 0 := by
  have hrows : ∑ i, net.supply i = ∑ i, d.basis.total (.inl i) + ∑ i, d.left (.inl i) := by
    rw [← Finset.sum_add_distrib]
    exact Finset.sum_congr rfl fun i _ => (h.total (.inl i)).symm
  have hcolumns : ∑ j, net.demand j = ∑ j, d.basis.total (.inr j) + ∑ j, d.left (.inr j) := by
    rw [← Finset.sum_add_distrib]
    exact Finset.sum_congr rfl fun j _ => (h.total (.inr j)).symm
  have hflows : ∑ i, d.basis.total (.inl i) = ∑ j, d.basis.total (.inr j) := Finset.sum_comm
  have hsums : ∑ i, d.left (.inl i) = ∑ j, d.left (.inr j) := by
    have hbalance := hb.sum_eq
    linarith
  have hboth : ∑ i, d.left (.inl i) = 0 ∧ ∑ j, d.left (.inr j) = 0 := by
    rcases hclosed with hclosed | hclosed
    · have hzero : ∑ i, d.left (.inl i) = 0 :=
        Finset.sum_eq_zero fun i _ => h.left_closed _ (hclosed i)
      exact ⟨hzero, hsums ▸ hzero⟩
    · have hzero : ∑ j, d.left (.inr j) = 0 :=
        Finset.sum_eq_zero fun j _ => h.left_closed _ (hclosed j)
      exact ⟨hsums.trans hzero, hzero⟩
  rcases x with i | j
  · exact (Finset.sum_eq_zero_iff_of_nonneg fun i _ => h.left_nonneg (.inl i)).mp hboth.1 i
      (Finset.mem_univ i)
  · exact (Finset.sum_eq_zero_iff_of_nonneg fun j _ => h.left_nonneg (.inr j)).mp hboth.2 j
      (Finset.mem_univ j)

end Draft

theorem vogel_ships (h : net.Balanced) : (vogel net 0).Ships net := by
  have hsettles : (Draft.fill net 0 (m + n) (Draft.start net)).Settles net :=
    Draft.fill_induction (fun _ _ hd _ _ => hd.allocate) (m + n) (Draft.start_settles h)
  have hclosed := Draft.fill_closed net 0 (Draft.ncard_isOpen_start net).le
  refine ⟨fun x => ?_, hsettles.nonneg, hsettles.idle⟩
  rw [← hsettles.total x, hsettles.left_eq_zero h hclosed x, add_zero]
  rfl

theorem Basis.Ships.complete (h : b.Ships net) : (b.complete net).2.Ships net := by
  refine complete_induction (motive := fun b => b.Ships net) ?_ net h
  intro b c hb hjoined
  have hbasic : b.isBasic c = false :=
    b.notMem_basics.mp fun hm => hjoined (joined_of_mem hm)
  have hflow : ∀ d, ((b.adjust c fun _ => 0).insert c).flow d = b.flow d := by
    intro d
    rw [flow_insert, flow_adjust_eq_add, hb.idle c hbasic, sub_zero, ite_self, add_zero]
  refine ⟨?_, fun d => hflow d ▸ hb.nonneg d, ?_⟩
  · intro x
    rw [total_congr hflow, hb.total]
  · intro d hd
    rw [isBasic_insert] at hd
    split at hd
    · cases hd
    · rw [hflow]
      exact hb.idle d hd

theorem initialBasis_ships (h : net.Balanced) : (initialBasis net 0).Ships net :=
  (vogel_ships h).complete

end LeastCost.Transport
