import LeastCost.Proofs.Transport.Shipping
import LeastCost.Proofs.Whole

/-! # Drafts of whole amounts

Where supplies, demands and costs are whole, so are the penalties, the rests and the flows of a
draft. A tolerance below one then changes neither the cell that is chosen next nor the line that
is closed, and the first plan is the one without tolerance.
-/

namespace LeastCost.Transport

variable {m n : Nat} {net : Network Rat m n} {b : Basis Rat m n} {c : Cell m n} {x : Node m n}
  {tolerance : Rat}

structure Network.Whole (net : Network Rat m n) : Prop where
  amount : ∀ x, LeastCost.Whole (net.amount x)
  cost : ∀ i j, LeastCost.Whole (net.costs i j)

section Bases

def Basis.Whole (b : Basis Rat m n) : Prop := ∀ c, LeastCost.Whole (b.flow c)

theorem Basis.Whole.adjust (h : b.Whole) {f : Rat → Rat} (hf : LeastCost.Whole (f (b.flow c))) :
    (b.adjust c f).Whole := by
  intro d
  rw [flow_adjust]
  split
  · exact hf
  · exact h d

theorem Basis.Whole.complete (h : b.Whole) (net : Network Rat m n) : (b.complete net).2.Whole := by
  refine complete_induction (motive := Basis.Whole) ?_ net h
  intro b c hb _ d
  rw [flow_insert]
  exact hb.adjust (f := fun _ => 0) LeastCost.Whole.zero d

end Bases

namespace Draft

variable {d : Draft Rat m n}

structure Whole (d : Draft Rat m n) : Prop where
  left : ∀ x, LeastCost.Whole (d.left x)
  basis : d.basis.Whole

theorem start_whole (h : net.Whole) : (Draft.start net).Whole := by
  constructor
  · rintro (i | j)
    · exact h.amount (.inl i)
    · exact h.amount (.inr j)
  · intro c
    simpa [Draft.start, Basis.empty, Basis.flow] using LeastCost.Whole.zero

theorem Whole.shipped (h : d.Whole) (c : Cell m n) : LeastCost.Whole (d.shipped c) :=
  (h.left (.inl c.1)).min (h.left (.inr c.2))

theorem share_whole {amount : Rat} (h : LeastCost.Whole amount) (c : Cell m n) (x : Node m n) :
    LeastCost.Whole (Basis.share c amount x) := by
  have hpart : ∀ q : Prop, [Decidable q] → LeastCost.Whole (if q then amount else 0) := by
    intro q _
    split
    · exact h
    · exact .zero
  exact (hpart _).add (hpart _)

theorem Whole.allocate (h : d.Whole) (tolerance : Rat) (c : Cell m n) :
    (d.allocate tolerance c).Whole := by
  constructor
  · intro x
    rw [left_allocate]
    exact (h.left x).sub (share_whole (h.shipped c) c x)
  · intro e
    rw [flow_allocate]
    exact h.basis.adjust (f := (· + d.shipped c)) ((h.basis c).add (h.shipped c)) e

theorem whole_penalty {costs : List Rat} (h : ∀ c ∈ costs, LeastCost.Whole c) {v : Rat}
    (hv : penalty costs = some v) : LeastCost.Whole v := by
  rcases costs with _ | ⟨first, _ | ⟨second, rest⟩⟩
  · cases hv
  · obtain rfl := Option.some.inj hv
    exact h first List.mem_cons_self
  · -- The two least costs seen so far are whole before and after every further cost.
    obtain rfl := Option.some.inj hv
    have hfirst := h first List.mem_cons_self
    have hsecond := h second (List.mem_cons_of_mem _ List.mem_cons_self)
    have hpair := List.foldlRecOn (motive := fun pair : Rat × Rat =>
        LeastCost.Whole pair.1 ∧ LeastCost.Whole pair.2) rest
      (fun (lowest, next) cost =>
        if cost < lowest then (cost, lowest)
        else if cost < next then (lowest, cost)
        else (lowest, next))
      (b := if second < first then (second, first) else (first, second)) ?_ ?_
    · exact hpair.2.sub hpair.1
    · split
      · exact ⟨hsecond, hfirst⟩
      · exact ⟨hfirst, hsecond⟩
    · intro pair hpair cost hcost
      have hwhole := h cost (List.mem_cons_of_mem _ (List.mem_cons_of_mem _ hcost))
      dsimp only
      split
      · exact ⟨hwhole, hpair.1⟩
      · split
        · exact ⟨hpair.1, hwhole⟩
        · exact hpair

theorem whole_penalties (h : net.Whole) {p : Line m n × Rat} (hp : p ∈ d.penalties net) :
    LeastCost.Whole p.2 := by
  obtain ⟨line, -, hp⟩ := List.mem_filterMap.mp hp
  obtain ⟨value, hvalue, rfl⟩ := Option.map_eq_some_iff.mp hp
  refine whole_penalty ?_ hvalue
  intro v hv
  obtain ⟨e, -, rfl⟩ := List.mem_map.mp hv
  exact h.cost e.1 e.2

section Tolerance

variable (h0 : 0 ≤ tolerance) (h1 : tolerance < 1)

include h0 h1

/-- No penalty exceeds another one by less than one. -/
theorem nextCell_eq (h : net.Whole) (d : Draft Rat m n) :
    d.nextCell net tolerance = d.nextCell net 0 := by
  have hchoose : Selection.choose (fun next best : Line m n × Rat =>
        decide (best.2 + tolerance < next.2)) (d.penalties net) =
      Selection.choose (fun next best => decide (best.2 + 0 < next.2)) (d.penalties net) := by
    apply Selection.choose_congr
    intro next hnext best hbest
    rw [decide_eq_decide, add_zero]
    exact (whole_penalties h hbest).add_lt_iff h0 h1 (whole_penalties h hnext)
  rw [nextCell, hchoose, nextCell]

theorem Whole.allocate_eq (h : d.Whole) (c : Cell m n) :
    d.allocate tolerance c = d.allocate 0 c := by
  have hsupply : LeastCost.Whole (d.supply c.1 - d.shipped c) :=
    (h.left (.inl c.1)).sub (h.shipped c)
  have hdemand : LeastCost.Whole (d.demand c.2 - d.shipped c) :=
    (h.left (.inr c.2)).sub (h.shipped c)
  simp only [Draft.shipped] at hsupply hdemand
  simp only [Draft.allocate, Scalar.min_rat, Family.get_set_self, hsupply.le_iff h0 h1,
    hdemand.le_iff h0 h1]

theorem Whole.fill_eq (hnet : net.Whole) (h : d.Whole) (passes : Nat) :
    fill net tolerance passes d = fill net 0 passes d := by
  induction passes generalizing d with
  | zero => rfl
  | succ passes ih =>
    unfold fill
    rw [nextCell_eq h0 h1 hnet]
    cases d.nextCell net 0 with
    | none => rfl
    | some c =>
      dsimp only
      rw [h.allocate_eq h0 h1]
      exact ih (h.allocate 0 c)

end Tolerance

end Draft

theorem initialBasis_eq (h0 : 0 ≤ tolerance) (h1 : tolerance < 1) (h : net.Whole) :
    initialBasis net tolerance = initialBasis net 0 := by
  rw [initialBasis, vogel, (Draft.start_whole h).fill_eq h0 h1 h, initialBasis, vogel]

theorem initialBasis_whole (h : net.Whole) : (initialBasis net 0).Whole := by
  have hdraft : (Draft.fill net 0 (m + n) (Draft.start net)).Whole :=
    Draft.fill_induction (fun _ c hd _ _ => hd.allocate 0 c) (m + n) (Draft.start_whole h)
  exact hdraft.basis.complete net

end LeastCost.Transport
