import LeastCost.Proofs.Problem.WellFormed
import LeastCost.Proofs.Transport.Draft
import LeastCost.Proofs.Transport.Reach
import LeastCost.Proofs.Transport.Spanning
import LeastCost.Scalar.Double

/-! # Planning without failure

Nothing is assumed of the scalars here: sums may round, overflow, or be no numbers. The first
plan of a network is nevertheless a tree over all its nodes, and so is the plan after every
step. A tree has potentials and closes a loop through every cell, so planning never gives up.
-/

namespace LeastCost.Transport

open Transportation (Plan Problem)

variable {α : Type} {m n : Nat} {b : Basis α m n}

theorem Basis.Spans.isSome_path (h : b.Spans) (c : Cell m n) : (b.path? c).isSome :=
  isSome_path_iff.mpr (h.connected _ _)

variable [Scalar α] {net : Network α m n} {s : Settings α} {p : Problem α}

theorem Basis.Spans.isSome_potentials (h : b.Spans) (hm : 0 < m) :
    (b.potentials? net).isSome :=
  (isSome_potentials_iff hm).mpr h.connected

theorem initialBasis_spans (net : Network α m n) (tolerance : α) (hm : 0 < m) (hn : 0 < n) :
    (initialBasis net tolerance).Spans :=
  Basis.complete_spans net hm hn (vogel_acyclic net tolerance)

/-- The plans that the improvement of a network goes through, however many steps it makes. -/
inductive Visits (s : Settings α) (net : Network α m n) : Basis α m n → Prop where
  | initial : Visits s net (initialBasis net s.tolerance)
  | step {b : Basis α m n} {q : Potentials α m n} {c : Cell m n} {path : List (Cell m n)}
      (hb : Visits s net b) (hpotentials : b.potentials? net = some q)
      (hentering : b.enteringCell net (s.tolerance * (1 + net.maxAbsCost)) q = some c)
      (hpath : b.path? c = some path) : Visits s net (b.shiftAlongLoop s.tolerance c path).2

theorem Visits.spans (h : Visits s net b) (hm : 0 < m) (hn : 0 < n) : b.Spans := by
  induction h with
  | initial => exact initialBasis_spans net s.tolerance hm hn
  | step _ _ hentering hpath ih =>
    exact ih.shiftAlongLoop (isBasic_enteringCell hentering) hpath

theorem Visits.improve_ok (h : Visits s net b) (hm : 0 < m) (hn : 0 < n)
    (budget steps : Nat) :
    ∃ r, improve net s.tolerance (s.tolerance * (1 + net.maxAbsCost)) budget steps b = .ok r ∧
      Visits s net r.basis := by
  induction budget generalizing b steps with
  | zero =>
    obtain ⟨q, hq⟩ := Option.isSome_iff_exists.mp ((h.spans hm hn).isSome_potentials hm)
    cases hc : b.enteringCell net (s.tolerance * (1 + net.maxAbsCost)) q with
    | none => exact ⟨⟨true, b, steps⟩, improve_of_enteringCell_eq_none hq hc, h⟩
    | some c => exact ⟨⟨false, b, steps⟩, improve_zero hq hc, h⟩
  | succ budget ih =>
    obtain ⟨q, hq⟩ := Option.isSome_iff_exists.mp ((h.spans hm hn).isSome_potentials hm)
    cases hc : b.enteringCell net (s.tolerance * (1 + net.maxAbsCost)) q with
    | none => exact ⟨⟨true, b, steps⟩, improve_of_enteringCell_eq_none hq hc, h⟩
    | some c =>
      obtain ⟨path, hpath⟩ := Option.isSome_iff_exists.mp ((h.spans hm hn).isSome_path c)
      rw [improve_succ hq hc hpath]
      exact ih (h.step hq hc hpath) (steps + 1)

structure SizedNetwork (α : Type) where
  {sources destinations : Nat}
  network : Network α sources destinations

/-- The network that a problem is planned on, with the dummy node if it needs one. -/
def balanced (tolerance : α) (p : Problem α) : SizedNetwork α :=
  match Balance.ofProblem tolerance p with
  | .even => ⟨Network.ofProblem p⟩
  | .surplus amount => ⟨(Network.ofProblem p).withDestination amount⟩
  | .shortage amount => ⟨(Network.ofProblem p).withSource amount⟩

theorem plan_eq (s : Settings α) (p : Problem α) : plan s p =
    (optimizeNetwork s (balanced s.tolerance p).network).map
      (planOf s p (Balance.ofProblem s.tolerance p)) := by
  unfold plan balanced
  split
  · next he => rw [he]
  · next he => rw [he]
  · next he => rw [he]

theorem balanced_pos (tolerance : α) (h : p.WellFormed) :
    0 < (balanced tolerance p).sources ∧ 0 < (balanced tolerance p).destinations := by
  have hm := Nat.pos_of_ne_zero h.sources_ne_zero
  have hn := Nat.pos_of_ne_zero h.destinations_ne_zero
  unfold balanced
  split
  · exact ⟨hm, hn⟩
  · exact ⟨hm, Nat.succ_pos _⟩
  · exact ⟨Nat.succ_pos _, hn⟩

/-- A well-formed problem always has a plan. All plans on the way to it are trees over the nodes
of the balanced network, which have potentials and close a loop through every cell. -/
theorem plans_spanning_trees (s : Settings α) (h : p.violations = []) :
    (∃ r, optimizeNetwork s (balanced s.tolerance p).network = .ok r ∧
      Visits s (balanced s.tolerance p).network r.basis ∧
      solve s p = .ok (planOf s p (Balance.ofProblem s.tolerance p) r)) ∧
    ∀ b, Visits s (balanced s.tolerance p).network b →
      (cellGraph b.basics).IsTree ∧
      b.size + 1 = (balanced s.tolerance p).sources + (balanced s.tolerance p).destinations ∧
      (b.potentials? (balanced s.tolerance p).network).isSome ∧
      ∀ c, (b.path? c).isSome := by
  obtain ⟨hm, hn⟩ := balanced_pos s.tolerance (Problem.violations_eq_nil_iff.mp h)
  constructor
  · have hinitial : Visits s (balanced s.tolerance p).network _ := Visits.initial
    obtain ⟨r, hr, hvisits⟩ := hinitial.improve_ok hm hn s.maxIterations 0
    refine ⟨r, hr, hvisits, accept_eq_ok_iff.mpr ⟨h, ?_⟩⟩
    rw [plan_eq, optimizeNetwork, hr]
    rfl
  · intro b hb
    have hspans := hb.spans hm hn
    exact ⟨hspans, hspans.size_add_one, hspans.isSome_potentials hm, hspans.isSome_path⟩

/-- Amounts whose rounded totals differ, and costs whose differences overflow. -/
def rounded : Problem Float :=
  { supply := [0.1, 0.2, 0.3]
    demand := [0.25, 0.35]
    costs := [[3, -1], [1e308, -1e308], [0.5, 2]] }

/-- Even with a tolerance that is no number there is a plan, and it starts from a tree. -/
theorem rounded_planned : rounded.violations = [] ∧
    (∃ r, solve ⟨0 / 0, 5⟩ rounded = .ok r) ∧
    (cellGraph (initialBasis (balanced (0 / 0) rounded).network (0 / 0)).basics).IsTree := by
  have hvalid : rounded.violations = [] := by decide +kernel
  obtain ⟨⟨r, -, -, hr⟩, htrees⟩ := plans_spanning_trees ⟨0 / 0, 5⟩ hvalid
  exact ⟨hvalid, ⟨_, hr⟩, (htrees _ Visits.initial).1⟩

end LeastCost.Transport
