import Mathlib.Order.Bounds.Basic
import LeastCost.Proofs.Hungarian.Optimality
import LeastCost.Proofs.Hungarian.Termination

/-! # The passes of a tree

A tree grows pass by pass, each from where the one before left it. Over the rationals no reduced
cost is ever negative and the matched cells stay tight, after the reduction, between the rows and
at every pass, where the offer of an outside column is the least reduced cost of the column over
the rows of the tree.
-/

namespace LeastCost.Hungarian

section Passes

variable {α : Type} [Scalar α] {n p : Nat} {tolerance : α} {costs : Grid α n n}
  {rowOf : Family (Option (Fin n)) n} {t u : Tree α n}

/-- The tree that a number of passes makes of a tree, each of which takes in a column. -/
inductive Tree.Passes (tolerance : α) (costs : Grid α n n) (rowOf : Family (Option (Fin n)) n)
    (t : Tree α n) : Nat → Tree α n → Prop where
  | start : Passes tolerance costs rowOf t 0 t
  | pass {p : Nat} {u : Tree α n} {column row : Fin n} {offer : Offer α n} :
      Passes tolerance costs rowOf t p u →
      (u.spread costs).nearest = some (column, offer) → Scalar.isFinite offer.slack = true →
      rowOf column = some row →
      Passes tolerance costs rowOf t (p + 1)
        (((u.spread costs).shift tolerance offer.slack).enter column offer.path row)

namespace Tree.Passes

theorem grow_eq (h : t.Passes tolerance costs rowOf p u) (more : Nat) :
    grow tolerance costs rowOf (p + more) t = grow tolerance costs rowOf more u := by
  induction h generalizing more with
  | start => rw [Nat.zero_add]
  | @pass p u column row offer _ hn hf hr ih =>
    rw [Nat.add_assoc, Nat.add_comm 1 more, ih]
    simp only [grow, hn, hf, hr, if_true]

theorem taken_eq (h : t.Passes tolerance costs rowOf p u) : u.taken = t.taken + p := by
  induction h with
  | start => rfl
  | @pass p u column row offer _ hn _ _ ih =>
    rw [taken_enter (t := (u.spread costs).shift tolerance offer.slack) (nearest_outside hn).1]
    have hsame : ((u.spread costs).shift tolerance offer.slack).taken = u.taken := rfl
    omega

end Tree.Passes

end Passes

variable {n k p : Nat} {costs : Grid Rat n n} {tolerance : Rat} {root row : Fin n}
  {rowOf : Family (Option (Fin n)) n} {t u : Tree Rat n} {s : Matching Rat n}

theorem Tree.Passes.priced (h : t.Passes tolerance costs rowOf p u)
    (ht : t.Priced costs root rowOf t.Offered)
    (hinj : ∀ {j j' i}, rowOf j = some i → rowOf j' = some i → j = j')
    (hroot : ¬ Matched rowOf root) : u.Priced costs root rowOf u.Offered := by
  induction h with
  | start => exact ht
  | pass _ hn _ hr ih => exact ih.pass tolerance hinj hroot hn hr

theorem Tree.Priced.isLeast_slack (h : t.Priced costs root rowOf fun i => t.rows i = true)
    {j : Fin n} (hj : t.columns j = false) : ∃ o, t.offers j = some o ∧
      IsLeast {c | ∃ i, t.rows i = true ∧ t.labels.reduced costs i j = c} o.slack := by
  obtain ⟨o, ho, -⟩ := h.offer_le ((h.rows_iff (i := root)).mpr (Or.inl rfl)) hj
  obtain ⟨i, hi, -, he⟩ := h.offer_attained hj ho
  refine ⟨o, ho, ⟨i, hi, he.symm⟩, ?_⟩
  rintro c ⟨i', hi', rfl⟩
  obtain ⟨o', ho', hle⟩ := h.offer_le hi' hj
  obtain rfl := Option.some.inj (ho.symm.trans ho')
  exact hle

/-- What holds where a pass begins, of the offers it makes and of the shift it ends with. -/
structure Tree.Passing (tolerance : Rat) (costs : Grid Rat n n) (root : Fin n)
    (rowOf : Family (Option (Fin n)) n) (t : Tree Rat n) : Prop where
  feasible : t.labels.Feasible costs
  tight : ∀ i j, rowOf j = some i → t.labels.Tight costs i j
  rows_iff : ∀ i, t.rows i = true ↔ i = root ∨ ∃ j, t.columns j = true ∧ rowOf j = some i
  isLeast_slack : ∀ j, t.columns j = false → ∃ o, (t.spread costs).offers j = some o ∧
    IsLeast {c | ∃ i, t.rows i = true ∧ t.labels.reduced costs i j = c} o.slack
  shift : ∃ j o, (t.spread costs).nearest = some (j, o) ∧ 0 ≤ o.slack ∧
    ((t.spread costs).shift tolerance o.slack).labels.Feasible costs ∧
    ∀ i j, rowOf j = some i → ((t.spread costs).shift tolerance o.slack).labels.Tight costs i j

theorem Tree.Priced.passing (h : t.Priced costs root rowOf t.Offered) (tolerance : Rat)
    (hinj : ∀ {j j' i}, rowOf j = some i → rowOf j' = some i → j = j')
    (hroot : ¬ Matched rowOf root) : t.Passing tolerance costs root rowOf where
  feasible := h.feasible
  tight _ _ := h.tight
  rows_iff _ := h.rows_iff
  isLeast_slack _ := isLeast_slack (t := t.spread costs) h.spread
  shift := by
    obtain ⟨k, hk⟩ := Tree.exists_outside (h.taken_lt hinj hroot)
    obtain ⟨j, o, hn⟩ := h.spread.exists_nearest h.newest_mem hk
    obtain ⟨hj, ho⟩ := nearest_outside hn
    have hshift := h.shift_nearest tolerance hinj hroot hn
    exact ⟨j, o, hn, h.spread.slack_nonneg hj ho, hshift.feasible, fun _ _ => hshift.tight⟩

theorem Matching.exists_upTo (tolerance : Rat) (costs : Grid Rat n n) (k : Nat) :
    ∃ s, Matching.upTo tolerance costs k = .ok s ∧
      s.Sound costs fun i => i ∈ (List.finRange n).take k := by
  obtain ⟨s, hs, hsound⟩ := (Matching.start_sound costs).foldlM_insertRow tolerance
    ((List.nodup_finRange n).sublist (List.take_sublist k _)) fun _ _ => not_false
  refine ⟨s, by rw [Matching.upTo, Labels.reduce_eq_ok]; exact hs, ?_⟩
  simpa using hsound

/-- After the reduction and after each row no reduced cost is negative and the matched cells are
tight. So it is at each pass of the next row's tree, before and after the labels are shifted. The
shift is never negative, and what an outside column is offered before it is its least reduced
cost over the root and the rows of the tree's columns. -/
theorem reduced_costs_kept (tolerance : Rat) (costs : Grid Rat n n) :
    Labels.reduce costs = .ok (Labels.reduction costs) ∧
    (Labels.reduction costs).Feasible costs ∧
    ∀ k ≤ n, ∃ s, Matching.upTo tolerance costs k = .ok s ∧
      (∀ i, Matched s.rowOf i ↔ i.val < k) ∧ s.labels.Feasible costs ∧
      (∀ i j, s.rowOf j = some i → s.labels.Tight costs i j) ∧
      ∀ row : Fin n, row.val = k → ∀ p t,
        (Tree.root s.labels row).Passes tolerance costs s.rowOf p t →
        p < n ∧
        grow tolerance costs s.rowOf n (Tree.root s.labels row) =
          grow tolerance costs s.rowOf (n - p) t ∧
        t.Passing tolerance costs row s.rowOf := by
  refine ⟨Labels.reduce_eq_ok costs, Labels.reduction_feasible costs, fun k hk => ?_⟩
  obtain ⟨s, hs, hsound⟩ := Matching.exists_upTo tolerance costs k
  have hmatched := (Matching.covers_of_upTo hk hs).matched_iff
  refine ⟨s, hs, hmatched, hsound.feasible, fun _ _ => hsound.isMatching.joined, ?_⟩
  rintro row rfl p t hpasses
  have hroot : ¬ Matched s.rowOf row := fun hm => lt_irrefl _ ((hmatched row).mp hm)
  have hpriced := hpasses.priced (Tree.root_priced row hsound.feasible hsound.isMatching)
    hsound.isMatching.injective hroot
  have hp : p < n := by
    have htaken := hpasses.taken_eq
    rw [Tree.taken_root, Nat.zero_add] at htaken
    exact htaken ▸ hpriced.taken_lt hsound.isMatching.injective hroot
  refine ⟨hp, ?_, hpriced.passing tolerance hsound.isMatching.injective hroot⟩
  rw [← hpasses.grow_eq (n - p), Nat.add_sub_cancel' hp.le]

/-- The cheapest column of the third row is taken by the first one. -/
def distances : Grid Rat 3 3 := .ofLists [[4, -1, 3], [2, -1, 2], [4, 0, 5]]

def distanceLabels : Labels Rat 3 := ⟨.ofFn ![-1, -1, 0], .ofFn ![3, 0, 3]⟩

theorem distances_costs_kept : ∃ s t, Matching.upTo 0 distances 2 = .ok s ∧
    (Tree.root s.labels 2).Passes 0 distances s.rowOf 1 t ∧
    t.Passing 0 distances 2 s.rowOf ∧
    (t.spread distances).nearest.map (fun (j, o) => (j, o.slack)) = some (0, 1) := by
  obtain ⟨-, -, hkept⟩ := reduced_costs_kept 0 distances
  obtain ⟨s, hs, -, -, -, hpasses⟩ := hkept 2 (by decide)
  have hvalues : (Matching.upTo 0 distances 2).toOption.map
      (fun s => (s.labels.row, s.labels.column, s.rowOf)) =
      some (distanceLabels.row, distanceLabels.column, .ofFn ![some 1, some 0, none]) := by
    decide +kernel
  rw [hs] at hvalues
  simp only [Except.toOption, Option.map_some, Option.some.injEq, Prod.mk.injEq] at hvalues
  obtain ⟨hrow, hcolumn, hrowOf⟩ := hvalues
  have hlabels : s.labels = distanceLabels := congrArg₂ Labels.mk hrow hcolumn
  -- At the first pass the taken column is nearest, and its row comes into the tree.
  have hnearest : ((Tree.root distanceLabels 2).spread distances).nearest.map
      (fun (j, o) => (j, o.slack, o.path)) = some (1, 0, []) := by decide +kernel
  obtain ⟨⟨j, slack, path⟩, hn, he⟩ := Option.map_eq_some_iff.mp hnearest
  simp only [Prod.mk.injEq] at he
  obtain ⟨rfl, rfl, rfl⟩ := he
  have hpartner : s.rowOf 1 = some 0 := by
    rw [hrowOf]
    rfl
  have hpass : (Tree.root distanceLabels 2).Passes 0 distances s.rowOf 1 _ :=
    .pass .start hn rfl hpartner
  rw [← hlabels] at hpass
  refine ⟨s, _, hs, hpass, (hpasses 2 rfl 1 _ hpass).2.2, ?_⟩
  rw [hlabels]
  decide +kernel

end LeastCost.Hungarian
