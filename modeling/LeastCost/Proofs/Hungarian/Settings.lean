import LeastCost.Proofs.Hungarian.Termination

/-! # Settings that do not matter

Nothing is assumed of the scalars here. The tolerance only decides which shifts of the labels
count as adjustments. Under two settings a solve therefore goes through the same trees and the
same matchings, and the counts are all that its results may differ in. The tree of a row counts
at most one adjustment for each of its passes.
-/

namespace LeastCost

/-- The same failure, or results that differ in a count at most. -/
inductive SameUpTo {ε β : Type} (recount : β → Nat → β) : Except ε β → Except ε β → Prop where
  | error (fault : ε) : SameUpTo recount (.error fault) (.error fault)
  | ok (x : β) (k : Nat) : SameUpTo recount (.ok x) (.ok (recount x k))

namespace SameUpTo

variable {ε β γ : Type} {recount : β → Nat → β} {recount' : γ → Nat → γ}

theorem bind {e e' : Except ε β} {f f' : β → Except ε γ} (h : SameUpTo recount e e')
    (hf : ∀ x k, SameUpTo recount' (f x) (f' (recount x k))) :
    SameUpTo recount' (e >>= f) (e' >>= f') := by
  cases h with
  | error fault => exact .error fault
  | ok x k => exact hf x k

theorem foldlM {ι : Type} {step step' : β → ι → Except ε β}
    (h : ∀ x k i, SameUpTo recount (step x i) (step' (recount x k) i)) (is : List ι) (x : β)
    (k : Nat) : SameUpTo recount (is.foldlM step x) (is.foldlM step' (recount x k)) := by
  induction is generalizing x k with
  | nil => exact .ok x k
  | cons i is ih =>
    rw [List.foldlM_cons, List.foldlM_cons]
    exact (h x k i).bind fun y l => ih y l

theorem accept {e e' : Except EngineFault β} (h : SameUpTo recount e e')
    (violations : List Violation) :
    SameUpTo recount (LeastCost.accept violations e) (LeastCost.accept violations e') := by
  cases violations with
  | cons violation violations => exact .error _
  | nil =>
    cases h with
    | error fault => exact .error (Failure.engine fault)
    | ok x k => exact .ok x k

end SameUpTo

def Assignment.Solution.recount {α : Type} (r : Solution α) (k : Nat) : Solution α :=
  { r with statistics := { r.statistics with iterations := k } }

namespace Hungarian

variable {α : Type} {n : Nat}

def Tree.recount (t : Tree α n) (k : Nat) : Tree α n := { t with adjustments := k }

def Matching.recount (s : Matching α n) (k : Nat) : Matching α n := { s with adjustments := k }

variable [Scalar α] {costs : Grid α n n} {tolerance tolerance' : α} {k : Nat}

section TwoRuns

theorem Tree.shift_recount (t : Tree α n) (tolerance tolerance' amount : α) (k : Nat) :
    ∃ l, (t.recount k).shift tolerance' amount = (t.shift tolerance amount).recount l :=
  ⟨_, rfl⟩

/-- Two trees that agree up to their counts grow to such trees, on the same path. -/
theorem grow_sameUpTo (tolerance tolerance' : α) (costs : Grid α n n)
    (rowOf : Family (Option (Fin n)) n) (passes : Nat) (t : Tree α n) (k : Nat) :
    SameUpTo (fun (t, path) k => (t.recount k, path)) (grow tolerance costs rowOf passes t)
      (grow tolerance' costs rowOf passes (t.recount k)) := by
  -- On the passes. The counts drift apart, so the second tree has any count.
  induction passes generalizing t k with
  | zero => exact .error EngineFault.lostRow
  | succ passes ih =>
    have hspread : (t.recount k).spread costs = (t.spread costs).recount k := rfl
    have hnearest : ((t.spread costs).recount k).nearest = (t.spread costs).nearest := rfl
    simp only [grow, hspread, hnearest]
    cases hn : (t.spread costs).nearest with
    | none => exact .error (EngineFault.overflow .labelAdjustment)
    | some c =>
      obtain ⟨column, offer⟩ := c
      obtain ⟨l, hshift⟩ := (t.spread costs).shift_recount tolerance tolerance' offer.slack k
      dsimp only
      rw [hshift]
      split
      · cases rowOf column with
        | none => exact .ok (_, column :: offer.path) l
        | some row => exact ih _ l
      · exact .error (EngineFault.overflow .labelAdjustment)

theorem Matching.insertRow_sameUpTo (tolerance tolerance' : α) (costs : Grid α n n)
    (s : Matching α n) (k : Nat) (row : Fin n) :
    SameUpTo Matching.recount (s.insertRow tolerance costs row)
      ((s.recount k).insertRow tolerance' costs row) := by
  have hroot : (Tree.root s.labels row).recount 0 = Tree.root s.labels row := rfl
  have hgrow := grow_sameUpTo tolerance tolerance' costs s.rowOf n (Tree.root s.labels row) 0
  rw [hroot] at hgrow
  exact hgrow.bind fun (t, path) l =>
    .ok (Matching.mk t.labels (rematch row path s.rowOf) (s.adjustments + t.adjustments)) (k + l)

theorem Matching.complete_sameUpTo (tolerance tolerance' : α) (costs : Grid α n n) :
    SameUpTo Matching.recount (Matching.complete tolerance costs)
      (Matching.complete tolerance' costs) := by
  unfold Matching.complete
  cases Labels.reduce costs with
  | error fault => exact .error fault
  | ok labels =>
    exact SameUpTo.foldlM (Matching.insertRow_sameUpTo tolerance tolerance' costs)
      (List.finRange n) ⟨labels, .replicate n none, 0⟩ 0

theorem assign_sameUpTo (tolerance tolerance' : α) (costs : Grid α n n) :
    SameUpTo Assignment.Solution.recount (assign tolerance costs) (assign tolerance' costs) := by
  refine (Matching.complete_sameUpTo tolerance tolerance' costs).bind fun s k => ?_
  have hcells : (s.recount k).cells = s.cells := rfl
  rw [hcells]
  dsimp only
  split
  · exact .error _
  · split
    · exact .ok _ k
    · exact .error _

end TwoRuns

section Counts

theorem grow_adjustments_le {rowOf : Family (Option (Fin n)) n} {passes : Nat} {t u : Tree α n}
    {path : List (Fin n)} (h : grow tolerance costs rowOf passes t = .ok (u, path)) :
    u.adjustments ≤ t.adjustments + passes := by
  induction passes generalizing t with
  | zero => cases h
  | succ passes ih =>
    have hshift : ∀ amount, ((t.spread costs).shift tolerance amount).adjustments ≤
        t.adjustments + 1 := by
      intro amount
      simp only [Tree.shift, Tree.spread]
      split
      · exact le_rfl
      · exact Nat.le_succ _
    simp only [grow] at h
    split at h
    · cases h
    · next column offer hn =>
      have hone := hshift offer.slack
      split at h
      · split at h
        · obtain ⟨rfl, -⟩ := Prod.mk.inj (Except.ok.inj h)
          omega
        · next row hrow =>
          have hrest := ih h
          simp only [Tree.enter] at hrest
          omega
      · cases h

namespace Matching

variable {s s' : Matching α n} {row : Fin n}

theorem Covers.adjustments_insertRow_le (h : s.Covers row.val)
    (hs : s.insertRow tolerance costs row = .ok s') :
    s'.adjustments ≤ s.adjustments + (row.val + 1) := by
  rw [Matching.insertRow, h.grow_eq tolerance costs row.isLt] at hs
  obtain ⟨⟨t, path⟩, hgrow, hdone⟩ := bind_eq_ok.mp hs
  obtain rfl := Except.ok.inj hdone
  have hle := grow_adjustments_le hgrow
  simp only [Tree.root] at hle
  dsimp only
  omega

theorem adjustments_upTo_le (hk : k ≤ n) (h : upTo tolerance costs k = .ok s) :
    2 * s.adjustments ≤ k * (k + 1) := by
  induction k generalizing s with
  | zero =>
    simp only [upTo, Labels.reduce] at h
    split at h
    · obtain rfl := Except.ok.inj h
      exact le_rfl
    · cases h
  | succ k ih =>
    obtain ⟨before, hbefore, hinsert⟩ :=
      bind_eq_ok.mp ((upTo_succ tolerance costs ⟨k, hk⟩).symm.trans h)
    have hcovers : before.Covers (Fin.mk k hk).val :=
      covers_of_upTo (Nat.le_of_succ_le hk) hbefore
    have hstep := hcovers.adjustments_insertRow_le hinsert
    have hle := ih (Nat.le_of_succ_le hk) hbefore
    dsimp only at hstep
    linarith

end Matching

/-- The iterations of an assignment are the adjustments of all its trees. -/
theorem iterations_assign_le {r : Assignment.Solution α} (h : assign tolerance costs = .ok r) :
    r.statistics.iterations ≤ n * (n + 1) / 2 := by
  obtain ⟨s, hs, hcells⟩ := bind_eq_ok.mp h
  have hle := Matching.adjustments_upTo_le le_rfl ((Matching.upTo_size _ _).trans hs)
  simp only [bind, Except.bind] at hcells
  split at hcells
  · cases hcells
  · split at hcells
    · obtain rfl := Except.ok.inj hcells
      dsimp only
      omega
    · cases hcells

end Counts

/-- Two settings give the same failure, or the same cells at the same cost. The results differ
in the number of iterations at most, which never exceeds the sum of the first `n` numbers. -/
theorem solve_settings_irrelevant (s s' : Settings α) (p : Assignment.Problem α) :
    (∃ failure, solve s p = .error failure ∧ solve s' p = .error failure) ∨
    ∃ r r', solve s p = .ok r ∧ solve s' p = .ok r' ∧
      r'.pairs = r.pairs ∧ r'.totalCost = r.totalCost ∧
      r'.statistics = { r.statistics with iterations := r'.statistics.iterations } ∧
      r.statistics.iterations ≤ p.size * (p.size + 1) / 2 ∧
      r'.statistics.iterations ≤ p.size * (p.size + 1) / 2 := by
  have hle : ∀ {s : Settings α} {r}, solve s p = .ok r →
      r.statistics.iterations ≤ p.size * (p.size + 1) / 2 := fun h =>
    iterations_assign_le (accept_eq_ok_iff.mp h).2
  have hsame : SameUpTo Assignment.Solution.recount (solve s p) (solve s' p) :=
    (assign_sameUpTo s.tolerance s'.tolerance _).accept p.violations
  generalize hr : solve s p = e at hsame
  generalize hr' : solve s' p = e' at hsame
  cases hsame with
  | error failure => exact Or.inl ⟨failure, rfl, rfl⟩
  | ok r k => exact Or.inr ⟨r, r.recount k, rfl, rfl, rfl, rfl, rfl, hle hr, hle hr'⟩

/-- A shift by one counts, but not with a tolerance that is no number. -/
example :
    let p : Assignment.Problem Float := { costs := [[0, 0, 0], [0, 1, 2], [0, 2, 4]] }
    (solve ⟨0, 0⟩ p).toOption.map (·.statistics.iterations) = some 1 ∧
      (solve ⟨0 / 0, 0⟩ p).toOption.map (·.statistics.iterations) = some 0 := by
  decide +kernel

end Hungarian

end LeastCost
