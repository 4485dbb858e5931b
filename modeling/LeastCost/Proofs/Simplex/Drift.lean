import Mathlib.Algebra.Order.BigOperators.Group.List
import Mathlib.Algebra.Order.Field.Basic
import LeastCost.Proofs.Simplex.Scatter
import LeastCost.Proofs.Simplex.Tolerance

/-! # How far pivots drift

A pivot in a row of least ratio pushes no right-hand side below zero. A tolerance lets other rows
leave, and it leaves a rest of the artificial variables to be pivoted out. What one pivot adds to
the distance from zero is counted here in units of the tolerance, and what a run of pivots adds
follows.
-/

namespace LeastCost.Simplex

open scoped BigOperators

namespace Tableau

variable {t u v : Tableau Rat} {i j k c real budget : Nat} {tolerance margin drift : Rat}
  {y : Nat → Rat}

def columnNorm (t : Tableau Rat) (c : Nat) : Rat := (t.rows.map fun row => |entry row c|).sum

/-- No row with a positive entry has a lesser ratio. -/
def LeavesLeast (t : Tableau Rat) (i c : Nat) : Prop :=
  ∀ k < t.rows.length, 0 < entry (t.row k) c → t.ratio c i ≤ t.ratio c k

instance : Decidable (t.LeavesLeast i c) :=
  inferInstanceAs (Decidable (∀ k < t.rows.length, 0 < entry (t.row k) c → _ ≤ _))

/-- What a pivot in a row that has not the least ratio adds to the drift: a unit for each other row
it can tie with, and its ratio for the rows that are left out for their small entries. -/
def slip (t : Tableau Rat) (i c : Nat) : Rat :=
  if t.LeavesLeast i c then 0 else (t.rows.length - 1) * t.columnNorm c + t.ratio c i

/-- By how much a pivot multiplies the drift that is there before it. -/
def stretch (t : Tableau Rat) (i c : Nat) : Rat :=
  1 + (1 + t.columnNorm c) / |entry (t.row i) c|

/-- No right-hand side is further below zero than the margin. -/
def Above (margin : Rat) (t : Tableau Rat) : Prop :=
  ∀ k < t.rows.length, -margin ≤ t.rhs (t.row k)

theorem Canonical.above (h : t.Canonical) : t.Above 0 := fun k hk => by
  rw [neg_zero]
  exact h.rhs_row hk

theorem abs_entry_le_columnNorm (hk : k < t.rows.length) :
    |entry (t.row k) c| ≤ t.columnNorm c := by
  refine List.single_le_sum ?_ _ (List.mem_map_of_mem (row_mem hk))
  exact List.forall_mem_map.mpr fun _ _ => abs_nonneg _

theorem columnNorm_nonneg (t : Tableau Rat) (c : Nat) : 0 ≤ t.columnNorm c :=
  List.sum_nonneg (List.forall_mem_map.mpr fun _ _ => abs_nonneg _)

theorem one_le_stretch (t : Tableau Rat) (i c : Nat) : 1 ≤ t.stretch i c := by
  have hnorm : 0 ≤ 1 + t.columnNorm c := add_nonneg zero_le_one (t.columnNorm_nonneg c)
  exact le_add_of_nonneg_right (div_nonneg hnorm (abs_nonneg _))

theorem ratio_nonneg (hpos : 0 < entry (t.row i) c) : 0 ≤ t.ratio c i := by
  simp only [ratio, Scalar.max_rat]
  exact div_nonneg (le_max_right _ _) hpos.le

theorem mul_ratio_eq (hpos : 0 < entry (t.row k) c) :
    entry (t.row k) c * t.ratio c k = max (t.rhs (t.row k)) 0 := by
  simp only [ratio, Scalar.max_rat]
  exact mul_div_cancel₀ _ hpos.ne'

theorem others_nonneg (hk : k < t.rows.length) : (0 : Rat) ≤ t.rows.length - 1 :=
  sub_nonneg.mpr (Nat.one_le_cast.mpr (Nat.one_le_iff_ne_zero.mpr (Nat.ne_zero_of_lt hk)))

theorem slip_nonneg (hpos : 0 < entry (t.row i) c) : 0 ≤ t.slip i c := by
  have hothers := others_nonneg (lt_length_of_entry_ne hpos.ne')
  rw [slip]
  split
  · exact le_rfl
  · exact add_nonneg (mul_nonneg hothers (t.columnNorm_nonneg c)) (ratio_nonneg hpos)

section Pivots

theorem mul_div_le_stretch (hm : 0 ≤ margin) (hk : k < t.rows.length) :
    margin / |entry (t.row i) c| ≤ margin * t.stretch i c ∧
      margin + |entry (t.row k) c| * (margin / |entry (t.row i) c|) ≤
        margin * t.stretch i c := by
  have hentry := abs_entry_le_columnNorm (c := c) hk
  have hnorm := t.columnNorm_nonneg c
  have hquotient : 0 ≤ margin / |entry (t.row i) c| := div_nonneg hm (abs_nonneg _)
  have hsplit : margin * t.stretch i c =
      margin + margin / |entry (t.row i) c| + t.columnNorm c * (margin / |entry (t.row i) c|) := by
    rw [stretch]
    ring
  have hmul := mul_le_mul_of_nonneg_right hentry hquotient
  have hrest := mul_nonneg hnorm hquotient
  constructor <;> linarith

theorem rhs_pivot (h : t.Shaped) (hc : c < t.columns) (ha : entry (t.row i) c ≠ 0)
    (hk : k < t.rows.length) : (t.pivot i c).rhs ((t.pivot i c).row k) =
      if k = i then t.rhs (t.row i) / entry (t.row i) c
      else t.rhs (t.row k) - entry (t.row k) c * (t.rhs (t.row i) / entry (t.row i) c) := by
  rw [rhs, columns_pivot, entry_pivot h hc ha hk]
  rfl

/-- Ties within a tolerance add up: the leaving row can exceed the least ratio by the tolerance
once for each other row. -/
theorem ratio_le_add_of_leavingRow (ht : 0 ≤ tolerance) (hi : t.leavingRow tolerance c = some i)
    (hk : k < t.rows.length) (hpos : tolerance < entry (t.row k) c) :
    t.ratio c i ≤ t.ratio c k + (t.rows.length - 1) * tolerance := by
  have hmem : k ∈ (List.range t.rows.length).filter fun i =>
      !decide (entry (t.row i) c ≤ tolerance) := by
    simp [hk, hpos]
  have hle := Selection.choose_tie_le_add_others (t.ratio c) ht hi hmem
  have hlength : ((List.range t.rows.length).filter fun i =>
      !decide (entry (t.row i) c ≤ tolerance)).length ≤ t.rows.length :=
    (List.length_filter_le _ _).trans_eq List.length_range
  have hcast : (_ : Rat) ≤ t.rows.length := Nat.cast_le.mpr hlength
  have := mul_le_mul_of_nonneg_right hcast ht
  linarith

theorem mul_ratio_le (ht : 0 ≤ tolerance) (hi : t.leavingRow tolerance c = some i)
    (hratio : 0 ≤ t.ratio c i) (hk : k < t.rows.length) (hpos : 0 < entry (t.row k) c) :
    entry (t.row k) c * t.ratio c i ≤ max (t.rhs (t.row k)) 0 + tolerance * t.slip i c := by
  rw [← mul_ratio_eq hpos, slip]
  split
  · next hleast =>
    rw [mul_zero, add_zero]
    exact mul_le_mul_of_nonneg_left (hleast k hk hpos) hpos.le
  · have hothers := others_nonneg hk
    have hentry := (le_abs_self _).trans (abs_entry_le_columnNorm (c := c) hk)
    have hties := mul_le_mul_of_nonneg_left (mul_le_mul_of_nonneg_left hentry hothers) ht
    rcases lt_or_ge tolerance (entry (t.row k) c) with hlarge | hsmall
    · have hadd := mul_le_mul_of_nonneg_left (ratio_le_add_of_leavingRow ht hi hk hlarge) hpos.le
      have hown := mul_nonneg ht hratio
      linarith
    · -- The ratio of such a row was not compared, so the whole step counts.
      have hwhole := mul_le_mul_of_nonneg_right hsmall hratio
      have hown := mul_nonneg hpos.le (ratio_nonneg hpos)
      have hrest := mul_nonneg ht (mul_nonneg hothers (t.columnNorm_nonneg c))
      linarith

/-- One pivot of a run multiplies the drift and adds to it. -/
theorem Above.pivot (h : t.Shaped) (ht : 0 ≤ tolerance) (hd : 0 ≤ drift)
    (ha : t.Above (tolerance * drift)) (hn : t.next tolerance = .pivot i c) :
    (t.pivot i c).Above (tolerance * (drift * t.stretch i c + t.slip i c)) := by
  obtain ⟨hc, hpos⟩ := next_pivot_spec ht hn
  have hi := lt_length_of_entry_ne hpos.ne'
  have hleaving := (choices_of_next_eq_pivot hn).2
  have hm := mul_nonneg ht hd
  have hslip := mul_nonneg ht (slip_nonneg hpos)
  -- The step is as long as the ratio, or goes back by no more than the margin allows.
  have hstep : t.rhs (t.row i) / entry (t.row i) c ≤ t.ratio c i := by
    simp only [ratio, Scalar.max_rat]
    exact div_le_div_of_nonneg_right (le_max_left _ _) hpos.le
  have hback : -(tolerance * drift / |entry (t.row i) c|) ≤
      t.rhs (t.row i) / entry (t.row i) c := by
    rw [abs_of_pos hpos, ← neg_div]
    exact div_le_div_of_nonneg_right (ha i hi) hpos.le
  intro k hk
  rw [length_rows_pivot] at hk
  obtain ⟨hown, hother⟩ := mul_div_le_stretch (t := t) (i := i) (c := c) hm hk
  have hrhs := ha k hk
  rw [rhs_pivot h hc hpos.ne' hk, mul_add, ← mul_assoc]
  split
  · linarith
  · rcases lt_or_ge 0 (entry (t.row k) c) with hk' | hk'
    · have hle := mul_ratio_le ht hleaving (ratio_nonneg hpos) hk hk'
      have hmul := mul_le_mul_of_nonneg_left hstep hk'.le
      have hmargin : max (t.rhs (t.row k)) 0 ≤ t.rhs (t.row k) + tolerance * drift :=
        max_le (by linarith) (by linarith)
      have hgrow := mul_nonneg (abs_nonneg (entry (t.row k) c))
        (div_nonneg hm (abs_nonneg (entry (t.row i) c)))
      linarith
    · have hmul := mul_le_mul_of_nonneg_left hback (abs_nonneg (entry (t.row k) c))
      rw [abs_of_nonpos hk'] at hmul hother
      linarith

end Pivots

section Runs

/-- The drift that a run ends with. -/
def runDrift (tolerance : Rat) : Nat → Tableau Rat → Rat → Rat
  | 0, _, drift => drift
  | budget + 1, t, drift =>
    match t.next tolerance with
    | .pivot i c =>
      runDrift tolerance budget (t.pivot i c) (drift * t.stretch i c + t.slip i c)
    | _ => drift

def Steady (tolerance : Rat) (t : Tableau Rat) : Prop :=
  ∀ u i c, t.Reaches tolerance u → u.next tolerance = .pivot i c → u.LeavesLeast i c

theorem runDrift_nonneg (ht : 0 ≤ tolerance) (hd : 0 ≤ drift) :
    0 ≤ runDrift tolerance budget t drift := by
  induction budget generalizing t drift with
  | zero => exact hd
  | succ budget ih =>
    unfold runDrift
    split
    · next i c hn =>
      have hstretch := zero_le_one.trans (t.one_le_stretch i c)
      exact ih (add_nonneg (mul_nonneg hd hstretch) (slip_nonneg (next_pivot_spec ht hn).2))
    · exact hd

theorem Above.run (h : t.Shaped) (ht : 0 ≤ tolerance) (hd : 0 ≤ drift)
    (ha : t.Above (tolerance * drift)) (budget pivots : Nat) :
    (Simplex.run tolerance budget pivots t).tableau.Above
      (tolerance * runDrift tolerance budget t drift) := by
  induction budget generalizing t drift pivots with
  | zero =>
    rw [tableau_run_zero]
    exact ha
  | succ budget ih =>
    rw [Simplex.run, runDrift]
    cases hn : t.next tolerance with
    | optimal => exact ha
    | unbounded => exact ha
    | pivot i c =>
      obtain ⟨hc, hpos⟩ := next_pivot_spec ht hn
      have hstretch := zero_le_one.trans (t.one_le_stretch i c)
      exact ih (h.pivot (lt_length_of_entry_ne hpos.ne') hc)
        (add_nonneg (mul_nonneg hd hstretch) (slip_nonneg hpos)) (ha.pivot h ht hd hn) _

theorem Steady.runDrift_eq_zero (h : t.Steady tolerance) :
    runDrift tolerance budget t 0 = 0 := by
  induction budget generalizing t with
  | zero => rfl
  | succ budget ih =>
    unfold runDrift
    split
    · next i c hn =>
      rw [zero_mul, zero_add, slip, if_pos (h t i c .refl hn)]
      exact ih fun u k d hr => h u k d (hr.head hn)
    · rfl

end Runs

section Expulsion

/-- The margin holds both ways in the rows with an artificial basic column. -/
structure Bounded (real : Nat) (margin : Rat) (t : Tableau Rat) : Prop where
  above : t.Above margin
  abs_rhs_le : ∀ k < t.rows.length, real ≤ t.basic k → |t.rhs (t.row k)| ≤ margin

def expelStretch (real : Nat) (tolerance : Rat) (t : Tableau Rat) (i : Nat) : Rat :=
  if real ≤ t.basic i ∧ (t.expelRow real tolerance i).basic i < real then
    t.stretch i ((t.expelRow real tolerance i).basic i)
  else 1

def expelDrift (real : Nat) (tolerance : Rat) : List Nat → Tableau Rat → Rat → Rat
  | [], _, drift => drift
  | i :: rest, t, drift =>
    expelDrift real tolerance rest (t.expelRow real tolerance i)
      (drift * t.expelStretch real tolerance i)

theorem expelRow_stretch (h : t.Shaped) (hi : i < t.rows.length) :
    (t.expelRow real tolerance i = t ∧ t.expelStretch real tolerance i = 1 ∧
      (t.basic i < real ∨ ∀ j < real, |entry (t.row i) j| ≤ tolerance)) ∨
    ∃ j < real, tolerance < |entry (t.row i) j| ∧ real ≤ t.basic i ∧
      t.expelRow real tolerance i = t.pivot i j ∧
      t.expelStretch real tolerance i = t.stretch i j := by
  rcases expelRow_eq real tolerance t i with ⟨he, hs⟩ | ⟨j, hj, ha, hb, he⟩
  · refine Or.inl ⟨he, if_neg ?_, hs⟩
    rw [he]
    omega
  · have hbasic : (t.pivot i j).basic i = j := by
      rw [basic_pivot (h.basis_length ▸ hi), if_pos rfl]
    refine Or.inr ⟨j, hj, ha, hb, he, ?_⟩
    rw [expelStretch, he, hbasic, if_pos ⟨hb, hj⟩]

theorem Bounded.pivot (h : t.Shaped) (hm : 0 ≤ margin) (hb : t.Bounded real margin)
    (hc : c < t.columns) (ha : entry (t.row i) c ≠ 0) (hi : real ≤ t.basic i)
    (hreal : c < real) : (t.pivot i c).Bounded real (margin * t.stretch i c) := by
  have hlt := lt_length_of_entry_ne ha
  have hstep : |t.rhs (t.row i) / entry (t.row i) c| ≤ margin / |entry (t.row i) c| := by
    rw [abs_div]
    exact div_le_div_of_nonneg_right (hb.abs_rhs_le i hlt hi) (abs_nonneg _)
  have hchange : ∀ k < t.rows.length,
      |entry (t.row k) c * (t.rhs (t.row i) / entry (t.row i) c)| ≤
        margin * t.stretch i c - margin := by
    intro k hk
    have hother := (mul_div_le_stretch (t := t) (i := i) (c := c) hm hk).2
    rw [abs_mul]
    have := mul_le_mul_of_nonneg_left hstep (abs_nonneg (entry (t.row k) c))
    linarith
  constructor
  · intro k hk
    rw [length_rows_pivot] at hk
    rw [rhs_pivot h hc ha hk]
    split
    · exact neg_le_of_abs_le
        (hstep.trans (mul_div_le_stretch (t := t) (i := i) (c := c) hm hk).1)
    · have hrhs := hb.above k hk
      have := (abs_le.mp (hchange k hk)).2
      linarith
  · intro k hk hbk
    rw [length_rows_pivot] at hk
    rw [basic_pivot (h.basis_length ▸ hk)] at hbk
    rw [rhs_pivot h hc ha hk]
    split_ifs at hbk ⊢ with hki
    · omega
    · have hrhs := hb.abs_rhs_le k hk hbk
      have := abs_sub (t.rhs (t.row k))
        (entry (t.row k) c * (t.rhs (t.row i) / entry (t.row i) c))
      linarith [hchange k hk]

theorem length_rows_expelRow (real : Nat) (tolerance : Rat) (t : Tableau Rat) (i : Nat) :
    (t.expelRow real tolerance i).rows.length = t.rows.length := by
  rcases expelRow_eq real tolerance t i with ⟨he, -⟩ | ⟨j, -, -, -, he⟩
  · rw [he]
  · rw [he, length_rows_pivot]

theorem length_rows_foldl_expelRow (real : Nat) (tolerance : Rat) (t : Tableau Rat)
    (indices : List Nat) :
    (indices.foldl (expelRow real tolerance) t).rows.length = t.rows.length := by
  induction indices generalizing t with
  | nil => rfl
  | cons i rest ih => rw [List.foldl_cons, ih, length_rows_expelRow]

theorem basic_expelRow (h : t.Shaped) (hk : k < t.rows.length)
    (hb : real ≤ (t.expelRow real tolerance i).basic k) :
    (t.expelRow real tolerance i).basic k = t.basic k := by
  rcases expelRow_eq real tolerance t i with ⟨he, -⟩ | ⟨j, hj, -, -, he⟩
  · rw [he]
  · rw [he, basic_pivot (h.basis_length ▸ hk)] at hb ⊢
    split_ifs at hb ⊢
    · omega
    · rfl

section Turns

variable (h : t.Solved) (ht : 0 ≤ tolerance) (hreal : real ≤ t.columns)

include h ht hreal

theorem basic_foldl_expelRow (indices : List Nat) (hk : k < t.rows.length)
    (hb : real ≤ (indices.foldl (expelRow real tolerance) t).basic k) :
    (indices.foldl (expelRow real tolerance) t).basic k = t.basic k := by
  induction indices generalizing t with
  | nil => rfl
  | cons i rest ih =>
    have hnext := (SolvedAs.refl h).expelRow (i := i) ht hreal
    have hrest := ih hnext.solved (hnext.columns_eq ▸ hreal)
      (by rwa [length_rows_expelRow]) hb
    rw [List.foldl_cons, hrest] at hb ⊢
    exact basic_expelRow h.toShaped hk hb

/-- A row that keeps its artificial variable through its own turn and all later ones has small
entries only. -/
theorem abs_entry_le_of_basic_foldl_expelRow (rest : List Nat) (hk : k < t.rows.length)
    (hb : real ≤ ((k :: rest).foldl (expelRow real tolerance) t).basic k) :
    ∀ j < real, |entry (t.row k) j| ≤ tolerance := by
  have hnext := (SolvedAs.refl h).expelRow (i := k) ht hreal
  have hkept := basic_foldl_expelRow h ht hreal (k :: rest) hk hb
  have hturn := basic_foldl_expelRow hnext.solved ht (hnext.columns_eq ▸ hreal) rest
    (by rwa [length_rows_expelRow]) hb
  rcases expelRow_eq real tolerance t k with ⟨-, hs⟩ | ⟨j, hj, -, -, he⟩
  · exact hs.resolve_left (not_lt.mpr (hkept ▸ hb))
  · -- The row would be solved for a real column from its turn on.
    have hpivot : (t.expelRow real tolerance k).basic k = j := by
      rw [he, basic_pivot (h.basis_length ▸ hk), if_pos rfl]
    exact absurd hj (not_lt.mpr (hb.trans_eq (hturn.trans hpivot)))

theorem Bounded.expelRow (hd : 0 ≤ drift) (hb : t.Bounded real (tolerance * drift))
    (hi : i < t.rows.length) : (t.expelRow real tolerance i).Bounded real
      (tolerance * (drift * t.expelStretch real tolerance i)) := by
  rcases expelRow_stretch h.toShaped hi with
    ⟨he, hs, -⟩ | ⟨j, hj, ha, hbasic, he, hs⟩
  · rw [he, hs, mul_one]
    exact hb
  · rw [he, hs, ← mul_assoc]
    exact hb.pivot h.toShaped (mul_nonneg ht hd) (hj.trans_le hreal)
      (abs_pos.mp (ht.trans_lt ha)) hbasic hj

end Turns

theorem one_le_expelStretch (real : Nat) (tolerance : Rat) (t : Tableau Rat) (i : Nat) :
    1 ≤ t.expelStretch real tolerance i := by
  unfold expelStretch
  split
  · exact one_le_stretch _ _ _
  · exact le_rfl

theorem le_expelDrift (hd : 0 ≤ drift) (indices : List Nat) :
    drift ≤ expelDrift real tolerance indices t drift := by
  induction indices generalizing t drift with
  | nil => exact le_rfl
  | cons i rest ih =>
    have hmul := le_mul_of_one_le_right hd (one_le_expelStretch real tolerance t i)
    exact hmul.trans (ih (hd.trans hmul))

theorem expelDrift_zero (indices : List Nat) : expelDrift real tolerance indices t 0 = 0 := by
  induction indices generalizing t with
  | nil => rfl
  | cons i rest ih =>
    rw [expelDrift, zero_mul]
    exact ih

/-- An artificial basic variable is what its row leaves for it. -/
theorem abs_basic_le (h : t.Solved) (hreal : real ≤ t.columns) (hk : k < t.rows.length)
    (hb : real ≤ t.basic k) (hentries : ∀ j < real, |entry (t.row k) j| ≤ tolerance)
    (hs : t.Solves y)
    (hy : ∀ j, real ≤ j → (∀ l < t.rows.length, t.basic l ≠ j) → y j = 0) :
    |y (t.basic k)| ≤ |t.rhs (t.row k)| + tolerance * ∑ j ∈ Finset.range real, |y j| := by
  have hsplit : eval t.columns (t.row k) y = eval t.columns (t.row k)
      fun j => realPart real y j + y (t.basic k) * if j = t.basic k then 1 else 0 := by
    refine eval_congr fun j _ => ?_
    unfold realPart
    by_cases hj : j < real
    · rw [if_pos hj, if_neg (by omega), mul_zero, add_zero]
    · rw [if_neg hj, zero_add]
      by_cases hjk : j = t.basic k
      · rw [if_pos hjk, mul_one, hjk]
      · rw [if_neg hjk, mul_zero, mul_zero]
        by_cases hbasic : ∃ l < t.rows.length, t.basic l = j
        · obtain ⟨l, hl, rfl⟩ := hbasic
          have hkl : k ≠ l := fun hkl => hjk (hkl ▸ rfl)
          rw [h.unit l hl k hk, if_neg hkl, zero_mul]
        · rw [hy j (not_lt.mp hj) fun l hl he => hbasic ⟨l, hl, he⟩, mul_zero]
  have hrow := forall_row_iff.mp hs k hk
  rw [hsplit, eval_add_smul, eval_realPart hreal, eval_single (h.basic_lt hk), h.unit k hk k hk,
    if_pos rfl, mul_one] at hrow
  have hsum : |eval real (t.row k) y| ≤ tolerance * ∑ j ∈ Finset.range real, |y j| := by
    rw [Finset.mul_sum]
    refine (Finset.abs_sum_le_sum_abs _ _).trans (Finset.sum_le_sum fun j hj => ?_)
    rw [abs_mul]
    exact mul_le_mul_of_nonneg_right (hentries j (Finset.mem_range.mp hj)) (abs_nonneg _)
  have hdifference := abs_sub (t.rhs (t.row k)) (eval real (t.row k) y)
  rw [← hrow, add_sub_cancel_left, hrow] at hdifference
  linarith

section Turns

variable (h : t.Solved) (ht : 0 ≤ tolerance) (hreal : real ≤ t.columns) (hd : 0 ≤ drift)
  (hb : t.Bounded real (tolerance * drift)) (indices : List Nat)
  (hindices : ∀ i ∈ indices, i < t.rows.length)

include h ht hreal hd hb hindices

theorem Bounded.foldl_expelRow : (indices.foldl (Tableau.expelRow real tolerance) t).Bounded real
    (tolerance * expelDrift real tolerance indices t drift) := by
  induction indices generalizing t drift with
  | nil => exact hb
  | cons i rest ih =>
    have hnext := (SolvedAs.refl h).expelRow (i := i) ht hreal
    obtain ⟨hi, hrest⟩ := List.forall_mem_cons.mp hindices
    have hstretch := zero_le_one.trans (one_le_expelStretch real tolerance t i)
    refine ih hnext.solved (hnext.columns_eq ▸ hreal) (mul_nonneg hd hstretch)
      (hb.expelRow h ht hreal hd hi) fun k hk => ?_
    rw [length_rows_expelRow]
    exact hrest k hk

/-- Where all but the artificial variables that stay basic are given, such a variable is what its
row leaves for it on its turn. -/
theorem abs_artificial_le (hs : t.Solves y)
    (hy : ∀ j, real ≤ j → (∀ k < t.rows.length,
      (indices.foldl (Tableau.expelRow real tolerance) t).basic k ≠ j) → y j = 0)
    (hk : k ∈ indices)
    (hbk : real ≤ (indices.foldl (Tableau.expelRow real tolerance) t).basic k) :
    |y (t.basic k)| ≤ tolerance * (expelDrift real tolerance indices t drift +
      ∑ j ∈ Finset.range real, |y j|) := by
  induction indices generalizing t drift with
  | nil => cases hk
  | cons i rest ih =>
    obtain ⟨hi, hrest⟩ := List.forall_mem_cons.mp hindices
    have hnext := (SolvedAs.refl h).expelRow (i := i) ht hreal
    have hlength := length_rows_expelRow real tolerance t i
    have hstretch := zero_le_one.trans (one_le_expelStretch real tolerance t i)
    have hdrift := mul_nonneg hd hstretch
    have hlast : ∀ k < t.rows.length, real ≤ (rest.foldl (Tableau.expelRow real tolerance)
        (t.expelRow real tolerance i)).basic k → (rest.foldl (Tableau.expelRow real tolerance)
          (t.expelRow real tolerance i)).basic k = t.basic k := fun k hk =>
      basic_foldl_expelRow h ht hreal (i :: rest) hk
    rcases List.mem_cons.mp hk with rfl | hk
    · have hk' := hi
      have hbasic := hlast k hk' hbk
      have hentries := abs_entry_le_of_basic_foldl_expelRow h ht hreal rest hk' hbk
      have hturn := abs_basic_le h hreal hk' (hbasic ▸ hbk) hentries hs fun j hj hne =>
        hy j hj fun l hl hlj => hne l hl ((hlast l hl (hlj ▸ hj)).symm.trans hlj)
      have hrhs := hb.abs_rhs_le k hk' (hbasic ▸ hbk)
      have hgrow : tolerance * drift ≤ tolerance * expelDrift real tolerance (k :: rest) t drift :=
        mul_le_mul_of_nonneg_left (le_expelDrift hd _) ht
      linarith
    · have hk' := hrest k hk
      have hsame : (t.expelRow real tolerance i).basic k = t.basic k := by
        have := basic_foldl_expelRow hnext.solved ht
          (hnext.columns_eq ▸ hreal) rest (hlength.symm ▸ hk') hbk
        rw [← this]
        exact hlast k hk' hbk
      rw [← hsame]
      refine ih hnext.solved (hnext.columns_eq ▸ hreal) hdrift
        (hb.expelRow h ht hreal hd hi) (fun k hk => ?_) ((hnext.solves_iff y).mpr hs) ?_ hk hbk
      · rw [hlength]
        exact hrest k hk
      · rw [hlength]
        exact hy

end Turns

end Expulsion

/-- A solution of the rows that are kept extends to the artificial variables of the rows that are
dropped. -/
theorem exists_solves_of_drop (h : t.Solved) (hreal : real ≤ t.columns)
    (hs : ((t.dropRedundantRows real).dropArtificialColumns real).Solves y) :
    ∃ z, t.Solves z ∧ (∀ j < real, z j = y j) ∧
      ∀ j, real ≤ j → (∀ k < t.rows.length, t.basic k ≠ j) → z j = 0 := by
  let rest k := if real ≤ t.basic k then t.rhs (t.row k) - eval real (t.row k) y else 0
  refine ⟨fun j => realPart real y j + 1 * t.basicPoint rest j, forall_row_iff.mpr fun k hk => ?_,
    fun j hj => ?_, fun j hj hne => ?_⟩
  · rw [eval_add_smul, eval_realPart hreal, h.eval_row_basicPoint hk, one_mul]
    by_cases hb : real ≤ t.basic k
    · simp only [rest, if_pos hb, add_sub_cancel]
    · simp only [rest, if_neg hb, add_zero]
      rw [Solves, rows_drop, List.forall_mem_map] at hs
      have hline := hs _ ((mem_realLines_iff h.toShaped).mpr ⟨k, hk, not_le.mp hb, rfl⟩)
      rw [← eval_realRow h.toShaped hreal hk y]
      exact hline.trans (entry_realRow_rhs h.toShaped hreal hk)
  · have hzero : t.basicPoint rest j = 0 := by
      by_cases hb : ∃ k < t.rows.length, t.basic k = j
      · obtain ⟨k, hk, rfl⟩ := hb
        rw [h.basicPoint_basic hk]
        exact if_neg (not_le.mpr hj)
      · exact basicPoint_eq_zero (fun k hk he => hb ⟨k, hk, he⟩) _
    dsimp only
    rw [hzero, mul_zero, add_zero, realPart, if_pos hj]
  · dsimp only
    rw [basicPoint_eq_zero hne, mul_zero, add_zero, realPart, if_neg (not_lt.mpr hj)]

theorem Above.drop (h : t.Shaped) (hreal : real ≤ t.columns) (ha : t.Above margin) :
    ((t.dropRedundantRows real).dropArtificialColumns real).Above margin := by
  intro k hk
  have hmem := row_mem hk
  rw [rows_drop] at hmem
  obtain ⟨line, hl, he⟩ := List.mem_map.mp hmem
  obtain ⟨i, hi, -, rfl⟩ := (mem_realLines_iff h).mp hl
  rw [← he]
  exact (ha i hi).trans_eq (entry_realRow_rhs h hreal hi).symm

theorem basic_lt_of_length_drop (h : t.Shaped)
    (hlength : ((t.dropRedundantRows real).dropArtificialColumns real).rows.length =
      t.rows.length) (hk : k < t.rows.length) : t.basic k < real := by
  rw [rows_drop, List.length_map, realLines, List.length_map] at hlength
  have hzip : (t.basis.zip t.rows).length = t.rows.length := by
    rw [List.length_zip, h.basis_length, min_self]
  rw [← hzip, List.length_filter_eq_length_iff] at hlength
  have hmem : (t.basic k, t.row k) ∈ t.basis.zip t.rows := by
    rw [zip_eq_map_range h]
    exact List.mem_map_of_mem (List.mem_range.mpr hk)
  simpa using hlength _ hmem

theorem Above.solution_ge (h : t.Solved) (hm : 0 ≤ margin) (ha : t.Above margin) (j : Nat) :
    -margin ≤ t.solution j := by
  by_cases hb : ∃ k < t.rows.length, t.basic k = j
  · obtain ⟨k, hk, rfl⟩ := hb
    rw [h.solution_basic hk]
    exact ha k hk
  · rw [solution, basicPoint_eq_zero fun k hk he => hb ⟨k, hk, he⟩]
    exact neg_nonpos.mpr hm

/-- A solution of what is left after expelling extends to one of the rows before it. The artificial
variables of the dropped rows come to no more than the drift and what small entries add up to. -/
theorem Bounded.exists_solves_of_expelled (h : t.Solved) (ht : 0 ≤ tolerance)
    (hreal : real ≤ t.columns) (hd : 0 ≤ drift) (hb : t.Bounded real (tolerance * drift))
    (hs : ((t.expelArtificials real tolerance).dropArtificialColumns real).Solves y) :
    ∃ z, t.Solves z ∧ (∀ j < real, z j = y j) ∧ ∀ j, real ≤ j → |z j| ≤ tolerance *
      if ((t.expelArtificials real tolerance).dropArtificialColumns real).rows.length =
        t.rows.length then 0
      else expelDrift real tolerance (List.range t.rows.length) t drift +
        ∑ j ∈ Finset.range real, |y j| := by
  have hexpelled := (SolvedAs.refl h).foldl_expelRow ht hreal (List.range t.rows.length)
  have hlength := length_rows_foldl_expelRow real tolerance t (List.range t.rows.length)
  have hbasic := fun k (hk : k < t.rows.length) =>
    basic_foldl_expelRow (k := k) h ht hreal (List.range t.rows.length) hk
  obtain ⟨z, hz, hzreal, hzart⟩ :=
    exists_solves_of_drop hexpelled.solved (hexpelled.columns_eq ▸ hreal) hs
  rw [hlength] at hzart
  have hz' := (hexpelled.solves_iff z).mp hz
  refine ⟨z, hz', hzreal, fun j hj => ?_⟩
  by_cases hk : ∃ k < t.rows.length,
      ((List.range t.rows.length).foldl (Tableau.expelRow real tolerance) t).basic k = j
  · obtain ⟨k, hk, rfl⟩ := hk
    rw [if_neg, hbasic k hk hj]
    · have hle := abs_artificial_le h ht hreal hd hb _ (fun i hi => List.mem_range.mp hi) hz'
        hzart (List.mem_range.mpr hk) hj
      rwa [Finset.sum_congr rfl fun j hj => by rw [hzreal j (Finset.mem_range.mp hj)]] at hle
    · intro hsame
      have hlt := basic_lt_of_length_drop hexpelled.solved.toShaped (hsame.trans hlength.symm)
        (hlength.symm ▸ hk)
      omega
  · rw [hzart j hj fun k hlt he => hk ⟨k, hlt, he⟩, abs_zero]
    refine mul_nonneg ht ?_
    split
    · exact le_rfl
    · exact add_nonneg (hd.trans (le_expelDrift hd _)) (Finset.sum_nonneg fun _ _ => abs_nonneg _)

end Tableau

section Phases

open Tableau

variable {p : LinearProgram Rat} {s : Settings Rat} {start u : Tableau Rat} {pivots : Nat}

theorem objective_eq_sum (h : u.Solved) (hp : u.Priced (phaseOneCosts (layout p)))
    (hcolumns : u.columns = (layout p).total) :
    u.objective = ∑ i ∈ u.artificialRows (layout p).real, u.rhs (u.row i) := by
  rw [← hp.eval_solution h, solution, eval_basicPoint h.toShaped, sum_phaseOneCosts h hcolumns]

theorem bounded_of_sum_le {real : Nat} {margin left : Rat} (hm : 0 ≤ margin) (hl : 0 ≤ left)
    (ha : u.Above margin)
    (hsum : ∑ i ∈ u.artificialRows real, u.rhs (u.row i) ≤ left) :
    u.Bounded real (left + u.rows.length * margin) := by
  have hgrow : ∀ k < u.rows.length, margin ≤ left + u.rows.length * margin := fun k hk => by
    have hone : (1 : Rat) ≤ u.rows.length := sub_nonneg.mp (others_nonneg hk)
    have := le_mul_of_one_le_left hm hone
    linarith
  refine ⟨fun k hk => (neg_le_neg (hgrow k hk)).trans (ha k hk), fun k hk hb => abs_le.mpr
    ⟨(neg_le_neg (hgrow k hk)).trans (ha k hk), ?_⟩⟩
  have hmem : k ∈ u.artificialRows real :=
    Finset.mem_filter.mpr ⟨Finset.mem_range.mpr hk, hb⟩
  have hothers := Finset.card_nsmul_le_sum ((u.artificialRows real).erase k)
    (fun i => u.rhs (u.row i)) (-margin) fun i hi =>
      ha i (Finset.mem_range.mp (Finset.mem_filter.mp (Finset.mem_of_mem_erase hi)).1)
  have hcard : ((u.artificialRows real).erase k).card ≤ u.rows.length :=
    (Finset.card_le_card (Finset.erase_subset _ _)).trans
      ((Finset.card_filter_le _ _).trans_eq (Finset.card_range _))
  have hcast := mul_le_mul_of_nonneg_right (Nat.cast_le (α := Rat).mpr hcard) hm
  rw [nsmul_eq_mul] at hothers
  rw [← Finset.add_sum_erase _ _ hmem] at hsum
  linarith

/-- The drift that phase one hands over. It makes its own pivots, may leave a part of the
artificial variables, and pivots them out. -/
def phaseOneDrift (s : Settings Rat) (p : LinearProgram Rat) : Rat :=
  if (layout p).real < (layout p).total then
    let u := (run s.tolerance s.maxIterations 0 (phaseOneStart p)).tableau
    let left := if u.objective ≤ 0 then 0 else feasibilityScale p
    expelDrift (layout p).real s.tolerance (List.range u.rows.length) u
      (left + u.rows.length * runDrift s.tolerance s.maxIterations (phaseOneStart p) 0)
  else 0

/-- The drift of the last tableau. -/
def phaseTwoDrift (s : Settings Rat) (p : LinearProgram Rat) (start : Tableau Rat)
    (pivots : Nat) : Rat :=
  runDrift s.tolerance (s.maxIterations - pivots) (start.priceOut (phaseTwoCosts p (layout p)))
    (phaseOneDrift s p)

/-- What the rows that phase one drops can be off by at a point. -/
def residue (s : Settings Rat) (p : LinearProgram Rat) (start : Tableau Rat)
    (y : Nat → Rat) : Rat :=
  if start.rows.length = p.rowCount then 0
  else phaseOneDrift s p + ∑ j ∈ Finset.range (layout p).real, |y j|

theorem feasibilityScale_nonneg (p : LinearProgram Rat) : 0 ≤ feasibilityScale p := by
  rw [feasibilityScale, Scalar.sum_rat]
  exact add_nonneg zero_le_one (List.sum_nonneg (List.forall_mem_map.mpr fun _ _ => by
    rw [Scalar.abs_rat]
    exact abs_nonneg _))

/-- What is known of the tableau that phase one hands over: how far its basic values are below
zero, and how far its solutions are from solving the standard form. -/
structure HandedOver (s : Settings Rat) (p : LinearProgram Rat) (start : Tableau Rat) : Prop where
  drift_nonneg : 0 ≤ phaseOneDrift s p
  above : start.Above (s.tolerance * phaseOneDrift s p)
  extends_solution : ∀ y, start.Solves y → ∃ z, (standardize p).Solves z ∧
    (∀ j < (layout p).real, z j = y j) ∧
    ∀ j, (layout p).real ≤ j → |z j| ≤ s.tolerance * residue s p start y

theorem length_rows_standardize (h : p.WellFormed) :
    (standardize p).rows.length = p.rowCount := by
  rw [standardize, List.length_map, length_standardRows, List.length_map, length_rowList h]

theorem handedOver_standardize (h : p.WellFormed)
    (hreal : ¬ (layout p).real < (layout p).total) : HandedOver s p (standardize p) := by
  have hdrift : phaseOneDrift s p = 0 := if_neg hreal
  have hcolumns : (standardize p).columns = (layout p).real :=
    (not_lt.mp hreal).antisymm (layout_real_le p)
  refine ⟨hdrift.ge, ?_, fun y hy => ?_⟩
  · rw [hdrift, mul_zero]
    exact (canonical_standardize h).above
  · refine ⟨Tableau.realPart (layout p).real y, ?_, fun j hj => if_pos hj, fun j hj => ?_⟩
    · intro row hrow
      rw [eval_realPart hcolumns.ge, ← hcolumns]
      exact hy row hrow
    · rw [Tableau.realPart, if_neg (not_lt.mpr hj), abs_zero, residue,
        if_pos (length_rows_standardize h), mul_zero]

theorem objective_le_left {objective scale : Rat} (hs : 0 ≤ scale)
    (h : objective ≤ s.tolerance * scale) :
    0 ≤ (if objective ≤ 0 then 0 else scale) ∧
      objective ≤ s.tolerance * if objective ≤ 0 then 0 else scale := by
  split
  · next hle => exact ⟨le_rfl, by rwa [mul_zero]⟩
  · exact ⟨hs, h⟩

theorem handedOver_expelled (ht : 0 ≤ s.tolerance) (h : p.WellFormed)
    (hreal : (layout p).real < (layout p).total)
    (hsum : (run s.tolerance s.maxIterations 0 (phaseOneStart p)).tableau.objective ≤
      s.tolerance * feasibilityScale p) :
    HandedOver s p (((run s.tolerance s.maxIterations 0
      (phaseOneStart p)).tableau.expelArtificials (layout p).real
        s.tolerance).dropArtificialColumns (layout p).real) := by
  have hstart := solved_phaseOneStart h
  have hr := reaches_run s.tolerance s.maxIterations 0 (phaseOneStart p)
  have habove : (phaseOneStart p).Above (s.tolerance * 0) := by
    rw [mul_zero]
    exact ((canonical_standardize h).priceOut _).above
  have hrun := habove.run hstart.toShaped ht le_rfl s.maxIterations 0
  have hrunDrift : 0 ≤ runDrift s.tolerance s.maxIterations (phaseOneStart p) 0 :=
    runDrift_nonneg ht le_rfl
  have hdrift : phaseOneDrift s p = _ := if_pos hreal
  have hsame := hr.solvedAs ht hstart
  have hsum' := objective_eq_sum hsame.solved (hr.priced ht hstart (priced_phaseOne h))
    hr.columns_eq
  have hrows : (run s.tolerance s.maxIterations 0 (phaseOneStart p)).tableau.rows.length =
      p.rowCount := hr.length_rows_eq.trans (length_rows_standardize h)
  have hreal' : (layout p).real ≤
      (run s.tolerance s.maxIterations 0 (phaseOneStart p)).tableau.columns :=
    (layout_real_le p).trans_eq hr.columns_eq.symm
  generalize (run s.tolerance s.maxIterations 0 (phaseOneStart p)).tableau = u at *
  generalize runDrift s.tolerance s.maxIterations (phaseOneStart p) 0 = drift at *
  have hleft := objective_le_left (feasibilityScale_nonneg p) hsum
  have hbounded := bounded_of_sum_le (mul_nonneg ht hrunDrift) (mul_nonneg ht hleft.1) hrun
    (hsum'.symm.trans_le hleft.2)
  rw [mul_left_comm, ← mul_add] at hbounded
  have hd := add_nonneg hleft.1 (mul_nonneg (Nat.cast_nonneg u.rows.length) hrunDrift)
  have hbound := hbounded.foldl_expelRow hsame.solved ht hreal' hd (List.range u.rows.length)
    fun i hi => List.mem_range.mp hi
  have hexpelled := (SolvedAs.refl hsame.solved).foldl_expelRow ht hreal'
    (List.range u.rows.length)
  refine ⟨hdrift ▸ hd.trans (le_expelDrift hd _), ?_, fun y hy => ?_⟩
  · rw [hdrift]
    exact hbound.above.drop hexpelled.solved.toShaped (hexpelled.columns_eq ▸ hreal')
  · obtain ⟨z, hz, hzreal, hzart⟩ :=
      hbounded.exists_solves_of_expelled hsame.solved ht hreal' hd hy
    refine ⟨z, (hsame.solves_iff z).mp hz, hzreal, fun j hj => ?_⟩
    rw [residue, hdrift, ← hrows]
    exact hzart j hj

theorem handedOver_of_phaseOne (ht : 0 ≤ s.tolerance) (h : p.WellFormed)
    (hone : phaseOne s p = .feasible start pivots) : HandedOver s p start := by
  simp only [phaseOne] at hone
  split at hone
  · next hreal =>
    split at hone
    · cases hone
    · cases hone
    · split at hone
      · cases hone
      · next hsum =>
        obtain ⟨rfl, -⟩ := PhaseOne.feasible.inj hone
        exact handedOver_expelled ht h hreal (not_lt.mp hsum)
  · next hreal =>
    obtain ⟨rfl, -⟩ := PhaseOne.feasible.inj hone
    exact handedOver_standardize h hreal

/-- All pivots of both phases are made in rows of least ratio, and phase one leaves nothing of the
artificial variables. -/
structure SteadyRun (s : Settings Rat) (p : LinearProgram Rat) (start : Tableau Rat) :
    Prop where
  phaseOne : (layout p).real < (layout p).total → (phaseOneStart p).Steady s.tolerance ∧
    (run s.tolerance s.maxIterations 0 (phaseOneStart p)).tableau.objective ≤ 0
  phaseTwo : (start.priceOut (phaseTwoCosts p (layout p))).Steady s.tolerance

theorem SteadyRun.phaseOneDrift_eq_zero (h : SteadyRun s p start) : phaseOneDrift s p = 0 := by
  unfold phaseOneDrift
  split
  · next hreal =>
    obtain ⟨hsteady, hobjective⟩ := h.phaseOne hreal
    simp only [hsteady.runDrift_eq_zero, hobjective, if_true, mul_zero, add_zero,
      expelDrift_zero]
  · rfl

theorem SteadyRun.phaseTwoDrift_eq_zero (h : SteadyRun s p start) (pivots : Nat) :
    phaseTwoDrift s p start pivots = 0 := by
  rw [phaseTwoDrift, h.phaseOneDrift_eq_zero]
  exact h.phaseTwo.runDrift_eq_zero

end Phases

end LeastCost.Simplex
