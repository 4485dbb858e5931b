import LeastCost.Proofs.Simplex.Rows

/-! # Tableaus solved for their basic variables

A pivot keeps the shape of a tableau, keeps it solved for one basic variable a row, and keeps
the solutions of its rows. It keeps the right-hand sides non-negative where no other row has a
lesser ratio.
-/

namespace LeastCost.Simplex

namespace Tableau

section Shape

variable {α : Type} {t : Tableau α} {i k c : Nat}

structure Shaped (t : Tableau α) : Prop where
  row_length : ∀ row ∈ t.rows, row.length = t.columns + 1
  basis_length : t.basis.length = t.rows.length
  basis_lt : ∀ b ∈ t.basis, b < t.columns

theorem row_eq_getElem (h : i < t.rows.length) : t.row i = t.rows[i] := by
  simp [row, List.getD_eq_getElem?_getD, h]

theorem row_of_le (h : t.rows.length ≤ i) : t.row i = [] := by
  simp [row, List.getD_eq_getElem?_getD, List.getElem?_eq_none h]

theorem basic_eq_getElem (h : i < t.basis.length) : t.basic i = t.basis[i] := by
  simp [basic, List.getD_eq_getElem?_getD, h]

theorem row_mem (h : i < t.rows.length) : t.row i ∈ t.rows :=
  row_eq_getElem h ▸ List.getElem_mem h

theorem forall_row_iff {P : List α → Prop} :
    (∀ row ∈ t.rows, P row) ↔ ∀ i < t.rows.length, P (t.row i) := by
  constructor
  · intro h i hi
    exact h _ (row_mem hi)
  · intro h row hrow
    obtain ⟨i, hi, rfl⟩ := List.mem_iff_getElem.mp hrow
    exact row_eq_getElem hi ▸ h i hi

theorem Shaped.length_row (h : t.Shaped) (hi : i < t.rows.length) :
    (t.row i).length = t.columns + 1 :=
  h.row_length _ (row_mem hi)

theorem Shaped.basic_lt (h : t.Shaped) (hi : i < t.rows.length) : t.basic i < t.columns := by
  have hb : i < t.basis.length := h.basis_length ▸ hi
  exact basic_eq_getElem hb ▸ h.basis_lt _ (List.getElem_mem hb)

variable [Scalar α]

theorem lt_length_of_entry_ne (h : entry (t.row i) c ≠ 0) : i < t.rows.length := by
  by_contra hn
  rw [row_of_le (not_lt.mp hn), entry_of_le (Nat.zero_le c)] at h
  exact h rfl

theorem length_pivotRow : (t.pivotRow i c).length = (t.row i).length := by
  simp [pivotRow]

@[simp] theorem length_rows_pivot : (t.pivot i c).rows.length = t.rows.length := by
  simp [pivot]

@[simp] theorem columns_pivot : (t.pivot i c).columns = t.columns := rfl

theorem row_pivot (hk : k < t.rows.length) : (t.pivot i c).row k =
    if k = i then t.pivotRow i c else eliminate (t.pivotRow i c) c (t.row k) := by
  rw [row_eq_getElem (by simpa using hk), row_eq_getElem hk]
  simp [pivot]

theorem basic_pivot (hk : k < t.basis.length) :
    (t.pivot i c).basic k = if k = i then c else t.basic k := by
  rw [basic_eq_getElem (by simpa [pivot] using hk), basic_eq_getElem hk]
  simp only [pivot, List.getElem_set, eq_comm]

theorem Shaped.pivot (h : t.Shaped) (hi : i < t.rows.length) (hc : c < t.columns) :
    (t.pivot i c).Shaped where
  row_length := forall_row_iff.mpr fun k hk => by
    rw [length_rows_pivot] at hk
    rw [row_pivot hk, columns_pivot]
    split
    · rw [length_pivotRow, h.length_row hi]
    · rw [length_eliminate (by rw [length_pivotRow, h.length_row hi, h.length_row hk]),
        h.length_row hk]
  basis_length := by simp [Tableau.pivot, h.basis_length]
  basis_lt b hb := by
    rcases List.mem_or_eq_of_mem_set hb with hb | rfl
    · exact h.basis_lt b hb
    · exact hc

end Shape

variable {t : Tableau Rat} {i k c : Nat} {y : Nat → Rat}

/-- Each basic column is a unit column with its one in the row that it is basic in. -/
structure Solved (t : Tableau Rat) : Prop extends t.Shaped where
  unit : ∀ i < t.rows.length, ∀ k < t.rows.length,
    entry (t.row k) (t.basic i) = if k = i then 1 else 0

structure Canonical (t : Tableau Rat) : Prop extends t.Solved where
  rhs_nonneg : ∀ row ∈ t.rows, 0 ≤ t.rhs row

/-- A point at which every row holds. -/
def Solves (t : Tableau Rat) (y : Nat → Rat) : Prop :=
  ∀ row ∈ t.rows, eval t.columns row y = t.rhs row

theorem solves_iff_gap : t.Solves y ↔ ∀ i < t.rows.length, gap t.columns (t.row i) y = 0 := by
  simp only [Solves, forall_row_iff, gap, sub_eq_zero]
  rfl

theorem Solved.basic_injective (h : t.Solved) (hi : i < t.rows.length) (hk : k < t.rows.length)
    (he : t.basic i = t.basic k) : i = k := by
  by_contra hn
  have hu := h.unit i hi k hk
  rw [if_neg (Ne.symm hn), he, h.unit k hk k hk, if_pos rfl] at hu
  exact one_ne_zero hu

theorem Solved.basis_nodup (h : t.Solved) : t.basis.Nodup := by
  rw [List.nodup_iff_injective_get]
  intro i k he
  simp only [List.get_eq_getElem, ← basic_eq_getElem] at he
  exact Fin.ext (h.basic_injective (h.basis_length ▸ i.isLt) (h.basis_length ▸ k.isLt) he)

theorem entry_pivotRow (h : t.Shaped) (hc : c < t.columns) (ha : entry (t.row i) c ≠ 0)
    (j : Nat) : entry (t.pivotRow i c) j = entry (t.row i) j / entry (t.row i) c := by
  have hi := lt_length_of_entry_ne ha
  simp only [pivotRow]
  rw [entry_set (by rw [List.length_map, h.length_row hi]; omega),
    entry_map (f := (· / entry (t.row i) c)) (zero_div _)]
  split_ifs with hj
  · rw [hj, div_self ha]
  · rfl

theorem entry_pivot (h : t.Shaped) (hc : c < t.columns) (ha : entry (t.row i) c ≠ 0)
    (hk : k < t.rows.length) (j : Nat) : entry ((t.pivot i c).row k) j =
      if k = i then entry (t.row i) j / entry (t.row i) c
      else entry (t.row k) j - entry (t.row k) c * (entry (t.row i) j / entry (t.row i) c) := by
  have hi := lt_length_of_entry_ne ha
  rw [row_pivot hk]
  split
  · exact entry_pivotRow h hc ha j
  · rw [entry_eliminate (by rw [length_pivotRow, h.length_row hi, h.length_row hk])
      (by rw [h.length_row hk]; omega) (by rw [entry_pivotRow h hc ha, div_self ha]),
      entry_pivotRow h hc ha]

theorem Solved.pivot (h : t.Solved) (hc : c < t.columns) (ha : entry (t.row i) c ≠ 0) :
    (t.pivot i c).Solved where
  toShaped := h.toShaped.pivot (lt_length_of_entry_ne ha) hc
  unit := by
    intro l hl k hk
    rw [length_rows_pivot] at hl hk
    rw [entry_pivot h.toShaped hc ha hk, basic_pivot (h.basis_length ▸ hl)]
    by_cases hli : l = i
    · subst hli
      rw [if_pos rfl, div_self ha]
      split_ifs <;> ring
    · -- The pivot row has zero in the basic column of every other row.
      have hz : entry (t.row i) (t.basic l) = 0 := by
        rw [h.unit l hl i (lt_length_of_entry_ne ha), if_neg (Ne.symm hli)]
      rw [if_neg hli, hz, h.unit l hl k hk]
      split_ifs <;> simp_all

/-- A pivot changes the rows but not their solutions. -/
theorem solves_pivot_iff (h : t.Shaped) (hc : c < t.columns) (ha : entry (t.row i) c ≠ 0) :
    (t.pivot i c).Solves y ↔ t.Solves y := by
  have hi := lt_length_of_entry_ne ha
  have hgap_i : gap t.columns ((t.pivot i c).row i) y =
      (entry (t.row i) c)⁻¹ * gap t.columns (t.row i) y :=
    gap_mul _ fun j _ => by rw [entry_pivot h hc ha hi, if_pos rfl, div_eq_inv_mul]
  have hgap : ∀ k < t.rows.length, k ≠ i → gap t.columns ((t.pivot i c).row k) y =
      gap t.columns (t.row k) y -
        entry (t.row k) c / entry (t.row i) c * gap t.columns (t.row i) y :=
    fun k hk hki => gap_sub_mul _ fun j _ => by rw [entry_pivot h hc ha hk, if_neg hki]; ring
  rw [solves_iff_gap, solves_iff_gap, length_rows_pivot, columns_pivot]
  constructor
  · intro hs
    have hzero : gap t.columns (t.row i) y = 0 := by
      have := hs i hi
      rw [hgap_i] at this
      exact (mul_eq_zero.mp this).resolve_left (inv_ne_zero ha)
    intro k hk
    by_cases hki : k = i
    · exact hki ▸ hzero
    · have := hs k hk
      rwa [hgap k hk hki, hzero, mul_zero, sub_zero] at this
  · intro hs k hk
    by_cases hki : k = i
    · rw [hki, hgap_i, hs i hi, mul_zero]
    · rw [hgap k hk hki, hs k hk, hs i hi, mul_zero, sub_zero]

theorem solved_of_lines (lines : List (Nat × List Rat)) (hbasis : t.basis = lines.map (·.1))
    (hrows : t.rows = lines.map (·.2))
    (hlines : ∀ line ∈ lines, line.2.length = t.columns + 1 ∧ line.1 < t.columns ∧
      entry line.2 line.1 = 1)
    (hpair : lines.Pairwise fun line line' =>
      entry line.2 line'.1 = 0 ∧ entry line'.2 line.1 = 0) : t.Solved where
  row_length row hrow := by
    rw [hrows] at hrow
    obtain ⟨line, hl, rfl⟩ := List.mem_map.mp hrow
    exact (hlines line hl).1
  basis_length := by simp [hbasis, hrows]
  basis_lt b hb := by
    rw [hbasis] at hb
    obtain ⟨line, hl, rfl⟩ := List.mem_map.mp hb
    exact (hlines line hl).2.1
  unit i hi k hk := by
    have hi' : i < lines.length := by simpa [hrows] using hi
    have hk' : k < lines.length := by simpa [hrows] using hk
    rw [row_eq_getElem hk, basic_eq_getElem (by simpa [hbasis] using hi')]
    simp only [hbasis, hrows, List.getElem_map]
    split_ifs with hki
    · subst hki
      exact (hlines _ (List.getElem_mem hk')).2.2
    · rcases Nat.lt_or_gt_of_ne hki with hlt | hgt
      · exact (List.pairwise_iff_getElem.mp hpair k i hk' hi' hlt).1
      · exact (List.pairwise_iff_getElem.mp hpair i k hi' hk' hgt).2

theorem Canonical.rhs_row (h : t.Canonical) (hi : i < t.rows.length) : 0 ≤ t.rhs (t.row i) :=
  h.rhs_nonneg _ (row_mem hi)

/-- A pivot on a positive entry of least ratio keeps the right-hand sides non-negative. -/
theorem Canonical.pivot (h : t.Canonical) (hc : c < t.columns) (ha : 0 < entry (t.row i) c)
    (hleast : ∀ k < t.rows.length, 0 < entry (t.row k) c →
      t.rhs (t.row i) / entry (t.row i) c ≤ t.rhs (t.row k) / entry (t.row k) c) :
    (t.pivot i c).Canonical where
  toSolved := h.toSolved.pivot hc ha.ne'
  rhs_nonneg := forall_row_iff.mpr fun k hk => by
    rw [length_rows_pivot] at hk
    have hi := lt_length_of_entry_ne ha.ne'
    have hratio : 0 ≤ t.rhs (t.row i) / entry (t.row i) c := div_nonneg (h.rhs_row hi) ha.le
    rw [rhs, columns_pivot, entry_pivot h.toShaped hc ha.ne' hk]
    split
    · exact hratio
    · rcases lt_or_ge 0 (entry (t.row k) c) with hpos | hneg
      · have := (le_div_iff₀ hpos).mp (hleast k hk hpos)
        rw [mul_comm] at this
        exact sub_nonneg.mpr this
      · have := mul_nonpos_of_nonpos_of_nonneg hneg hratio
        have := h.rhs_row hk
        simp only [rhs] at *
        linarith

end Tableau

end LeastCost.Simplex
