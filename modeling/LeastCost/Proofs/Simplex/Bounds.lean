import LeastCost.Proofs.Simplex.Checked
import LeastCost.Proofs.Simplex.Optimality
import LeastCost.Scalar.Double

/-! # Accesses in range

Nothing is assumed of the scalars, so nothing follows from a comparison. The shape of a tableau is
kept by every operation on it all the same, and is all that the accesses of the next operation
need. So the checked simplex method never fails, and gives what the simplex method gives.
-/

namespace LeastCost.Simplex

open LinearProgram (Row Solution)

section Loops

variable {β γ : Type} (xs : List β)

theorem mapM_eq_some {f : β → Option γ} {g : β → γ} (h : ∀ x ∈ xs, f x = some (g x)) :
    xs.mapM f = some (xs.map g) := by
  induction xs with
  | nil => rfl
  | cons x xs ih =>
    rw [List.mapM_cons, h x List.mem_cons_self, ih fun y hy => h y (List.mem_cons_of_mem _ hy)]
    rfl

theorem foldlM_eq_some {P : γ → Prop} {f : γ → β → Option γ} {g : γ → β → γ}
    (h : ∀ c, P c → ∀ x ∈ xs, f c x = some (g c x) ∧ P (g c x)) {c : γ} (hc : P c) :
    xs.foldlM f c = some (xs.foldl g c) ∧ P (xs.foldl g c) := by
  induction xs generalizing c with
  | nil => exact ⟨rfl, hc⟩
  | cons x xs ih =>
    obtain ⟨hf, hg⟩ := h c hc x List.mem_cons_self
    rw [List.foldlM_cons, hf]
    exact ih (fun c hc y hy => h c hc y (List.mem_cons_of_mem _ hy)) hg

theorem findM?_eq_some {f : β → Option Bool} {g : β → Bool} (h : ∀ x ∈ xs, f x = some (g x)) :
    xs.findM? f = some (xs.find? g) := by
  induction xs with
  | nil => rfl
  | cons x xs ih =>
    have hx := h x List.mem_cons_self
    have htail := ih fun y hy => h y (List.mem_cons_of_mem _ hy)
    simp only [List.findM?, hx, List.find?_cons, htail]
    cases g x <;> rfl

end Loops

variable {α : Type}

theorem guard_eq {p : Prop} [Decidable p] (h : p) : (guard p : Option Unit) = some () := if_pos h

theorem Checked.write_eq {β : Type} {xs : List β} {i : Nat} {x : β} (h : i < xs.length) :
    write xs i x = some (xs.set i x) :=
  if_pos h

variable [Scalar α]

theorem getElem?_eq_entry {row : List α} {j : Nat} (h : j < row.length) :
    row[j]? = some (entry row j) := by
  rw [entry_eq_getElem h, List.getElem?_eq_getElem h]

namespace Tableau

variable {t : Tableau α} {n i c : Nat} {columnCosts : List α}

omit [Scalar α] in
theorem getElem?_rows (h : i < t.rows.length) : t.rows[i]? = some (t.row i) := by
  rw [row_eq_getElem h, List.getElem?_eq_getElem h]

omit [Scalar α] in
theorem Shaped.getElem?_basis (h : t.Shaped) (hi : i < t.rows.length) :
    t.basis[i]? = some (t.basic i) := by
  have hb : i < t.basis.length := h.basis_length ▸ hi
  rw [basic_eq_getElem hb, List.getElem?_eq_getElem hb]

theorem Fits.pivot (h : t.Fits n) (hi : i < t.rows.length) (hc : c < n) :
    (t.pivot i c).Fits n where
  toShaped := h.toShaped.pivot hi (h.columns_eq.symm ▸ hc)
  columns_eq := h.columns_eq
  costs_length := by
    have hlength : (t.pivotRow i c).length = t.costs.length := by
      rw [length_pivotRow, h.length_row hi, h.costs_length, h.columns_eq]
    exact (length_eliminate hlength).trans h.costs_length

end Tableau

open Tableau

section Steps

variable {t : Tableau α} {n i c : Nat} {tolerance : α} {columnCosts : List α}

theorem Checked.eliminate_eq {pivotRow row : List α} (hp : pivotRow.length = row.length)
    (hc : c < row.length) :
    Checked.eliminate pivotRow c row = some (Simplex.eliminate pivotRow c row) := by
  have hwrite : write (row.zipWith (fun x p => x - entry row c * p) pivotRow) c 0 =
      some ((row.zipWith (fun x p => x - entry row c * p) pivotRow).set c 0) :=
    write_eq (by simpa [hp] using hc)
  simp only [Checked.eliminate, getElem?_eq_entry hc, Simplex.eliminate, bind, Option.bind]
  split
  · rfl
  · exact hwrite

theorem Checked.pivot_eq (h : t.Fits n) (hi : i < t.rows.length) (hc : c < n) :
    Checked.pivot t i c = some (t.pivot i c) := by
  have hrow : ∀ k < t.rows.length, (t.row k).length = n + 1 :=
    fun k hk => h.columns_eq ▸ h.length_row hk
  have hpivot : (t.pivotRow i c).length = n + 1 := length_pivotRow.trans (hrow i hi)
  have hwrite : write ((t.row i).map (· / entry (t.row i) c)) c 1 = some (t.pivotRow i c) :=
    write_eq (by rw [List.length_map, hrow i hi]; omega)
  have hrows : (t.rows.zipIdx.mapM fun line : List α × Nat =>
      if line.2 = i then some (t.pivotRow i c) else Checked.eliminate (t.pivotRow i c) c line.1) =
        some (t.pivot i c).rows := by
    rw [mapM_eq_some _ (g := fun line : List α × Nat =>
      if line.2 = i then t.pivotRow i c else Simplex.eliminate (t.pivotRow i c) c line.1)]
    · rw [Tableau.pivot, List.mapIdx_eq_zipIdx_map]
    · rintro ⟨row, k⟩ hmem
      have hlength : row.length = n + 1 :=
        h.columns_eq ▸ h.row_length row (List.fst_mem_of_mem_zipIdx hmem)
      dsimp only
      split
      · rfl
      · exact eliminate_eq (hpivot.trans hlength.symm) (by omega)
  have hcosts : Checked.eliminate (t.pivotRow i c) c t.costs = some (t.pivot i c).costs :=
    eliminate_eq (hpivot.trans h.costs_length.symm) (by rw [h.costs_length]; omega)
  have hbasis : write t.basis i c = some (t.pivot i c).basis :=
    write_eq (h.basis_length ▸ hi)
  have hentry : (t.row i)[c]? = some (entry (t.row i) c) :=
    getElem?_eq_entry (by rw [hrow i hi]; omega)
  simp only [Checked.pivot, getElem?_rows hi, hentry, hwrite, hrows, hcosts, hbasis, bind,
    Option.bind]
  rfl

theorem Checked.objective_eq (h : t.Fits n) : Checked.objective t = some t.objective := by
  have hlast : t.costs[t.columns]? = some (entry t.costs t.columns) :=
    getElem?_eq_entry (by rw [h.costs_length, h.columns_eq]; omega)
  simp only [Checked.objective, hlast]
  rfl

theorem Checked.priceOut_eq (h : t.Shaped) (hc : columnCosts.length = t.columns) :
    Checked.priceOut t columnCosts = some (t.priceOut columnCosts) ∧
      (t.priceOut columnCosts).Fits t.columns := by
  obtain ⟨hloop, hlength⟩ := foldlM_eq_some (t.rows.zip t.basis)
    (f := Checked.priceRow columnCosts) (c := columnCosts ++ [0])
    (P := fun costs => costs.length = t.columns + 1)
    (g := fun costs line =>
      if Scalar.isZero (entry columnCosts line.2) then costs
      else costs.zipWith (fun c a => c - entry columnCosts line.2 * a) line.1)
    (fun costs hcosts line hmem => by
      have hmem' := List.of_mem_zip hmem
      have hlt : line.2 < columnCosts.length := hc ▸ h.basis_lt _ hmem'.2
      constructor
      · simp only [priceRow, getElem?_eq_entry hlt]
        rfl
      · split
        · exact hcosts
        · rw [List.length_zipWith, hcosts, h.row_length _ hmem'.1, min_self])
    (by rw [List.length_append, hc]; rfl)
  constructor
  · simp only [Checked.priceOut, hloop]
    rfl
  · exact ⟨⟨h.row_length, h.basis_length, h.basis_lt⟩, rfl, hlength⟩

end Steps

section Choices

variable {t : Tableau α} {n c : Nat} {tolerance : α}

def Tableau.tighter (t : Tableau α) (tolerance : α) (column next best : Nat) : Bool :=
  decide (t.ratio column next < t.ratio column best - tolerance) ||
    (decide (Scalar.abs (t.ratio column next - t.ratio column best) ≤ tolerance) &&
      decide (t.basic next < t.basic best))

def Tableau.tightest (t : Tableau α) (tolerance : α) (column : Nat) (best : Option Nat)
    (i : Nat) : Option Nat :=
  if entry (t.row i) column ≤ tolerance then best
  else
    match best with
    | none => some i
    | some k => if t.tighter tolerance column i k then some i else some k

theorem Tableau.foldl_tightest_some (t : Tableau α) (tolerance : α) (column : Nat) (xs : List Nat)
    (k : Nat) : xs.foldl (t.tightest tolerance column) (some k) =
      some ((xs.filter fun i => !decide (entry (t.row i) column ≤ tolerance)).foldl
        (fun best next => if t.tighter tolerance column next best then next else best) k) := by
  induction xs generalizing k with
  | nil => rfl
  | cons i xs ih =>
    rw [List.foldl_cons]
    by_cases hi : entry (t.row i) column ≤ tolerance
    · simp only [tightest, hi, if_true, ih, decide_true, Bool.not_true, List.filter_cons,
        Bool.false_eq_true, if_false]
    · simp only [tightest, hi, if_false, decide_false, Bool.not_false, List.filter_cons, if_true,
        List.foldl_cons]
      split <;> exact ih _

theorem Tableau.leavingRow_eq_foldl (t : Tableau α) (tolerance : α) (column : Nat) :
    t.leavingRow tolerance column =
      (List.range t.rows.length).foldl (t.tightest tolerance column) none := by
  have hscan : ∀ xs : List Nat, xs.foldl (t.tightest tolerance column) none =
      Selection.choose (t.tighter tolerance column)
        (xs.filter fun i => !decide (entry (t.row i) column ≤ tolerance)) := by
    intro xs
    induction xs with
    | nil => rfl
    | cons i xs ih =>
      rw [List.foldl_cons]
      by_cases hi : entry (t.row i) column ≤ tolerance
      · simp only [tightest, hi, if_true, ih, decide_true, Bool.not_true, List.filter_cons,
          Bool.false_eq_true, if_false]
      · simp only [tightest, hi, if_false, decide_false, Bool.not_false, List.filter_cons, if_true]
        exact foldl_tightest_some t tolerance column xs i
  exact (hscan _).symm

theorem Checked.limitBy_eq (h : t.Fits n) (hc : c < n) {best : Option Nat} {i : Nat}
    (hbest : ∀ k ∈ best, k < t.rows.length) (hi : i < t.rows.length) :
    limitBy tolerance t c (best.map fun k => (k, t.ratio c k)) i =
      some ((t.tightest tolerance c best i).map fun k => (k, t.ratio c k)) := by
  have hlength : (t.row i).length = t.columns + 1 := h.length_row hi
  have hentry : (t.row i)[c]? = some (entry (t.row i) c) :=
    getElem?_eq_entry (by rw [hlength, h.columns_eq]; omega)
  have hvalue : (t.row i)[t.columns]? = some (t.rhs (t.row i)) :=
    getElem?_eq_entry (by rw [hlength]; omega)
  have hratio : Scalar.max (t.rhs (t.row i)) 0 / entry (t.row i) c = t.ratio c i := rfl
  simp only [limitBy, getElem?_rows hi, hentry, hvalue, h.getElem?_basis hi, hratio, bind,
    Option.bind, tightest]
  split
  · rfl
  · cases best with
    | none => rfl
    | some k =>
      simp only [Option.map_some, h.getElem?_basis (hbest k rfl), tighter, Bool.or_eq_true,
        Bool.and_eq_true, decide_eq_true_eq]
      split <;> rfl

theorem Checked.leavingRow_eq (h : t.Fits n) (hc : c < n) :
    Checked.leavingRow tolerance t c = some (t.leavingRow tolerance c) := by
  have hloop : ∀ (xs : List Nat) (best : Option Nat), (∀ i ∈ xs, i < t.rows.length) →
      (∀ k ∈ best, k < t.rows.length) →
      xs.foldlM (limitBy tolerance t c) (best.map fun k => (k, t.ratio c k)) =
        some ((xs.foldl (t.tightest tolerance c) best).map fun k => (k, t.ratio c k)) := by
    intro xs
    induction xs with
    | nil => exact fun best _ _ => rfl
    | cons i xs ih =>
      intro best hxs hbest
      have hi := hxs i List.mem_cons_self
      rw [List.foldlM_cons, limitBy_eq h hc hbest hi]
      refine ih _ (fun k hk => hxs k (List.mem_cons_of_mem _ hk)) fun k hk => ?_
      unfold tightest at hk
      split at hk
      · exact hbest k hk
      · split at hk
        · exact Option.some.inj hk ▸ hi
        · next j =>
          split at hk
          · exact Option.some.inj hk ▸ hi
          · exact hbest k hk
  have hrange := hloop (List.range t.rows.length) none (fun i hi => List.mem_range.mp hi) (by simp)
  rw [Option.map_none] at hrange
  rw [Checked.leavingRow, hrange, leavingRow_eq_foldl]
  simp only [bind, Option.bind, pure, Option.map_map]
  congr 1
  exact Option.map_id'

theorem Checked.next_eq (h : t.Fits n) : Checked.next tolerance t = some (t.next tolerance) := by
  have hcosts : t.columns ≤ t.costs.length := by rw [h.costs_length, h.columns_eq]; omega
  have hentering : Checked.enteringColumn tolerance t = some (t.enteringColumn tolerance) := by
    simp only [Checked.enteringColumn, guard_eq hcosts]
    rfl
  simp only [Checked.next, hentering, Tableau.next, bind, Option.bind]
  cases hcolumn : t.enteringColumn tolerance with
  | none => rfl
  | some c =>
    have hc : c < n := h.columns_eq ▸ (lt_of_enteringColumn hcolumn).1
    simp only [leavingRow_eq h hc]
    cases t.leavingRow tolerance c <;> rfl

theorem Tableau.Fits.of_next_pivot (h : t.Fits n) {i : Nat}
    (hnext : t.next tolerance = .pivot i c) : i < t.rows.length ∧ c < n := by
  obtain ⟨hc, hi⟩ := choices_of_next_eq_pivot hnext
  exact ⟨(lt_of_leavingRow hi).1, h.columns_eq ▸ (lt_of_enteringColumn hc).1⟩

/-- Every tableau that a run comes to fits, so the run goes through. -/
theorem Checked.run_eq (h : t.Fits n) (tolerance : α) (budget pivots : Nat) :
    Checked.run n tolerance budget pivots t = some (Simplex.run tolerance budget pivots t) ∧
      (Simplex.run tolerance budget pivots t).tableau.Fits n := by
  induction budget generalizing t pivots with
  | zero =>
    unfold Checked.run Simplex.run
    simp only [guard_eq h, next_eq h, bind, Option.bind]
    cases t.next tolerance <;> exact ⟨rfl, h⟩
  | succ budget ih =>
    unfold Checked.run Simplex.run
    simp only [guard_eq h, next_eq h, bind, Option.bind]
    cases hnext : t.next tolerance with
    | optimal => exact ⟨rfl, h⟩
    | unbounded => exact ⟨rfl, h⟩
    | pivot i c =>
      obtain ⟨hi, hc⟩ := h.of_next_pivot hnext
      simp only [pivot_eq h hi hc]
      exact ih (h.pivot hi hc) (pivots + 1)

end Choices

section Standard

variable {l : Layout} {p : LinearProgram α}

theorem Checked.standardRows_eq {s a : Nat} {rows : List (Row α)} (h : Room l s a rows) :
    Checked.standardRows l s a rows = some (Simplex.standardRows l s a rows) ∧
      ∀ line ∈ Simplex.standardRows l s a rows,
        line.2.length = l.total + 1 ∧ line.1 < l.total := by
  induction rows generalizing s a with
  | nil => exact ⟨rfl, by simp [Simplex.standardRows]⟩
  | cons r rows ih =>
    have hc := h.coefficients_length r List.mem_cons_self
    have hle := h.total_le
    have hreal := h.real_le
    have hlength := length_blankRow hc (hle.1.trans hle.2)
    have hblank : Checked.blankRow l r = some (l.blankRow r) := by
      simp only [Checked.blankRow, guard_eq (And.intro hc (hle.1.trans hle.2))]
      rfl
    have hslack := h.slack_lt
    have hartificial := h.artificial_lt
    obtain ⟨htail, hlines⟩ := ih h.tail
    have hwrite : ∀ (j : Nat) (x : α), j < l.total →
        write (l.blankRow r) j x = some ((l.blankRow r).set j x) :=
      fun j x hj => write_eq (by rw [hlength]; omega)
    rw [Simplex.standardRows_cons]
    obtain ⟨coefficients, sign, bound⟩ := r
    cases sign with
    | lessEqual =>
      have hs : s < l.real := hslack rfl
      refine ⟨?_, List.forall_mem_cons.mpr ⟨⟨?_, by change s < l.total; omega⟩, hlines⟩⟩
      · have hrest : Checked.standardRows l (s + 1) a rows = some _ := htail
        simp only [Checked.standardRows, hblank, bind, Option.bind, hwrite s 1 (by omega), hrest]
        rfl
      · exact (List.length_set ..).trans hlength
    | greaterEqual =>
      have hs : s < l.real := hslack rfl
      have ha : a < l.total := hartificial rfl
      refine ⟨?_, List.forall_mem_cons.mpr ⟨⟨?_, ha⟩, hlines⟩⟩
      · have hwrite' : write ((l.blankRow ⟨coefficients, .greaterEqual, bound⟩).set s (-1)) a 1 =
            some (((l.blankRow ⟨coefficients, .greaterEqual, bound⟩).set s (-1)).set a 1) :=
          write_eq (by rw [List.length_set, hlength]; omega)
        have hrest : Checked.standardRows l (s + 1) (a + 1) rows = some _ := htail
        simp only [Checked.standardRows, hblank, bind, Option.bind, hwrite s (-1) (by omega),
          hwrite', hrest]
        rfl
      · exact (List.length_set ..).trans ((List.length_set ..).trans hlength)
    | equal =>
      have ha : a < l.total := hartificial rfl
      refine ⟨?_, List.forall_mem_cons.mpr ⟨⟨?_, ha⟩, hlines⟩⟩
      · have hrest : Checked.standardRows l s (a + 1) rows = some _ := htail
        simp only [Checked.standardRows, hblank, bind, Option.bind, hwrite a 1 ha, hrest]
        rfl
      · exact (List.length_set ..).trans hlength

theorem Checked.standardize_eq (h : p.WellFormed) :
    Checked.standardize p = some (Simplex.standardize p) ∧ (Simplex.standardize p).Shaped := by
  obtain ⟨hrows, hlines⟩ := standardRows_eq (room_layout h)
  constructor
  · simp only [Checked.standardize, hrows]
    rfl
  · refine ⟨?_, by simp [Simplex.standardize], ?_⟩
    · exact List.forall_mem_map.mpr fun line hline => (hlines line hline).1
    · exact List.forall_mem_map.mpr fun line hline => (hlines line hline).2

end Standard

section Artificial

variable {t : Tableau α} {n real i : Nat}

theorem Checked.expelRow_eq (tolerance : α) (h : t.Fits n) (hreal : real ≤ n)
    (hi : i < t.rows.length) :
    Checked.expelRow real tolerance n t i = some (t.expelRow real tolerance i) ∧
      (t.expelRow real tolerance i).Fits n ∧
      (t.expelRow real tolerance i).rows.length = t.rows.length := by
  have hlength : (t.row i).length = n + 1 := h.columns_eq ▸ h.length_row hi
  have hfind : (List.range real).findM? (fun j => do
      let x ← (t.row i)[j]?
      return decide (tolerance < Scalar.abs x)) =
        some ((List.range real).find? fun j =>
          decide (tolerance < Scalar.abs (entry (t.row i) j))) := by
    refine findM?_eq_some _ fun j hj => ?_
    have hj' : (t.row i)[j]? = some (entry (t.row i) j) :=
      getElem?_eq_entry (by have := List.mem_range.mp hj; omega)
    simp only [hj']
    rfl
  simp only [bind, Option.bind] at hfind
  simp only [Checked.expelRow, guard_eq h, h.getElem?_basis hi, getElem?_rows hi, hfind,
    Tableau.expelRow, bind, Option.bind]
  split
  · exact ⟨rfl, h, rfl⟩
  · cases hj : (List.range real).find? fun j =>
        decide (tolerance < Scalar.abs (entry (t.row i) j)) with
    | some j =>
      have hj' : j < n := (List.mem_range.mp (List.mem_of_find?_eq_some hj)).trans_le hreal
      exact ⟨pivot_eq h hi hj', h.pivot hi hj', length_rows_pivot⟩
    | none => exact ⟨rfl, h, rfl⟩

omit [Scalar α] in
theorem Tableau.Shaped.dropRedundantRows (h : t.Shaped) (real : Nat) :
    (t.dropRedundantRows real).Shaped ∧ (t.dropRedundantRows real).columns = t.columns ∧
      ∀ b ∈ (t.dropRedundantRows real).basis, b < real := by
  have hmem : ∀ line ∈ (t.basis.zip t.rows).filter fun line => line.1 < real,
      (line.1 ∈ t.basis ∧ line.2 ∈ t.rows) ∧ line.1 < real := fun line hline =>
    ⟨List.of_mem_zip (List.mem_filter.mp hline).1, by simpa using (List.mem_filter.mp hline).2⟩
  refine ⟨⟨?_, ?_, ?_⟩, rfl, ?_⟩
  · exact List.forall_mem_map.mpr fun line hline => h.row_length _ (hmem line hline).1.2
  · exact (List.length_map _).trans (List.length_map _).symm
  · exact List.forall_mem_map.mpr fun line hline => h.basis_lt _ (hmem line hline).1.1
  · exact List.forall_mem_map.mpr fun line hline => (hmem line hline).2

theorem Checked.expelArtificials_eq (tolerance : α) (h : t.Fits n) (hreal : real ≤ n) :
    Checked.expelArtificials real tolerance t = some (t.expelArtificials real tolerance) ∧
      (t.expelArtificials real tolerance).Shaped ∧
      (t.expelArtificials real tolerance).columns = n ∧
      ∀ b ∈ (t.expelArtificials real tolerance).basis, b < real := by
  obtain ⟨hloop, hfits, -⟩ := foldlM_eq_some (List.range t.rows.length)
    (f := Checked.expelRow real tolerance n) (g := Tableau.expelRow real tolerance)
    (P := fun u => u.Fits n ∧ u.rows.length = t.rows.length)
    (fun u ⟨hu, hlength⟩ i hi => by
      obtain ⟨hrow, hu', hlength'⟩ := expelRow_eq tolerance hu hreal
        (hlength.symm ▸ List.mem_range.mp hi)
      exact ⟨hrow, hu', hlength'.trans hlength⟩)
    ⟨h, rfl⟩
  obtain ⟨hshaped, hcolumns, hbasis⟩ := hfits.toShaped.dropRedundantRows real
  refine ⟨?_, hshaped, hcolumns.trans hfits.columns_eq, hbasis⟩
  simp only [Checked.expelArtificials, h.columns_eq, hloop, bind, Option.bind,
    guard_eq hfits]
  rfl

theorem Checked.dropArtificialColumns_eq (h : t.Shaped) (hreal : real ≤ t.columns)
    (hbasis : ∀ b ∈ t.basis, b < real) :
    Checked.dropArtificialColumns real t = some (t.dropArtificialColumns real) ∧
      (t.dropArtificialColumns real).Shaped := by
  constructor
  · have hrows : (t.rows.mapM fun row => do
        let value ← row[t.columns]?
        return row.take real ++ [value]) =
          some (t.rows.map fun row => row.take real ++ [t.rhs row]) := by
      refine mapM_eq_some _ fun row hrow => ?_
      have hlast : row[t.columns]? = some (entry row t.columns) :=
        getElem?_eq_entry (by have := h.row_length row hrow; omega)
      simp only [hlast]
      rfl
    simp only [Checked.dropArtificialColumns, hrows]
    rfl
  · refine ⟨List.forall_mem_map.mpr fun row hrow => ?_, ?_, hbasis⟩
    · have hlength := h.row_length row hrow
      rw [List.length_append, List.length_take, List.length_singleton, hlength,
        Nat.min_eq_left (by omega)]
      rfl
    · exact h.basis_length.trans (List.length_map _).symm

end Artificial

section Solutions

variable {t : Tableau α} {n : Nat}

theorem Checked.basicValues_eq (h : t.Shaped) (count : Nat) (tolerance : α) :
    Checked.basicValues t count tolerance = some (t.basicValues count tolerance) ∧
      (t.basicValues count tolerance).length = count := by
  have hlines : t.basis.zip t.rows =
      t.basis.zipIdx.map fun line => (line.1, t.row line.2) := by
    rw [zip_eq_map_range h]
    apply List.ext_getElem
    · simp [h.basis_length]
    · intro i hi _
      have hi' : i < t.rows.length := by simpa using hi
      simp [basic_eq_getElem (h.basis_length ▸ hi')]
  have hvalues : t.basicValues count tolerance = t.basis.zipIdx.foldl
      (fun values line => values.set line.1 (Scalar.clean tolerance (t.rhs (t.row line.2))))
      (List.replicate count 0) := by
    rw [Tableau.basicValues, hlines, List.foldl_map]
  rw [hvalues, Checked.basicValues]
  refine foldlM_eq_some _ (P := fun values : List α => values.length = count) ?_
    List.length_replicate
  rintro values hvalues ⟨basic, i⟩ hmem
  refine ⟨?_, (List.length_set ..).trans hvalues⟩
  have hi : i < t.rows.length := by
    have := (List.mem_zipIdx_iff_getElem?.mp hmem)
    exact h.basis_length ▸ (List.getElem?_eq_some_iff.mp this).1
  have hrhs : (t.row i)[t.columns]? = some (t.rhs (t.row i)) :=
    getElem?_eq_entry (by rw [h.length_row hi]; omega)
  simp only [placeValue, getElem?_rows hi, hrhs, bind, Option.bind]
  split
  · next hlt => exact write_eq (hvalues.symm ▸ hlt)
  · next hge =>
    rw [List.set_eq_of_length_le (by omega)]
    rfl

end Solutions

section Phases

variable {s : Settings α} {p : LinearProgram α}

theorem Checked.phaseOne_eq (h : p.WellFormed) :
    Checked.phaseOne s p = some (Simplex.phaseOne s p) ∧
      ∀ start pivots, Simplex.phaseOne s p = .feasible start pivots → Ready p start := by
  obtain ⟨hstandard, hshaped⟩ := standardize_eq h
  have hcosts : (phaseOneCosts (layout p) : List α).length = (Simplex.standardize p).columns :=
    length_phaseOneCosts p
  obtain ⟨hprice, hfits⟩ := priceOut_eq hshaped hcosts
  obtain ⟨hrun, hlast⟩ := run_eq hfits s.tolerance s.maxIterations 0
  have hcolumns : (Simplex.standardize p).columns = (layout p).total := rfl
  rw [hcolumns] at hrun hlast
  generalize hr : Simplex.run s.tolerance s.maxIterations 0
    ((Simplex.standardize p).priceOut (phaseOneCosts (layout p))) = r at hrun hlast
  simp only [Checked.phaseOne, Simplex.phaseOne, hstandard, guard_eq hshaped, hprice, hrun, hr,
    bind, Option.bind]
  split
  · cases hv : r.verdict with
    | iterationLimit => exact ⟨rfl, fun _ _ he => by cases he⟩
    | unbounded => exact ⟨rfl, fun _ _ he => by cases he⟩
    | optimal =>
      simp only [objective_eq hlast]
      split
      · exact ⟨rfl, fun _ _ he => by cases he⟩
      · obtain ⟨hexpel, hshaped', hcolumns', hbasis⟩ := expelArtificials_eq
          s.tolerance hlast (layout_real_le p)
        obtain ⟨hdrop, hready⟩ := dropArtificialColumns_eq hshaped'
          (hcolumns'.symm ▸ layout_real_le p) hbasis
        simp only [hexpel, guard_eq hshaped', hdrop]
        exact ⟨rfl, fun _ _ he => by cases he; exact ⟨hready, rfl⟩⟩
  · next hn =>
    refine ⟨rfl, fun _ _ he => ?_⟩
    cases he
    exact ⟨hshaped, (layout_real_le p).antisymm' (not_lt.mp hn)⟩

theorem Checked.phaseTwo_eq {start : Tableau α} (h : Ready p start) (pivots : Nat) :
    Checked.phaseTwo s p start pivots = some (Simplex.phaseTwo s p start pivots) ∧
      (Simplex.phaseTwo s p start pivots).tableau.Fits (layout p).real := by
  obtain ⟨hprice, hfits⟩ := priceOut_eq h.1 ((length_phaseTwoCosts p).trans h.2.symm)
  rw [h.2] at hfits
  obtain ⟨hrun, hlast⟩ := run_eq hfits s.tolerance (s.maxIterations - pivots) pivots
  refine ⟨?_, hlast⟩
  simp only [Checked.phaseTwo, guard_eq h, hprice, bind, Option.bind]
  exact hrun

theorem Checked.optimum_eq {t : Tableau α} {n : Nat} (h : t.Fits n) :
    Checked.optimum s p t = some (Simplex.optimum s p t) := by
  simp only [Checked.optimum, (basicValues_eq h.toShaped p.variableCount s.tolerance).1,
    objective_eq h]
  rfl

theorem Checked.optimize_eq (h : p.WellFormed) :
    Checked.optimize s p = some (Simplex.optimize s p) := by
  obtain ⟨hone, hready⟩ := phaseOne_eq (s := s) h
  simp only [Checked.optimize, Simplex.optimize, hone, bind, Option.bind]
  cases hphase : Simplex.phaseOne s p with
  | unbounded => rfl
  | iterationLimit pivots => rfl
  | infeasible pivots => rfl
  | feasible start pivots =>
    obtain ⟨htwo, hlast⟩ := phaseTwo_eq (s := s) (hready start pivots hphase) pivots
    simp only [htwo, optimum_eq hlast]
    cases (Simplex.phaseTwo s p start pivots).verdict <;> rfl

/-- Every tableau on the way has the shape that the next operation relies on. A run with a
smaller budget ends with an earlier tableau of the run, so the budgets name all of them. -/
structure KeepsShape (s : Settings α) (p : LinearProgram α) : Prop where
  standardize : (standardize p).Shaped
  phaseOne : ∀ budget, (run s.tolerance budget 0
    ((Simplex.standardize p).priceOut (phaseOneCosts (layout p)))).tableau.Fits (layout p).total
  ready : ∀ start pivots, Simplex.phaseOne s p = .feasible start pivots → Ready p start
  phaseTwo : ∀ start pivots, Simplex.phaseOne s p = .feasible start pivots → ∀ budget,
    (run s.tolerance budget pivots (start.priceOut (phaseTwoCosts p (layout p)))).tableau.Fits
      (layout p).real

theorem keepsShape (s : Settings α) (h : p.WellFormed) : KeepsShape s p where
  standardize := (Checked.standardize_eq h).2
  phaseOne budget := by
    have hfits := (Checked.priceOut_eq (Checked.standardize_eq h).2 (length_phaseOneCosts p)).2
    exact (Checked.run_eq hfits s.tolerance budget 0).2
  ready := (Checked.phaseOne_eq h).2
  phaseTwo start pivots hone budget := by
    have hready := (Checked.phaseOne_eq h).2 start pivots hone
    have hfits :=
      (Checked.priceOut_eq hready.1 ((length_phaseTwoCosts p).trans hready.2.symm)).2
    rw [hready.2] at hfits
    exact (Checked.run_eq hfits s.tolerance budget pivots).2

def PartsFit (p : LinearProgram α) (r : Solution α) : Prop :=
  if r.status = .optimal then
    r.value.isSome ∧ r.point.length = p.variableCount ∧ r.slack.length = p.rowCount
  else r.value = none ∧ r.point = [] ∧ r.slack = []

theorem partsFit_of_optimize (h : p.WellFormed) {r : Solution α} (hr : optimize s p = .ok r) :
    PartsFit p r := by
  unfold optimize at hr
  cases hone : phaseOne s p with
  | unbounded => simp [hone] at hr
  | iterationLimit pivots =>
    obtain rfl : _ = r := by simpa [hone] using hr
    exact ⟨rfl, rfl, rfl⟩
  | infeasible pivots =>
    obtain rfl : _ = r := by simpa [hone] using hr
    exact ⟨rfl, rfl, rfl⟩
  | feasible start pivots =>
    have hready := (Checked.phaseOne_eq h).2 start pivots hone
    have hlast := (Checked.phaseTwo_eq (s := s) hready pivots).2
    obtain rfl : _ = r := by simpa [hone] using hr
    cases (phaseTwo s p start pivots).verdict with
    | unbounded => exact ⟨rfl, rfl, rfl⟩
    | iterationLimit => exact ⟨rfl, rfl, rfl⟩
    | optimal =>
      have hpoint := (Checked.basicValues_eq hlast.toShaped p.variableCount s.tolerance).2
      have hslack := length_rowList h
      exact ⟨rfl, hpoint, (List.length_map _).trans hslack⟩

end Phases

/-- For all numbers that the settings and the program may hold: the tableaus keep their shape,
the checked method goes through with the same result, and a result has the parts of its
status. -/
theorem solve_in_bounds (s : Settings α) {p : LinearProgram α} (h : p.violations = []) :
    KeepsShape s p ∧ Checked.optimize s p = some (optimize s p) ∧
      ∀ r, solve s p = .ok r → PartsFit p r := by
  have hwf := LinearProgram.violations_eq_nil_iff.mp h
  refine ⟨keepsShape s hwf, Checked.optimize_eq hwf, fun r hr => ?_⟩
  exact partsFit_of_optimize hwf (accept_eq_ok_iff.mp hr).2

def mirrored : LinearProgram Float where
  direction := .maximize
  objective := [1.0, 2.0]
  constraints := [[-1.0, -1.0], [1.0, 0.0], [0.0, 1.0]]
  signs := [.lessEqual, .equal, .lessEqual]
  rhs := [-1.0, 0.5, 4.0]

/-- Nothing is at most a tolerance that is not a number, and nothing exceeds it. -/
theorem mirrored_in_bounds : mirrored.violations = [] ∧
    Checked.optimize ⟨0.0 / 0.0, 3⟩ mirrored = some (optimize ⟨0.0 / 0.0, 3⟩ mirrored) :=
  have h : mirrored.violations = [] := by decide +kernel
  ⟨h, (solve_in_bounds ⟨0.0 / 0.0, 3⟩ h).2.1⟩

end LeastCost.Simplex
