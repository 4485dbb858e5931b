import Mathlib.Order.Interval.Set.Defs
import Mathlib.Order.Monotone.Defs
import LeastCost.Proofs.Simplex.Phases

/-! # Columns of the standard form

The next free column of a kind is behind as many columns as there are rows of that kind before.
Every added column is therefore the slack of one inequality or the artificial variable of one
row, in row order, and each range of the layout holds the columns of one kind. The slacks that
make a point solve the standard form are the distances of the inequalities from their bounds.
-/

namespace LeastCost.Simplex

open LinearProgram (Row)

section Places

variable {β : Type} {kind : β → Bool} {xs : List β} {i k c : Nat}

def places (kind : β → Bool) (xs : List β) : Set Nat :=
  {i | ∃ h : i < xs.length, kind xs[i] = true}

/-- How many elements of a kind stand before a place. -/
def rank (kind : β → Bool) (xs : List β) (i : Nat) : Nat := (xs.take i).countP kind

theorem rank_lt_rank (hi : i ∈ places kind xs) (hik : i < k) : rank kind xs i < rank kind xs k := by
  obtain ⟨h, hkind⟩ := hi
  have hsucc : rank kind xs (i + 1) = rank kind xs i + 1 := by
    rw [rank, rank, List.take_succ_eq_append_getElem h, List.countP_append,
      List.countP_singleton, if_pos hkind]
  have hle : rank kind xs (i + 1) ≤ rank kind xs k :=
    (List.take_sublist_take_left hik).countP_le
  omega

theorem rank_lt (hi : i ∈ places kind xs) : rank kind xs i < xs.countP kind := by
  have h := rank_lt_rank hi hi.1
  rwa [rank, rank, List.take_length] at h

theorem exists_rank_eq (h : c < xs.countP kind) : ∃ i ∈ places kind xs, rank kind xs i = c := by
  induction xs generalizing c with
  | nil => simp at h
  | cons x xs ih =>
    by_cases hx : kind x = true
    · cases c with
      | zero => exact ⟨0, ⟨by simp, hx⟩, rfl⟩
      | succ c =>
        obtain ⟨i, ⟨hi, hkind⟩, rfl⟩ := ih (c := c) (by simpa [hx] using h)
        exact ⟨i + 1, ⟨by simpa using hi, hkind⟩, by simp [rank, hx]⟩
    · obtain ⟨i, ⟨hi, hkind⟩, rfl⟩ := ih (c := c) (by simpa [hx] using h)
      exact ⟨i + 1, ⟨by simpa using hi, hkind⟩, by simp [rank, hx]⟩

theorem image_add_rank (start : Nat) :
    (fun i => start + rank kind xs i) '' places kind xs =
      Set.Ico start (start + xs.countP kind) := by
  ext c
  constructor
  · rintro ⟨i, hi, rfl⟩
    have hlt := rank_lt hi
    exact ⟨Nat.le_add_right _ _, Nat.add_lt_add_left hlt _⟩
  · rintro ⟨hle, hlt⟩
    have hrank : c - start < xs.countP kind := by omega
    obtain ⟨i, hi, he⟩ := exists_rank_eq hrank
    exact ⟨i, hi, by dsimp only; omega⟩

end Places

section Ranges

variable {α : Type} {l : Layout} {s a i : Nat} {rows : List (Row α)}

/-- The column of the slack or surplus variable of a constraint. -/
def slackColumn (l : Layout) (rows : List (Row α)) (i : Nat) : Nat :=
  l.structural + rank (·.sign.hasSlack) rows i

def artificialColumn (l : Layout) (rows : List (Row α)) (i : Nat) : Nat :=
  l.real + rank (·.sign.needsArtificial) rows i

/-- The decision variables come first, then a column for each inequality in row order, then one
for each row that needs an artificial variable, and there are no other columns. -/
structure Layout.Partitions (l : Layout) (n : Nat) (rows : List (Row α)) : Prop where
  structural_eq : l.structural = n
  structural_le : l.structural ≤ l.real
  real_le : l.real ≤ l.total
  slack_range : slackColumn l rows '' places (·.sign.hasSlack) rows = Set.Ico l.structural l.real
  slack_mono : StrictMonoOn (slackColumn l rows) (places (·.sign.hasSlack) rows)
  artificial_range :
    artificialColumn l rows '' places (·.sign.needsArtificial) rows = Set.Ico l.real l.total
  artificial_mono : StrictMonoOn (artificialColumn l rows) (places (·.sign.needsArtificial) rows)

theorem Layout.partitions_ofRows (n : Nat) (rows : List (Row α)) :
    (Layout.ofRows n rows).Partitions n rows where
  structural_eq := rfl
  structural_le := Nat.le_add_right _ _
  real_le := Nat.le_add_right _ _
  slack_range := image_add_rank _
  slack_mono _ hi _ _ hlt := Nat.add_lt_add_left (rank_lt_rank hi hlt) _
  artificial_range := image_add_rank _
  artificial_mono _ hi _ _ hlt := Nat.add_lt_add_left (rank_lt_rank hi hlt) _

theorem Room.drop (h : Room l s a rows) (i : Nat) :
    Room l (s + rank (·.sign.hasSlack) rows i) (a + rank (·.sign.needsArtificial) rows i)
      (rows.drop i) := by
  have hsplit : ∀ kind : Row α → Bool, rank kind rows i + (rows.drop i).countP kind =
      rows.countP kind := fun kind => by
    rw [rank, ← List.countP_append, List.take_append_drop]
  have hslack := hsplit (·.sign.hasSlack)
  have hartificial := hsplit (·.sign.needsArtificial)
  have hs := h.slack_eq
  have ha := h.artificial_eq
  exact ⟨h.structural_le.trans (Nat.le_add_right _ _), by omega,
    h.real_le.trans (Nat.le_add_right _ _), by omega,
    fun r hr => h.coefficients_length r (List.mem_of_mem_drop hr)⟩

/-- The counters that are handed on are the ranks of the rows. -/
theorem getElem?_standardRows [Scalar α] (l : Layout) (s a : Nat) (h : i < rows.length) :
    (standardRows l s a rows)[i]? = some (standardLine l (s + rank (·.sign.hasSlack) rows i)
      (a + rank (·.sign.needsArtificial) rows i) rows[i]) := by
  induction rows generalizing s a i with
  | nil => simp at h
  | cons r rows ih =>
    rw [standardRows_cons]
    cases i with
    | zero => simp [rank]
    | succ i =>
      rw [List.getElem?_cons_succ, ih _ _ (by simpa using h)]
      simp only [rank, List.take_succ_cons, List.countP_cons, List.getElem_cons_succ, count]
      congr 2 <;> omega

end Ranges

section Entries

variable {l : Layout} {rows : List (Row Rat)} {i j : Nat}

/-- A tableau of these constraints: their coefficients and bounds, the slack of an inequality in
its own row only, and the artificial variable of a row in that row only, where it is basic. -/
structure Tabulates (l : Layout) (rows : List (Row Rat)) (t : Tableau Rat) : Prop where
  columns_eq : t.columns = l.total
  length_eq : t.rows.length = rows.length
  decision : ∀ i (h : i < rows.length), ∀ j < l.structural,
    entry (t.row i) j = entry rows[i].coefficients j
  slack : ∀ i (h : i < rows.length), ∀ j ∈ Set.Ico l.structural l.real, entry (t.row i) j =
    if rows[i].sign.hasSlack = true ∧ j = slackColumn l rows i then slackEntry rows[i].sign else 0
  artificial : ∀ i (h : i < rows.length), ∀ j ∈ Set.Ico l.real l.total, entry (t.row i) j =
    if rows[i].sign.needsArtificial = true ∧ j = artificialColumn l rows i then 1 else 0
  bound : ∀ i (h : i < rows.length), t.rhs (t.row i) = rows[i].bound
  basic : ∀ i (h : i < rows.length), t.basic i =
    if rows[i].sign.needsArtificial then artificialColumn l rows i else slackColumn l rows i

theorem Room.line (h : Room l l.structural l.real rows) (hi : i < rows.length) :
    Room l (slackColumn l rows i) (artificialColumn l rows i) (rows[i] :: rows.drop (i + 1)) :=
  List.drop_eq_getElem_cons hi ▸ h.drop i

theorem tabulates_of_lines {t : Tableau Rat} (h : Room l l.structural l.real rows)
    (hcolumns : t.columns = l.total)
    (hrows : t.rows = (standardRows l l.structural l.real rows).map (·.2))
    (hbasis : t.basis = (standardRows l l.structural l.real rows).map (·.1)) :
    Tabulates l rows t := by
  have hline : ∀ i (hi : i < rows.length), (standardRows l l.structural l.real rows)[i]? =
      some (standardLine l (slackColumn l rows i) (artificialColumn l rows i) rows[i]) :=
    fun i hi => getElem?_standardRows l _ _ hi
  have hrow : ∀ i (hi : i < rows.length), t.row i =
      (standardLine l (slackColumn l rows i) (artificialColumn l rows i) rows[i]).2 := by
    intro i hi
    rw [Tableau.row, hrows, List.getD_eq_getElem?_getD, List.getElem?_map, hline i hi]
    rfl
  have hle := h.total_le
  constructor
  · exact hcolumns
  · rw [hrows, List.length_map, length_standardRows]
  · intro i hi j hj
    have hroom := h.line hi
    have hs := hroom.structural_le
    have ha := hroom.real_le
    rw [hrow i hi, entry_standardLine hroom, if_neg (by omega), if_neg (by omega),
      entry_blankRow (hroom.coefficients_length _ List.mem_cons_self) (hle.1.trans hle.2),
      if_pos hj]
  · rintro i hi j ⟨hj, hj'⟩
    have hroom := h.line hi
    have ha := hroom.real_le
    rw [hrow i hi]
    split
    · next hown => rw [entry_standardLine hroom, if_neg (by omega), if_pos hown]
    · next hother =>
      exact entry_standardLine_unused hroom hj (by omega) (fun hs he => hother ⟨hs, he⟩)
        fun _ => by omega
  · rintro i hi j ⟨hj, hj'⟩
    have hroom := h.line hi
    have hs := hroom.slack_lt
    rw [hrow i hi]
    split
    · next hown => rw [entry_standardLine hroom, if_pos hown]
    · next hother =>
      exact entry_standardLine_unused hroom (by omega) hj' (fun hr => by have := hs hr; omega)
        fun ha he => hother ⟨ha, he⟩
  · intro i hi
    rw [hrow i hi, Tableau.rhs, hcolumns, entry_standardLine_bound (h.line hi)]
  · intro i hi
    rw [Tableau.basic, hbasis, List.getD_eq_getElem?_getD, List.getElem?_map, hline i hi]
    exact standardLine_basic _ _ _ _

end Entries

section Slacks

variable {p : LinearProgram Rat} {x s : List Rat}

/-- The values of all columns: decision variables, slacks, and zeros for artificial variables. -/
def columnValues (p : LinearProgram Rat) (x s : List Rat) : List Rat :=
  x ++ s ++ List.replicate ((layout p).total - (layout p).real) 0

theorem columnValues_decision (hx : x.length = p.variableCount) {j : Nat}
    (hj : j < p.variableCount) : entry (columnValues p x s) j = entry x j := by
  rw [columnValues, List.append_assoc]
  exact entry_append_left (hx ▸ hj)

theorem columnValues_slack (hx : x.length = p.variableCount) {i : Nat} (hi : i < s.length) :
    entry (columnValues p x s) (p.variableCount + i) = entry s i := by
  rw [columnValues, List.append_assoc, ← hx, entry_append_add]
  exact entry_append_left hi

theorem columnValues_artificial (hx : x.length = p.variableCount)
    (hs : p.variableCount + s.length = (layout p).real) {j : Nat} (hj : (layout p).real ≤ j) :
    entry (columnValues p x s) j = 0 := by
  obtain ⟨k, rfl⟩ : ∃ k, j = (x ++ s).length + k :=
    ⟨j - (layout p).real, by rw [List.length_append]; omega⟩
  rw [columnValues, entry_append_add, entry_replicate_zero]

theorem columnValues_nonneg (hx : ∀ v ∈ x, 0 ≤ v) (hs : ∀ v ∈ s, 0 ≤ v) (j : Nat) :
    0 ≤ entry (columnValues p x s) j := by
  refine entry_nonneg (fun v hv => ?_) j
  rcases List.mem_append.mp hv with hv | hv
  · exact (List.mem_append.mp hv).elim (hx v) (hs v)
  · exact (List.eq_of_mem_replicate hv).ge

/-- Slack and surplus values with which a point solves the standard form. -/
structure Completes (p : LinearProgram Rat) (x s : List Rat) : Prop where
  length_eq : p.variableCount + s.length = (layout p).real
  nonneg : ∀ v ∈ s, 0 ≤ v
  solves : (standardize p).Solves (entry (columnValues p x s))

/-- The only values that complete a point are its distances from the bounds, and only where it
satisfies the constraints. -/
theorem completes_iff (h : p.WellFormed) (hx : x.length = p.variableCount)
    (hnonneg : ∀ v ∈ x, 0 ≤ v) :
    Completes p x s ↔ (∀ r ∈ p.rowList, r.Holds x) ∧ s = slacks x p.rowList := by
  have hsolves : p.variableCount + s.length = (layout p).real → (∀ v ∈ s, 0 ≤ v) →
      ((standardize p).Solves (entry (columnValues p x s)) ↔ (∀ r ∈ p.rowList, r.Holds x) ∧
        ∀ i < (slacks x p.rowList).length, entry s i = entry (slacks x p.rowList) i) := by
    intro hs hs'
    rw [solves_standardize_iff h (fun j => columnValues_decision hx)
      (columnValues_nonneg hnonneg hs') fun j => columnValues_artificial hx hs]
    refine and_congr Iff.rfl (forall₂_congr fun i hi => ?_)
    have := length_slacks p x
    rw [columnValues_slack hx (by omega)]
  constructor
  · rintro ⟨hs, hs', hsolve⟩
    obtain ⟨hholds, he⟩ := (hsolves hs hs').mp hsolve
    have := length_slacks p x
    refine ⟨hholds, List.ext_getElem (by omega) fun i hi hi' => ?_⟩
    rw [← entry_eq_getElem hi, ← entry_eq_getElem hi', he i hi']
  · rintro ⟨hholds, rfl⟩
    exact ⟨length_slacks p x, slacks_nonneg,
      (hsolves (length_slacks p x) slacks_nonneg).mpr ⟨hholds, fun _ _ => rfl⟩⟩

/-- The standard form of a well-formed program is canonical. Its columns are those of the decision
variables, of one slack for each inequality and of one artificial variable for each row that does
not start with its slack. A non-negative point satisfies the constraints exactly where slacks
complete it to a solution without artificial parts, and then only its distances from the bounds
do. -/
theorem standardize_represents (h : p.violations = []) :
    (standardize p).Canonical ∧ (standardize p).basis.Nodup ∧
    (layout p).Partitions p.variableCount (p.rowList.map oriented) ∧
    Tabulates (layout p) (p.rowList.map oriented) (standardize p) ∧
    ∀ x, x.length = p.variableCount → (∀ v ∈ x, 0 ≤ v) →
      ((∀ r ∈ p.rowList, r.Holds x) ↔ ∃ s, Completes p x s) ∧
      ∀ s, Completes p x s → s = slacks x p.rowList := by
  have hp := LinearProgram.violations_eq_nil_iff.mp h
  have hcanonical := canonical_standardize hp
  refine ⟨hcanonical, hcanonical.basis_nodup, Layout.partitions_ofRows _ _,
    tabulates_of_lines (room_layout hp) rfl rfl rfl, fun x hx hnonneg => ⟨?_, fun s hs => ?_⟩⟩
  · constructor
    · intro hholds
      exact ⟨_, (completes_iff hp hx hnonneg).mpr ⟨hholds, rfl⟩⟩
    · rintro ⟨s, hs⟩
      exact ((completes_iff hp hx hnonneg).mp hs).1
  · exact ((completes_iff hp hx hnonneg).mp hs).2

def assorted : LinearProgram Rat where
  direction := .minimize
  objective := [1, 1]
  constraints := [[1, 1], [-1, 1], [1, -1], [1, 2]]
  signs := [.lessEqual, .greaterEqual, .lessEqual, .equal]
  rhs := [4, -2, -1, 5]

theorem assorted_represented : assorted.violations = [] ∧
    Completes assorted [1, 2] [1, 3, 0] ∧ ∀ s, Completes assorted [1, 2] s → s = [1, 3, 0] := by
  have hvalid : assorted.violations = [] := by decide +kernel
  obtain ⟨-, -, -, -, hpoints⟩ := standardize_represents hvalid
  obtain ⟨hholds, honly⟩ := hpoints [1, 2] rfl (by decide +kernel)
  have hslacks : slacks [1, 2] assorted.rowList = [1, 3, 0] := by decide +kernel
  rw [hslacks] at honly
  obtain ⟨s, hs⟩ := hholds.mp (by decide +kernel)
  exact ⟨hvalid, honly s hs ▸ hs, honly⟩

end Slacks

end LeastCost.Simplex
