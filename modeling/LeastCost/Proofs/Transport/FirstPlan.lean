import LeastCost.Proofs.Transport.Shipping
import LeastCost.Proofs.Transport.Spanning

/-! # The first plan of a balanced network

Each allocation adds a cell to the plan and closes a line. Over the rationals and without
tolerance the rests of the open lines balance, so the last row stays open as long as a column
has a rest, and the last column as long as there is more than one row. One line is left open in
the end: the first plan is a tree over all nodes, and completing it adds nothing.
-/

namespace LeastCost.Transport

open scoped BigOperators

variable {m n : Nat}

namespace Draft

section Lines

variable {α : Type} {d : Draft α m n} {c : Cell m n} {x : Node m n}

theorem openRowCount_eq_ncard (d : Draft α m n) :
    d.openRowCount = {i | d.IsOpen (.inl i)}.ncard := by
  have he : {i | d.IsOpen (.inl i)} =
      (((List.finRange m).filter d.openRows).toFinset : Set (Fin m)) := by
    ext i
    simp [IsOpen]
  have hnodup : ((List.finRange m).filter d.openRows).Nodup := (List.nodup_finRange m).filter _
  rw [he, Set.ncard_coe_finset, List.toFinset_card_of_nodup hnodup, openRowCount,
    List.countP_eq_length_filter]

variable [Scalar α] {tolerance : α}

theorem isOpen_of_allocate (h : (d.allocate tolerance c).IsOpen x) : d.IsOpen x := by
  obtain ⟨z, -, hopen⟩ := d.allocate_closes tolerance c
  exact ((hopen x).mp h).1

theorem isOpen_allocate_of_ne (h : d.IsOpen x) (hrow : x ≠ .inl c.1) (hcolumn : x ≠ .inr c.2) :
    (d.allocate tolerance c).IsOpen x := by
  obtain ⟨z, hz, hopen⟩ := d.allocate_closes tolerance c
  refine (hopen x).mpr ⟨h, ?_⟩
  rcases hz with rfl | rfl
  · exact hrow
  · exact hcolumn

theorem one_lt_openRowCount_of_closed (hopen : d.IsOpen (.inl c.1))
    (hclosed : ¬ (d.allocate tolerance c).IsOpen (.inl c.1))
    (hcolumn : (d.allocate tolerance c).demand c.2 ≤ tolerance) : 1 < d.openRowCount := by
  simp only [allocate, IsOpen] at hclosed hopen hcolumn
  split at hclosed
  · exact absurd hopen hclosed
  · next h =>
    simp only [hcolumn, decide_true, Bool.true_and, Bool.or_eq_true, Bool.not_eq_true',
      decide_eq_false_iff_not, decide_eq_true_eq, not_or, not_not, not_le] at h
    exact h.2

theorem openRowCount_le_of_closed (hopen : d.IsOpen (.inr c.2))
    (hclosed : ¬ (d.allocate tolerance c).IsOpen (.inr c.2))
    (hrow : (d.allocate tolerance c).supply c.1 ≤ tolerance) : d.openRowCount ≤ 1 := by
  simp only [allocate, IsOpen] at hclosed hopen hrow
  split at hclosed
  · next h =>
    simp only [hrow, decide_true, Bool.not_true, Bool.false_or, Bool.and_eq_true,
      decide_eq_true_eq] at h
    exact h.2
  · exact absurd hopen hclosed

def Counts (d : Draft α m n) : Prop := d.basis.basics.ncard + {x | d.IsOpen x}.ncard = m + n

theorem start_counts (net : Network α m n) : (Draft.start net).Counts := by
  have he : (Draft.start net).basis.basics = ∅ := by
    ext c
    simp [Draft.start, Basis.empty, Basis.isBasic]
  rw [Counts, he, Set.ncard_empty, zero_add, ncard_isOpen_start]

theorem Counts.allocate (h : d.Counts) (hs : d.Sparse) (hrow : d.IsOpen (.inl c.1))
    (hcolumn : d.IsOpen (.inr c.2)) : (d.allocate tolerance c).Counts := by
  have hmem : c ∉ d.basis.basics := fun hc => by
    cases hs.apart hrow hcolumn (joined_of_mem hc)
  have hclosed := ncard_isOpen_allocate tolerance hrow hcolumn
  rw [Counts] at h ⊢
  rw [basics_allocate, Set.ncard_insert_of_notMem hmem]
  omega

theorem fill_counts (net : Network α m n) (tolerance : α) :
    (fill net tolerance (m + n) (Draft.start net)).Sparse ∧
      (fill net tolerance (m + n) (Draft.start net)).Counts :=
  fill_induction (motive := fun d => d.Sparse ∧ d.Counts)
    (fun _ _ hd hrow hcolumn =>
      ⟨hd.1.allocate hrow hcolumn, hd.2.allocate hd.1 hrow hcolumn⟩) (m + n)
    ⟨start_sparse net, start_counts net⟩

end Lines

variable {net : Network Rat m n} {d : Draft Rat m n} {c : Cell m n}

/-- A row is open, and a column too unless that row is the only one. -/
structure Lasts (d : Draft Rat m n) : Prop where
  row : ∃ i, d.IsOpen (.inl i)
  column : (∃ j, d.IsOpen (.inr j)) ∨ {i | d.IsOpen (.inl i)}.ncard ≤ 1

theorem start_lasts (net : Network Rat m n) (hm : 0 < m) (hn : 0 < n) :
    (Draft.start net).Lasts := by
  refine ⟨⟨⟨0, hm⟩, ?_⟩, Or.inl ⟨⟨0, hn⟩, ?_⟩⟩
  · simp [Draft.start, IsOpen]
  · simp [Draft.start, IsOpen]

/-- Where all rows or all columns are closed no line has a rest, so the line that an allocation
closes is the last of its kind only if the other end of its link is the last line of all. -/
theorem Lasts.allocate (hs : d.Settles net) (hb : net.Balanced)
    (hrow : d.IsOpen (.inl c.1)) (hcolumn : d.IsOpen (.inr c.2)) : (d.allocate 0 c).Lasts := by
  have hsettles : (d.allocate 0 c).Settles net := hs.allocate
  constructor
  · by_contra hnone
    rw [not_exists] at hnone
    have hzero := hsettles.left_eq_zero hb (Or.inl hnone)
    have hmore := one_lt_openRowCount_of_closed hrow (hnone c.1) (hzero (.inr c.2)).le
    rw [openRowCount_eq_ncard] at hmore
    obtain ⟨i, hi, hne⟩ := Set.exists_ne_of_one_lt_ncard hmore c.1
    exact hnone i (isOpen_allocate_of_ne hi (by simpa using hne) (by simp))
  · by_cases hsome : ∃ j, (d.allocate 0 c).IsOpen (.inr j)
    · exact Or.inl hsome
    · right
      rw [not_exists] at hsome
      have hzero := hsettles.left_eq_zero hb (Or.inr hsome)
      have hlast := openRowCount_le_of_closed hcolumn (hsome c.2) (hzero (.inl c.1)).le
      rw [openRowCount_eq_ncard] at hlast
      have hsubset : {i | (d.allocate 0 c).IsOpen (.inl i)} ⊆ {i | d.IsOpen (.inl i)} := by
        intro i (hi : (d.allocate 0 c).IsOpen (.inl i))
        exact isOpen_of_allocate hi
      exact (Set.ncard_le_ncard hsubset).trans hlast

/-- What is drafted without tolerance in a balanced network leaves one line open. -/
theorem ncard_isOpen_fill (hb : net.Balanced) (hm : 0 < m) (hn : 0 < n) :
    {x | (fill net 0 (m + n) (Draft.start net)).IsOpen x}.ncard = 1 := by
  obtain ⟨-, hlasts⟩ : (fill net 0 (m + n) (Draft.start net)).Settles net ∧
      (fill net 0 (m + n) (Draft.start net)).Lasts :=
    fill_induction (motive := fun d => d.Settles net ∧ d.Lasts)
      (fun _ _ hd hrow hcolumn => ⟨hd.1.allocate, .allocate hd.1 hb hrow hcolumn⟩) (m + n)
      ⟨start_settles hb, start_lasts net hm hn⟩
  obtain ⟨i, hi⟩ := hlasts.row
  -- Filling ends with all rows or all columns closed, and it is not the rows.
  have hcolumns := (fill_closed net 0 (ncard_isOpen_start net).le).resolve_left
    fun hrows => hrows i hi
  have hrows := hlasts.column.resolve_left fun ⟨j, hj⟩ => hcolumns j hj
  rw [Set.ncard_le_one_iff] at hrows
  refine Set.ncard_eq_one.mpr ⟨.inl i, ?_⟩
  ext x
  constructor
  · rcases x with i' | j
    · intro hi'
      exact congrArg Sum.inl (hrows hi' hi)
    · intro hj
      exact absurd hj (hcolumns j)
  · rintro rfl
    exact hi

end Draft

variable {net : Network Rat m n}

theorem size_vogel (h : net.Balanced) (hm : 0 < m) (hn : 0 < n) :
    (vogel net 0).size + 1 = m + n := by
  have hopen := Draft.ncard_isOpen_fill h hm hn
  have hcounts := (Draft.fill_counts net 0).2
  rw [Draft.Counts, hopen] at hcounts
  rw [Basis.size_eq_ncard]
  exact hcounts

theorem vogel_spans (h : net.Balanced) (hm : 0 < m) (hn : 0 < n) : (vogel net 0).Spans := by
  refine isTree_of_ncard (vogel_acyclic net 0) hm ?_
  rw [← Basis.size_eq_ncard]
  exact (size_vogel h hm hn).ge

/-- The first plan of a balanced network ships every supply and meets every demand over the cells
of a spanning tree, so it is complete as it is. -/
theorem vogel_ships_spanning (h : net.Balanced) (hm : 0 < m) (hn : 0 < n) :
    (∀ c, 0 ≤ (vogel net 0).flow c) ∧
    (∀ i, ∑ j, (vogel net 0).flow (i, j) = net.supply i) ∧
    (∀ j, ∑ i, (vogel net 0).flow (i, j) = net.demand j) ∧
    (∀ c, (vogel net 0).isBasic c = false → (vogel net 0).flow c = 0) ∧
    (vogel net 0).size = m + n - 1 ∧ (cellGraph (vogel net 0).basics).IsTree ∧
    (vogel net 0).complete net = (0, vogel net 0) := by
  have hships := vogel_ships h
  have hsize := size_vogel h hm hn
  exact ⟨hships.nonneg, fun i => hships.total (.inl i), fun j => hships.total (.inr j),
    hships.idle, by omega, vogel_spans h hm hn, Basis.complete_of_size_ge net (by omega)⟩

/-- A source without supply, a destination without demand, and a supply that a demand uses up. -/
def exhausted : Network Rat 3 3 :=
  { supply := .ofFn ![3, 0, 2]
    demand := .ofFn ![3, 2, 0]
    costs := .ofFn ![![1, 1, 4], ![2, 2, 2], ![5, 3, 3]] }

theorem exhausted_ships_spanning : exhausted.Balanced ∧ (vogel exhausted 0).size = 5 ∧
    (cellGraph (vogel exhausted 0).basics).IsTree ∧
    (vogel exhausted 0).complete exhausted = (0, vogel exhausted 0) := by
  have hbalanced : exhausted.Balanced := ⟨by decide +kernel, by decide +kernel⟩
  obtain ⟨-, -, -, -, hsize, htree, hcomplete⟩ :=
    vogel_ships_spanning hbalanced (by decide) (by decide)
  exact ⟨hbalanced, hsize, htree, hcomplete⟩

end LeastCost.Transport
