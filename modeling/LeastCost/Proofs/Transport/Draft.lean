import Mathlib.Data.Set.Card
import LeastCost.Proofs.Selection
import LeastCost.Proofs.Transport.Forest
import LeastCost.Transport.Vogel

/-! # Drafts

Each pass uses a link between two open lines and closes one of the two. So the passes end with
all sources or all destinations closed, and no tree of the plan ever has two open nodes: a new
cell joins two trees.
-/

namespace LeastCost.Transport

variable {α : Type} {m n : Nat}

namespace Draft

def IsOpen (d : Draft α m n) : Node m n → Prop
  | .inl i => d.openRows i = true
  | .inr j => d.openColumns j = true

variable {d : Draft α m n} {line : Line m n} {c : Cell m n} {i : Fin m} {j : Fin n}

theorem mem_lines_row : .row i ∈ d.lines ↔ d.IsOpen (.inl i) := by
  simp [lines, IsOpen]

theorem mem_lines_column : .column j ∈ d.lines ↔ d.IsOpen (.inr j) := by
  simp [lines, IsOpen]

theorem mem_links_row : c ∈ d.links (.row i) ↔ c.1 = i ∧ d.IsOpen (.inr c.2) := by
  simp only [links, List.mem_map, List.mem_filter, List.mem_finRange, true_and]
  constructor
  · rintro ⟨j, hj, rfl⟩
    exact ⟨rfl, hj⟩
  · rintro ⟨rfl, hj⟩
    exact ⟨c.2, hj, rfl⟩

theorem mem_links_column : c ∈ d.links (.column j) ↔ c.2 = j ∧ d.IsOpen (.inl c.1) := by
  simp only [links, List.mem_map, List.mem_filter, List.mem_finRange, true_and]
  constructor
  · rintro ⟨i, hi, rfl⟩
    exact ⟨rfl, hi⟩
  · rintro ⟨rfl, hi⟩
    exact ⟨c.1, hi, rfl⟩

theorem isOpen_of_mem_links (hl : line ∈ d.lines) (hc : c ∈ d.links line) :
    d.IsOpen (.inl c.1) ∧ d.IsOpen (.inr c.2) := by
  cases line with
  | row i =>
    obtain ⟨rfl, hother⟩ := mem_links_row.mp hc
    exact ⟨mem_lines_row.mp hl, hother⟩
  | column j =>
    obtain ⟨rfl, hother⟩ := mem_links_column.mp hc
    exact ⟨hother, mem_lines_column.mp hl⟩

variable [Scalar α] {net : Network α m n} {tolerance : α}

theorem penalty_eq_none_iff {costs : List α} : penalty costs = none ↔ costs = [] := by
  rcases costs with _ | ⟨first, _ | ⟨second, rest⟩⟩ <;> simp [penalty]

theorem mem_penalties {p : Line m n × α} (h : p ∈ d.penalties net) :
    p.1 ∈ d.lines ∧ d.links p.1 ≠ [] := by
  obtain ⟨line, hl, h⟩ := List.mem_filterMap.mp h
  obtain ⟨value, hvalue, rfl⟩ := Option.map_eq_some_iff.mp h
  refine ⟨hl, fun hnil => ?_⟩
  simp [hnil, penalty] at hvalue

theorem isOpen_of_nextCell (h : d.nextCell net tolerance = some c) :
    d.IsOpen (.inl c.1) ∧ d.IsOpen (.inr c.2) := by
  unfold nextCell at h
  split at h
  · cases h
  · next line value hchoose =>
    have hline := mem_penalties (Selection.mem_of_choose hchoose)
    exact isOpen_of_mem_links hline.1 (Selection.mem_of_firstLeast h)

theorem closed_of_nextCell_eq_none (h : d.nextCell net tolerance = none) :
    (∀ i, ¬ d.IsOpen (.inl i)) ∨ ∀ j, ¬ d.IsOpen (.inr j) := by
  by_contra hn
  simp only [not_or, not_forall, not_not] at hn
  obtain ⟨⟨i, hi⟩, j, hj⟩ := hn
  unfold nextCell at h
  split at h
  · next hchoose =>
    have hlinks : (i, j) ∈ d.links (.row i) := mem_links_row.mpr ⟨rfl, hj⟩
    have hnil := Selection.choose_eq_none_iff.mp hchoose
    rw [penalties, List.filterMap_eq_nil_iff] at hnil
    have hrow := hnil _ (mem_lines_row.mpr hi)
    rw [Option.map_eq_none_iff, penalty_eq_none_iff, List.map_eq_nil_iff] at hrow
    rw [hrow] at hlinks
    cases hlinks
  · next line value hchoose =>
    exact (mem_penalties (Selection.mem_of_choose hchoose)).2
      (Selection.firstLeast_eq_none_iff.mp h)

/-- An allocation closes one of the two lines of its link, and no other. -/
theorem allocate_closes (d : Draft α m n) (tolerance : α) (c : Cell m n) :
    ∃ z : Node m n, (z = .inl c.1 ∨ z = .inr c.2) ∧
      ∀ x, (d.allocate tolerance c).IsOpen x ↔ d.IsOpen x ∧ x ≠ z := by
  simp only [allocate]
  split
  · refine ⟨.inr c.2, Or.inr rfl, ?_⟩
    rintro (i | j)
    · simp [IsOpen]
    · simpa [IsOpen] using Family.set_false_iff ..
  · refine ⟨.inl c.1, Or.inl rfl, ?_⟩
    rintro (i | j)
    · simpa [IsOpen] using Family.set_false_iff ..
    · simp [IsOpen]

theorem demand_le_of_closed (hopen : d.IsOpen (.inr c.2))
    (hclosed : ¬ (d.allocate tolerance c).IsOpen (.inr c.2)) :
    (d.allocate tolerance c).demand c.2 ≤ tolerance := by
  simp only [allocate, IsOpen] at hclosed hopen ⊢
  split at hclosed
  · next h =>
    rw [Bool.and_eq_true, decide_eq_true_eq] at h
    exact h.1
  · exact absurd hopen hclosed

/-- A row that an allocation closes is exhausted, unless its column is not. -/
theorem supply_le_of_closed (hopen : d.IsOpen (.inl c.1))
    (hclosed : ¬ (d.allocate tolerance c).IsOpen (.inl c.1))
    (hc : (d.allocate tolerance c).demand c.2 ≤ tolerance) :
    (d.allocate tolerance c).supply c.1 ≤ tolerance := by
  simp only [allocate, IsOpen] at hclosed hopen hc ⊢
  split at hclosed
  · exact absurd hopen hclosed
  · next h =>
    simp only [hc, decide_true, Bool.true_and, Bool.or_eq_true, Bool.not_eq_true',
      decide_eq_false_iff_not, not_or, not_not] at h
    exact h.1

theorem ncard_isOpen_allocate (tolerance : α) (h : d.IsOpen (.inl c.1))
    (h' : d.IsOpen (.inr c.2)) :
    {x | (d.allocate tolerance c).IsOpen x}.ncard + 1 = {x | d.IsOpen x}.ncard := by
  obtain ⟨z, hz, hopen⟩ := d.allocate_closes tolerance c
  have hmem : z ∈ {x | d.IsOpen x} := by
    rcases hz with rfl | rfl
    · exact h
    · exact h'
  have he : {x | (d.allocate tolerance c).IsOpen x} = {x | d.IsOpen x} \ {z} := by
    ext x
    exact hopen x
  rw [he, Set.ncard_sdiff_singleton_add_one hmem (Set.toFinite _)]

theorem fill_induction {motive : Draft α m n → Prop}
    (allocate : ∀ d c, motive d → d.IsOpen (.inl c.1) → d.IsOpen (.inr c.2) →
      motive (d.allocate tolerance c)) (passes : Nat) (h : motive d) :
    motive (fill net tolerance passes d) := by
  induction passes generalizing d with
  | zero => exact h
  | succ passes ih =>
    unfold fill
    cases hn : d.nextCell net tolerance with
    | none => exact h
    | some c =>
      obtain ⟨hrow, hcolumn⟩ := isOpen_of_nextCell hn
      exact ih (allocate d c h hrow hcolumn)

theorem fill_closed (net : Network α m n) (tolerance : α) {passes : Nat}
    (h : {x | d.IsOpen x}.ncard ≤ passes) :
    (∀ i, ¬ (fill net tolerance passes d).IsOpen (.inl i)) ∨
      ∀ j, ¬ (fill net tolerance passes d).IsOpen (.inr j) := by
  induction passes generalizing d with
  | zero =>
    have hnone := (Set.ncard_eq_zero (Set.toFinite _)).mp (Nat.le_zero.mp h)
    exact Or.inl fun i hi => Set.eq_empty_iff_forall_notMem.mp hnone (.inl i) hi
  | succ passes ih =>
    unfold fill
    cases hn : d.nextCell net tolerance with
    | none => exact closed_of_nextCell_eq_none hn
    | some c =>
      obtain ⟨hrow, hcolumn⟩ := isOpen_of_nextCell hn
      have hcard := ncard_isOpen_allocate tolerance hrow hcolumn
      exact ih (by omega)

theorem ncard_isOpen_start (net : Network α m n) :
    {x | (Draft.start net).IsOpen x}.ncard = m + n := by
  have he : {x | (Draft.start net).IsOpen x} = Set.univ := by
    ext x
    rcases x with i | j <;> simp [Draft.start, IsOpen]
  rw [he, Set.ncard_univ]
  simp

/-- The plan is a forest with at most one open node in each tree. -/
structure Sparse (d : Draft α m n) : Prop where
  acyclic : (cellGraph d.basis.basics).IsAcyclic
  apart : ∀ {x y}, d.IsOpen x → d.IsOpen y → (cellGraph d.basis.basics).Reachable x y → x = y

theorem start_sparse (net : Network α m n) : (Draft.start net).Sparse := by
  have he : (Draft.start net).basis.basics = ∅ := by
    ext c
    simp [Draft.start, Basis.empty, Basis.isBasic]
  constructor
  · rw [he, cellGraph_empty]
    exact SimpleGraph.isAcyclic_bot
  · intro x y _ _ h
    rwa [he, cellGraph_empty, SimpleGraph.reachable_bot] at h

theorem basics_allocate (d : Draft α m n) (tolerance : α) (c : Cell m n) :
    (d.allocate tolerance c).basis.basics = insert c d.basis.basics := by
  simp [allocate, Basis.basics_insert]

theorem Sparse.allocate (h : d.Sparse) (hrow : d.IsOpen (.inl c.1))
    (hcolumn : d.IsOpen (.inr c.2)) : (d.allocate tolerance c).Sparse := by
  have hjoined : ¬ Joined d.basis.basics c := fun hj => by cases h.apart hrow hcolumn hj
  have hmem : c ∉ d.basis.basics := fun hc => hjoined (joined_of_mem hc)
  constructor
  · rw [basics_allocate]
    exact (isAcyclic_insert_iff hmem).mpr ⟨h.acyclic, hjoined⟩
  · intro x y hx hy hr
    obtain ⟨z, hz, hopen⟩ := d.allocate_closes tolerance c
    obtain ⟨hx, hxz⟩ := (hopen x).mp hx
    obtain ⟨hy, hyz⟩ := (hopen y).mp hy
    rw [basics_allocate, reachable_insert_iff] at hr
    rcases hr with hr | ⟨hr, hr'⟩ | ⟨hr, hr'⟩
    · exact h.apart hx hy hr
    -- Otherwise the two nodes are those of the new cell, but one of these is closed.
    · obtain rfl := h.apart hx hrow hr
      obtain rfl := h.apart hcolumn hy hr'
      rcases hz with rfl | rfl
      · exact absurd rfl hxz
      · exact absurd rfl hyz
    · obtain rfl := h.apart hx hcolumn hr
      obtain rfl := h.apart hrow hy hr'
      rcases hz with rfl | rfl
      · exact absurd rfl hyz
      · exact absurd rfl hxz

end Draft

theorem vogel_acyclic [Scalar α] (net : Network α m n) (tolerance : α) :
    (cellGraph (vogel net tolerance).basics).IsAcyclic :=
  (Draft.fill_induction (fun _ _ h hrow hcolumn => h.allocate hrow hcolumn) (m + n)
    (Draft.start_sparse net)).acyclic

end LeastCost.Transport
