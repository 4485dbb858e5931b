import LeastCost.Proofs.Hungarian.Paths
import LeastCost.Proofs.Selection

/-! # The shape of alternating trees

Whatever the scalars are, every column of a tree is matched, its rows are the root and the rows
of its columns, and the newest row and every offer come with a path through the tree. A tree
can therefore not hold all columns, and grows until it finds a free one.
-/

namespace LeastCost.Hungarian

variable {α : Type} {n : Nat} {root row : Fin n} {rowOf : Family (Option (Fin n)) n}
  {column j : Fin n} {path : List (Fin n)} {o : Offer α n} {t : Tree α n}

namespace Tree

def Holds (t : Tree α n) (path : List (Fin n)) : Prop :=
  path.Nodup ∧ ∀ j ∈ path, t.columns j = true

/-- A tree over the rows and columns that alternating paths from the root lead to. -/
structure Shaped (root : Fin n) (rowOf : Family (Option (Fin n)) n) (t : Tree α n) : Prop where
  matched : ∀ {j}, t.columns j = true → ∃ i, rowOf j = some i
  rows_iff : ∀ {i}, t.rows i = true ↔ i = root ∨ ∃ j, t.columns j = true ∧ rowOf j = some i
  tip_path : tip root rowOf t.path = some t.newest
  holds_path : t.Holds t.path
  holds_offer : ∀ {j o}, t.columns j = false → t.offers j = some o → t.Holds o.path

def taken (t : Tree α n) : Nat := (Finset.univ.filter fun j => t.columns j = true).card

theorem root_shaped (labels : Labels α n) (root : Fin n)
    (rowOf : Family (Option (Fin n)) n) : (Tree.root labels root).Shaped root rowOf := by
  constructor
  · intro j hj
    simp [Tree.root] at hj
  · intro i
    simp [Tree.root, Family.get_set, eq_comm]
  · rfl
  · exact ⟨List.nodup_nil, by simp [Tree.root]⟩
  · intro j o _ ho
    simp [Tree.root] at ho

theorem Holds.cons (h : t.Holds path) (hc : t.columns column = false) :
    (column :: path).Nodup := by
  refine List.nodup_cons.mpr ⟨fun hm => ?_, h.1⟩
  rw [h.2 column hm] at hc
  cases hc

section Pass

variable [Scalar α] {costs : Grid α n n}

theorem offerTo_eq_some (h : t.offerTo costs j = some o) :
    o = ⟨t.labels.reduced costs t.newest j, t.path⟩ ∨ t.offers j = some o := by
  simp only [offerTo] at h
  split at h
  · split at h
    · exact Or.inl (Option.some.inj h).symm
    · cases h
  · next o' he =>
    split at h
    · exact Or.inl (Option.some.inj h).symm
    · exact Or.inr (he.trans h)

theorem spread_offers (hj : t.columns j = false) :
    (t.spread costs).offers j = t.offerTo costs j := by
  simp [spread, hj]

theorem Shaped.spread (h : t.Shaped root rowOf) (costs : Grid α n n) :
    (t.spread costs).Shaped root rowOf := by
  refine ⟨h.matched, h.rows_iff, h.tip_path, h.holds_path, ?_⟩
  intro j o hj ho
  rw [spread_offers (t := t) hj] at ho
  rcases offerTo_eq_some ho with rfl | ho
  · exact h.holds_path
  · exact h.holds_offer hj ho

theorem mem_openOffers : (j, o) ∈ t.openOffers ↔
    t.columns j = false ∧ t.offers j = some o ∧ Scalar.isBounded o.slack = true := by
  simp only [openOffers, List.mem_filterMap, List.mem_finRange, true_and,
    Option.ite_none_left_eq_some, Bool.not_eq_true, Option.map_eq_some_iff,
    Option.filter_eq_some_iff, Prod.mk.injEq]
  constructor
  · rintro ⟨j', hj, o', ⟨ho, hb⟩, rfl, rfl⟩
    exact ⟨hj, ho, hb⟩
  · rintro ⟨hj, ho, hb⟩
    exact ⟨j, hj, o, ⟨ho, hb⟩, rfl, rfl⟩

theorem nearest_outside (h : t.nearest = some (j, o)) :
    t.columns j = false ∧ t.offers j = some o := by
  obtain ⟨hj, ho, _⟩ := mem_openOffers.mp (Selection.mem_of_firstLeast h)
  exact ⟨hj, ho⟩

theorem shift_offers {tolerance amount : α} (hj : t.columns j = false) :
    (t.shift tolerance amount).offers j =
      (t.offers j).map fun o => { o with slack := o.slack - amount } := by
  simp [shift, hj]

theorem of_shift_offers {tolerance amount : α} (hj : t.columns j = false)
    (ho : (t.shift tolerance amount).offers j = some o) :
    ∃ o', t.offers j = some o' ∧ o.slack = o'.slack - amount ∧ o.path = o'.path := by
  rw [shift_offers hj, Option.map_eq_some_iff] at ho
  obtain ⟨o', ho', rfl⟩ := ho
  exact ⟨o', ho', rfl, rfl⟩

theorem Shaped.shift (h : t.Shaped root rowOf) (tolerance amount : α) :
    (t.shift tolerance amount).Shaped root rowOf := by
  refine ⟨h.matched, h.rows_iff, h.tip_path, h.holds_path, ?_⟩
  intro j o hj ho
  obtain ⟨o', ho', _, hpath⟩ := of_shift_offers (t := t) hj ho
  rw [hpath]
  exact h.holds_offer hj ho'

end Pass

theorem enter_columns : (t.enter column path row).columns j = true ↔
    j = column ∨ t.columns j = true :=
  Family.set_true_iff ..

theorem enter_columns_eq_false : (t.enter column path row).columns j = false ↔
    j ≠ column ∧ t.columns j = false := by
  rw [← Bool.not_eq_true, enter_columns, not_or, Bool.not_eq_true]

theorem enter_rows {i : Fin n} : (t.enter column path row).rows i = true ↔
    i = row ∨ t.rows i = true :=
  Family.set_true_iff ..

theorem Holds.enter {path' : List (Fin n)} (h : t.Holds path') :
    (t.enter column path row).Holds path' :=
  ⟨h.1, fun j hj => enter_columns.mpr (Or.inr (h.2 j hj))⟩

theorem Shaped.enter (h : t.Shaped root rowOf) (hc : t.columns column = false)
    (hp : t.Holds path) (hr : rowOf column = some row) :
    (t.enter column path row).Shaped root rowOf := by
  constructor
  · intro j hj
    rcases enter_columns.mp hj with rfl | hj
    · exact ⟨row, hr⟩
    · exact h.matched hj
  · intro i
    rw [enter_rows, h.rows_iff]
    constructor
    · rintro (rfl | rfl | ⟨j, hj, he⟩)
      · exact Or.inr ⟨column, enter_columns.mpr (Or.inl rfl), hr⟩
      · exact Or.inl rfl
      · exact Or.inr ⟨j, enter_columns.mpr (Or.inr hj), he⟩
    · rintro (rfl | ⟨j, hj, he⟩)
      · exact Or.inr (Or.inl rfl)
      · rcases enter_columns.mp hj with rfl | hj
        · exact Or.inl (Option.some.inj (he.symm.trans hr))
        · exact Or.inr (Or.inr ⟨j, hj, he⟩)
  · exact hr
  · refine ⟨hp.cons hc, ?_⟩
    intro j hj
    rcases List.mem_cons.mp hj with rfl | hj
    · exact enter_columns.mpr (Or.inl rfl)
    · exact enter_columns.mpr (Or.inr (hp.2 j hj))
  · intro j o hj ho
    exact (h.holds_offer (enter_columns_eq_false.mp hj).2 ho).enter

theorem taken_enter (hc : t.columns column = false) (path : List (Fin n)) (row : Fin n) :
    (t.enter column path row).taken = t.taken + 1 := by
  have he : (Finset.univ.filter fun j => (t.enter column path row).columns j = true) =
      insert column (Finset.univ.filter fun j => t.columns j = true) := by
    ext j
    simp [enter_columns]
  rw [taken, he, Finset.card_insert_of_notMem (by simp [hc]), taken]

theorem taken_root (labels : Labels α n) (root : Fin n) : (Tree.root labels root).taken = 0 := by
  simp [taken, Tree.root]

theorem exists_outside (h : t.taken < n) : ∃ j, t.columns j = false := by
  by_contra hn
  simp only [not_exists, Bool.not_eq_false] at hn
  simp [taken, hn] at h

/-- The root has no column of its own, so the columns of the tree are fewer than all. -/
theorem Shaped.taken_lt (h : t.Shaped root rowOf)
    (hinj : ∀ {j j' i}, rowOf j = some i → rowOf j' = some i → j = j')
    (hroot : ¬ Matched rowOf root) : t.taken < n := by
  by_contra hn
  have hle : t.taken ≤ n := by
    simpa [taken] using Finset.card_le_univ (Finset.univ.filter fun j => t.columns j = true)
  have hall : ∀ j, t.columns j = true := by
    have hcard : (Finset.univ.filter fun j => t.columns j = true).card = Fintype.card (Fin n) := by
      rw [Fintype.card_fin]
      exact le_antisymm hle (not_lt.mp hn)
    intro j
    have hj : j ∈ Finset.univ.filter fun j => t.columns j = true := by
      rw [(Finset.card_eq_iff_eq_univ _).mp hcard]
      exact Finset.mem_univ j
    exact (Finset.mem_filter.mp hj).2
  choose f hf using fun j => h.matched (hall j)
  have hsurj : Function.Surjective f :=
    Finite.injective_iff_surjective.mp fun j j' he => hinj (hf j) (he ▸ hf j')
  obtain ⟨j, hj⟩ := hsurj root
  exact hroot ⟨j, hj ▸ hf j⟩

end Tree

end LeastCost.Hungarian
