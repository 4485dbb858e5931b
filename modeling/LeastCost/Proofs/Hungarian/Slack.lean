import LeastCost.Proofs.Hungarian.Labels
import LeastCost.Proofs.Hungarian.Shape

/-! # Slack

While a tree grows its labels stay feasible, matched cells and the cells on its paths stay
tight, and the offer of an outside column is the least reduced cost of the column over the rows
of the tree. The least offer is therefore an amount by which the labels can be shifted, and the
column that had it is then reached over a tight cell.
-/

namespace LeastCost.Hungarian

variable {n : Nat} {costs : Grid Rat n n} {root row : Fin n}
  {rowOf : Family (Option (Fin n)) n} {covered : Fin n → Prop} {tolerance amount : Rat}
  {i j : Fin n} {path : List (Fin n)} {o : Offer Rat n} {t : Tree Rat n}

namespace Tree

/-- A tree whose offers are the least reduced costs over the covered rows. -/
structure Priced (costs : Grid Rat n n) (root : Fin n) (rowOf : Family (Option (Fin n)) n)
    (covered : Fin n → Prop) (t : Tree Rat n) : Prop extends t.Shaped root rowOf where
  feasible : t.labels.Feasible costs
  tight : ∀ {i j}, rowOf j = some i → t.labels.Tight costs i j
  path_alternates : Alternates (t.labels.Tight costs) root rowOf t.path
  offer_alternates : ∀ {j o}, t.columns j = false → t.offers j = some o →
    Alternates (t.labels.Tight costs) root rowOf o.path
  offer_attained : ∀ {j o}, t.columns j = false → t.offers j = some o →
    ∃ i, t.rows i = true ∧ tip root rowOf o.path = some i ∧
      o.slack = t.labels.reduced costs i j
  offer_le : ∀ {i j}, covered i → t.columns j = false →
    ∃ o, t.offers j = some o ∧ o.slack ≤ t.labels.reduced costs i j

/-- A row of the tree whose cells have been offered. -/
def Offered (t : Tree Rat n) (i : Fin n) : Prop := t.rows i = true ∧ i ≠ t.newest

theorem root_priced (root : Fin n) {labels : Labels Rat n} (hf : labels.Feasible costs)
    (hm : IsMatching (labels.Tight costs) rowOf) :
    (Tree.root labels root).Priced costs root rowOf (Tree.root labels root).Offered := by
  refine ⟨root_shaped labels root rowOf, hf, hm.joined, trivial, ?_, ?_, ?_⟩
  · intro j o _ ho
    simp [Tree.root] at ho
  · intro j o _ ho
    simp [Tree.root] at ho
  · rintro i j ⟨hi, hne⟩ _
    simp only [Tree.root, Family.get_set, Family.get_replicate] at hi hne
    rw [if_neg (Ne.symm hne)] at hi
    cases hi

theorem offerTo_le (t : Tree Rat n) (costs : Grid Rat n n) (j : Fin n) :
    ∃ o, t.offerTo costs j = some o ∧ o.slack ≤ t.labels.reduced costs t.newest j ∧
      ∀ o', t.offers j = some o' → o.slack ≤ o'.slack := by
  simp only [offerTo]
  cases ho : t.offers j with
  | none => exact ⟨_, rfl, le_rfl, by simp⟩
  | some o =>
    dsimp only
    split
    · next h => exact ⟨_, rfl, le_rfl, by simpa using h.le⟩
    · next h => exact ⟨o, rfl, not_lt.mp h, by simp⟩

theorem Shaped.newest_mem (h : t.Shaped root rowOf) : t.rows t.newest = true := by
  have htip := h.tip_path
  rw [h.rows_iff]
  cases hp : t.path with
  | nil =>
    rw [hp] at htip
    exact Or.inl (Option.some.inj htip).symm
  | cons column path =>
    rw [hp] at htip
    exact Or.inr ⟨column, h.holds_path.2 column (by simp [hp]), htip⟩

theorem Priced.spread (h : t.Priced costs root rowOf t.Offered) :
    (t.spread costs).Priced costs root rowOf fun i => t.rows i = true := by
  refine ⟨h.toShaped.spread costs, h.feasible, h.tight, h.path_alternates, ?_, ?_, ?_⟩
  · intro j o hj ho
    rw [spread_offers (t := t) hj] at ho
    rcases offerTo_eq_some ho with rfl | ho
    · exact h.path_alternates
    · exact h.offer_alternates hj ho
  · intro j o hj ho
    rw [spread_offers (t := t) hj] at ho
    rcases offerTo_eq_some ho with rfl | ho
    · exact ⟨t.newest, h.newest_mem, h.tip_path, rfl⟩
    · exact h.offer_attained hj ho
  · intro i j hi hj
    rw [spread_offers (t := t) hj]
    obtain ⟨o, ho, hnew, hold⟩ := t.offerTo_le costs j
    refine ⟨o, ho, ?_⟩
    by_cases he : i = t.newest
    · exact he ▸ hnew
    · obtain ⟨o', ho', hle⟩ := h.offer_le ⟨hi, he⟩ hj
      exact (hold o' ho').trans hle

theorem nearest_le (h : t.nearest = some (j, o)) {j' : Fin n} {o' : Offer Rat n}
    (hj : t.columns j' = false) (ho : t.offers j' = some o') : o.slack ≤ o'.slack :=
  Selection.firstLeast_le h (c := (j', o')) (mem_openOffers.mpr ⟨hj, ho, rfl⟩)

theorem Priced.exists_nearest (h : t.Priced costs root rowOf covered) (hi : covered i)
    (hj : t.columns j = false) : ∃ j o, t.nearest = some (j, o) := by
  cases hn : t.nearest with
  | some c => exact ⟨c.1, c.2, rfl⟩
  | none =>
    obtain ⟨o, ho, _⟩ := h.offer_le hi hj
    have hmem : (j, o) ∈ t.openOffers := mem_openOffers.mpr ⟨hj, ho, rfl⟩
    rw [Selection.firstLeast_eq_none_iff.mp hn] at hmem
    cases hmem

theorem Priced.slack_nonneg (h : t.Priced costs root rowOf covered)
    (hj : t.columns j = false) (ho : t.offers j = some o) : 0 ≤ o.slack := by
  obtain ⟨i, _, _, he⟩ := h.offer_attained hj ho
  rw [he]
  exact h.feasible i j

theorem reduced_shift (t : Tree Rat n) (tolerance amount : Rat) (costs : Grid Rat n n)
    (i j : Fin n) :
    (t.shift tolerance amount).labels.reduced costs i j =
      t.labels.reduced costs i j - (if t.rows i then amount else 0) +
        (if t.columns j then amount else 0) := by
  simp only [shift, Labels.reduced, Family.get_ofFn]
  split <;> split <;> ring

theorem reduced_shift_same (h : t.rows i = t.columns j) :
    (t.shift tolerance amount).labels.reduced costs i j = t.labels.reduced costs i j := by
  rw [reduced_shift, h]
  ring

theorem reduced_shift_outside (hi : t.rows i = true) (hj : t.columns j = false) :
    (t.shift tolerance amount).labels.reduced costs i j =
      t.labels.reduced costs i j - amount := by
  rw [reduced_shift, hi, hj, if_pos rfl, if_neg (by decide), add_zero]

theorem Shaped.rows_eq_columns (h : t.Shaped root rowOf)
    (hinj : ∀ {j j' i}, rowOf j = some i → rowOf j' = some i → j = j')
    (hroot : ¬ Matched rowOf root) (he : rowOf j = some i) : t.rows i = t.columns j := by
  rw [Bool.eq_iff_iff, h.rows_iff]
  constructor
  · rintro (rfl | ⟨j', hj', he'⟩)
    · exact False.elim (hroot ⟨j, he⟩)
    · exact hinj he' he ▸ hj'
  · intro hj
    exact Or.inr ⟨j, hj, he⟩

theorem Shaped.alternates_shift (h : t.Shaped root rowOf) (hp : t.Holds path)
    (ha : Alternates (t.labels.Tight costs) root rowOf path) :
    Alternates ((t.shift tolerance amount).labels.Tight costs) root rowOf path := by
  refine ha.mono ?_
  intro i j hj hi ht
  have hrow : t.rows i = true := by
    rw [h.rows_iff]
    rcases hi with rfl | ⟨j', hj', he⟩
    · exact Or.inl rfl
    · exact Or.inr ⟨j', hp.2 j' hj', he⟩
  exact (reduced_shift_same (hrow.trans (hp.2 j hj).symm)).trans ht

theorem Priced.shift (h : t.Priced costs root rowOf fun i => t.rows i = true)
    (tolerance : Rat) (hinj : ∀ {j j' i}, rowOf j = some i → rowOf j' = some i → j = j')
    (hroot : ¬ Matched rowOf root) (h0 : 0 ≤ amount)
    (hle : ∀ {j o}, t.columns j = false → t.offers j = some o → amount ≤ o.slack) :
    (t.shift tolerance amount).Priced costs root rowOf fun i => t.rows i = true := by
  refine ⟨h.toShaped.shift tolerance amount, ?_, ?_, ?_, ?_, ?_, ?_⟩
  · intro i j
    have hij := h.feasible i j
    cases hi : t.rows i <;> cases hj : t.columns j
    · rwa [reduced_shift_same (hi.trans hj.symm)]
    · rw [reduced_shift, hi, hj, if_neg (by decide), if_pos rfl]
      linarith
    · obtain ⟨o, ho, hred⟩ := h.offer_le hi hj
      rw [reduced_shift_outside hi hj]
      linarith [hle hj ho]
    · rwa [reduced_shift_same (hi.trans hj.symm)]
  · intro i j he
    exact (reduced_shift_same (h.rows_eq_columns hinj hroot he)).trans (h.tight he)
  · exact h.alternates_shift h.holds_path h.path_alternates
  · intro j o hj ho
    obtain ⟨o', ho', _, hpath⟩ := of_shift_offers (t := t) hj ho
    rw [hpath]
    exact h.alternates_shift (h.holds_offer hj ho') (h.offer_alternates hj ho')
  · intro j o hj ho
    obtain ⟨o', ho', hslack, hpath⟩ := of_shift_offers (t := t) hj ho
    obtain ⟨i, hi, htip, he⟩ := h.offer_attained hj ho'
    exact ⟨i, hi, hpath ▸ htip, by rw [reduced_shift_outside hi hj, hslack, he]⟩
  · intro i j hi hj
    obtain ⟨o, ho, hred⟩ := h.offer_le hi hj
    refine ⟨_, by rw [shift_offers (t := t) hj, ho]; rfl, ?_⟩
    rw [reduced_shift_outside hi hj]
    exact sub_le_sub_right hred amount

theorem Priced.enter (h : t.Priced costs root rowOf fun i => t.rows i = true)
    (hj : t.columns j = false) (hp : t.Holds path) (hr : rowOf j = some row)
    (ha : Alternates (t.labels.Tight costs) root rowOf (j :: path)) :
    (t.enter j path row).Priced costs root rowOf (t.enter j path row).Offered := by
  refine ⟨h.toShaped.enter hj hp hr, h.feasible, h.tight, ha, ?_, ?_, ?_⟩
  · intro j' o hj' ho
    exact h.offer_alternates (enter_columns_eq_false.mp hj').2 ho
  · intro j' o hj' ho
    obtain ⟨i, hi, he⟩ := h.offer_attained (enter_columns_eq_false.mp hj').2 ho
    exact ⟨i, enter_rows.mpr (Or.inr hi), he⟩
  · rintro i j' ⟨hi, hne⟩ hj'
    have hi' : t.rows i = true := (enter_rows.mp hi).resolve_left hne
    exact h.offer_le hi' (enter_columns_eq_false.mp hj').2

/-- After a shift by the least slack, the column that had it is reached over tight cells. -/
theorem Priced.alternates_nearest (h : t.Priced costs root rowOf covered) (tolerance : Rat)
    (hn : t.nearest = some (j, o)) :
    Alternates ((t.shift tolerance o.slack).labels.Tight costs) root rowOf (j :: o.path) := by
  obtain ⟨hj, ho⟩ := nearest_outside hn
  obtain ⟨i, hi, htip, he⟩ := h.offer_attained hj ho
  refine ⟨⟨i, htip, ?_⟩, h.alternates_shift (h.holds_offer hj ho) (h.offer_alternates hj ho)⟩
  rw [Labels.Tight, reduced_shift_outside hi hj, he, sub_self]

theorem Priced.shift_nearest (h : t.Priced costs root rowOf t.Offered) (tolerance : Rat)
    (hinj : ∀ {j j' i}, rowOf j = some i → rowOf j' = some i → j = j')
    (hroot : ¬ Matched rowOf root) (hn : (t.spread costs).nearest = some (j, o)) :
    ((t.spread costs).shift tolerance o.slack).Priced costs root rowOf
      fun i => t.rows i = true := by
  obtain ⟨hj, ho⟩ := nearest_outside hn
  exact h.spread.shift tolerance hinj hroot (h.spread.slack_nonneg hj ho) (nearest_le hn)

/-- What a pass finds it leaves for the next one. -/
theorem Priced.pass (h : t.Priced costs root rowOf t.Offered) (tolerance : Rat)
    (hinj : ∀ {j j' i}, rowOf j = some i → rowOf j' = some i → j = j')
    (hroot : ¬ Matched rowOf root) (hn : (t.spread costs).nearest = some (j, o))
    (hr : rowOf j = some row) :
    (((t.spread costs).shift tolerance o.slack).enter j o.path row).Priced costs root rowOf
      (((t.spread costs).shift tolerance o.slack).enter j o.path row).Offered := by
  obtain ⟨hj, ho⟩ := nearest_outside hn
  exact (h.shift_nearest tolerance hinj hroot hn).enter hj (h.spread.holds_offer hj ho) hr
    (h.spread.alternates_nearest tolerance hn)

end Tree

end LeastCost.Hungarian
