import Mathlib.Data.Fintype.EquivFin
import LeastCost.Hungarian.Solve

/-! # Alternating paths

The columns of an alternating path, the newest one first, each joined to the row that the rest
of the path leads to. When a path ends at a free column, moving every column to that row gives
a matching of one more row.
-/

namespace LeastCost.Hungarian

variable {n : Nat} {joins : Fin n → Fin n → Prop} {root : Fin n}
  {rowOf rowOf' : Family (Option (Fin n)) n} {column : Fin n} {path : List (Fin n)}

/-- The row that a path leads to: the root, or the row of its first column. -/
def tip (root : Fin n) (rowOf : Family (Option (Fin n)) n) : List (Fin n) → Option (Fin n)
  | [] => some root
  | column :: _ => rowOf column

/-- Each column is joined to the row that the columns behind it lead to. -/
def Alternates (joins : Fin n → Fin n → Prop) (root : Fin n)
    (rowOf : Family (Option (Fin n)) n) : List (Fin n) → Prop
  | [] => True
  | column :: path =>
    (∃ i, tip root rowOf path = some i ∧ joins i column) ∧ Alternates joins root rowOf path

def Matched (rowOf : Family (Option (Fin n)) n) (i : Fin n) : Prop := ∃ j, rowOf j = some i

/-- No row has two columns, and each row is joined to its column. -/
structure IsMatching (joins : Fin n → Fin n → Prop) (rowOf : Family (Option (Fin n)) n) :
    Prop where
  injective : ∀ {j j' i}, rowOf j = some i → rowOf j' = some i → j = j'
  joined : ∀ {i j}, rowOf j = some i → joins i j

theorem IsMatching.mono {joins' : Fin n → Fin n → Prop} (h : IsMatching joins rowOf)
    (hj : ∀ i j, rowOf j = some i → joins' i j) : IsMatching joins' rowOf :=
  ⟨h.injective, fun {i j} he => hj i j he⟩

theorem Alternates.mono {joins' : Fin n → Fin n → Prop} (h : Alternates joins root rowOf path)
    (hj : ∀ i, ∀ j ∈ path, (i = root ∨ ∃ j' ∈ path, rowOf j' = some i) → joins i j → joins' i j) :
    Alternates joins' root rowOf path := by
  induction path with
  | nil => trivial
  | cons column path ih =>
    obtain ⟨⟨i, htip, hi⟩, hrest⟩ := h
    refine ⟨⟨i, htip, hj i column List.mem_cons_self ?_ hi⟩, ih hrest ?_⟩
    · cases path with
      | nil => exact Or.inl (Option.some.inj htip).symm
      | cons next path => exact Or.inr ⟨next, by simp, htip⟩
    · intro i' j hm hi'
      refine hj i' j (List.mem_cons_of_mem _ hm) ?_
      rcases hi' with rfl | ⟨j', hm', he⟩
      · exact Or.inl rfl
      · exact Or.inr ⟨j', List.mem_cons_of_mem _ hm', he⟩

theorem tip_congr (h : ∀ j ∈ path, rowOf' j = rowOf j) :
    tip root rowOf' path = tip root rowOf path := by
  cases path with
  | nil => rfl
  | cons column path => exact h column List.mem_cons_self

theorem Alternates.congr (h : ∀ j ∈ path, rowOf' j = rowOf j)
    (ha : Alternates joins root rowOf path) : Alternates joins root rowOf' path := by
  induction path with
  | nil => trivial
  | cons column path ih =>
    obtain ⟨⟨i, htip, hi⟩, hrest⟩ := ha
    have hpath : ∀ j ∈ path, rowOf' j = rowOf j := fun j hj => h j (List.mem_cons_of_mem _ hj)
    exact ⟨⟨i, (tip_congr hpath).trans htip, hi⟩, ih hpath hrest⟩

/-- A matching as long as the column does not count, with the root unmatched. -/
structure MatchingBut (joins : Fin n → Fin n → Prop) (root column : Fin n)
    (rowOf : Family (Option (Fin n)) n) : Prop where
  injective : ∀ {j j' i}, j ≠ column → j' ≠ column →
    rowOf j = some i → rowOf j' = some i → j = j'
  joined : ∀ {i j}, j ≠ column → rowOf j = some i → joins i j
  root_free : ∀ {j}, j ≠ column → rowOf j ≠ some root

theorem MatchingBut.set_root (h : MatchingBut joins root column rowOf)
    (hj : joins root column) : IsMatching joins (rowOf.set column (some root)) := by
  constructor
  · intro j j' i hi hi'
    rw [Family.get_set] at hi hi'
    split at hi <;> split at hi'
    · next he he' => exact he.symm.trans he'
    · next he he' =>
      exact False.elim (h.root_free (Ne.symm he') (hi'.trans hi.symm))
    · next he he' =>
      exact False.elim (h.root_free (Ne.symm he) (hi.trans hi'.symm))
    · next he he' => exact h.injective (Ne.symm he) (Ne.symm he') hi hi'
  · intro i j hi
    rw [Family.get_set] at hi
    split at hi
    · next he =>
      obtain rfl := Option.some.inj hi
      exact he ▸ hj
    · next he => exact h.joined (Ne.symm he) hi

theorem MatchingBut.set_next {next i : Fin n} (h : MatchingBut joins root column rowOf)
    (hne : column ≠ next) (hi : rowOf next = some i) (hj : joins i column) :
    MatchingBut joins root next (rowOf.set column (rowOf next)) := by
  constructor
  · intro j j' i' hn hn' he he'
    rw [Family.get_set] at he he'
    split at he <;> split at he'
    · next hc hc' => exact hc.symm.trans hc'
    · next hc hc' => exact False.elim (hn' (h.injective hne.symm (Ne.symm hc') he he').symm)
    · next hc hc' => exact False.elim (hn (h.injective hne.symm (Ne.symm hc) he' he).symm)
    · next hc hc' => exact h.injective (Ne.symm hc) (Ne.symm hc') he he'
  · intro i' j hn he
    rw [Family.get_set] at he
    split at he
    · next hc =>
      obtain rfl := Option.some.inj (hi.symm.trans he)
      exact hc ▸ hj
    · next hc => exact h.joined (Ne.symm hc) he
  · intro j hn he
    rw [Family.get_set] at he
    split at he
    · exact h.root_free hne.symm he
    · next hc => exact h.root_free (Ne.symm hc) he

theorem matched_set_next {next i : Fin n} (hne : column ≠ next) :
    (∃ j, j ≠ next ∧ rowOf.set column (rowOf next) j = some i) ↔
      ∃ j, j ≠ column ∧ rowOf j = some i := by
  simp only [Family.get_set]
  constructor
  · rintro ⟨j, hn, he⟩
    by_cases hc : column = j
    · exact ⟨next, hne.symm, by rwa [if_pos hc] at he⟩
    · exact ⟨j, Ne.symm hc, by rwa [if_neg hc] at he⟩
  · rintro ⟨j, hc, he⟩
    by_cases hn : j = next
    · exact ⟨column, hne, by rw [if_pos rfl, ← hn, he]⟩
    · exact ⟨j, hn, by rw [if_neg (Ne.symm hc), he]⟩

theorem rematch_isMatching (h : MatchingBut joins root column rowOf)
    (hn : (column :: path).Nodup) (ha : Alternates joins root rowOf (column :: path)) :
    IsMatching joins (rematch root (column :: path) rowOf) := by
  induction path generalizing column rowOf with
  | nil =>
    obtain ⟨⟨i, htip, hi⟩, _⟩ := ha
    obtain rfl := Option.some.inj htip
    exact h.set_root hi
  | cons next path ih =>
    obtain ⟨⟨i, htip, hi⟩, hrest⟩ := ha
    rw [List.nodup_cons] at hn
    refine ih (h.set_next (List.ne_of_not_mem_cons hn.1) htip hi) hn.2 (hrest.congr ?_)
    intro j hj
    have hc : column ≠ j := fun he => hn.1 (he ▸ hj)
    rw [Family.get_set, if_neg hc]

theorem matched_rematch_iff {i : Fin n} (hn : (column :: path).Nodup) :
    Matched (rematch root (column :: path) rowOf) i ↔
      i = root ∨ ∃ j, j ≠ column ∧ rowOf j = some i := by
  induction path generalizing column rowOf with
  | nil =>
    simp only [Matched, rematch, Family.get_set]
    constructor
    · rintro ⟨j, he⟩
      split at he
      · exact Or.inl (Option.some.inj he).symm
      · next hc => exact Or.inr ⟨j, Ne.symm hc, he⟩
    · rintro (rfl | ⟨j, hc, he⟩)
      · exact ⟨column, by rw [if_pos rfl]⟩
      · exact ⟨j, by rw [if_neg (Ne.symm hc), he]⟩
  | cons next path ih =>
    rw [List.nodup_cons] at hn
    exact (ih hn.2).trans (or_congr Iff.rfl (matched_set_next (List.ne_of_not_mem_cons hn.1)))

/-- Along a path to a free column one more row is matched. -/
theorem rematch_free (h : IsMatching joins rowOf) (hroot : ¬ Matched rowOf root)
    (hfree : rowOf column = none) (hn : (column :: path).Nodup)
    (ha : Alternates joins root rowOf (column :: path)) :
    IsMatching joins (rematch root (column :: path) rowOf) ∧
      ∀ i, Matched (rematch root (column :: path) rowOf) i ↔ i = root ∨ Matched rowOf i := by
  constructor
  · have hbut : MatchingBut joins root column rowOf :=
      ⟨fun _ _ => h.injective, fun _ => h.joined, fun {j} _ he => hroot ⟨j, he⟩⟩
    exact rematch_isMatching hbut hn ha
  · intro i
    rw [matched_rematch_iff hn]
    refine or_congr Iff.rfl ⟨?_, ?_⟩
    · rintro ⟨j, _, he⟩
      exact ⟨j, he⟩
    · rintro ⟨j, he⟩
      refine ⟨j, ?_, he⟩
      rintro rfl
      simp [hfree] at he

theorem IsMatching.find?_eq (h : IsMatching joins rowOf) {i j : Fin n} (hj : rowOf j = some i) :
    ((List.finRange n).find? fun j => rowOf j = some i) = some j := by
  cases he : (List.finRange n).find? fun j => rowOf j = some i with
  | none =>
    rw [List.find?_eq_none] at he
    exact absurd (decide_eq_true hj) (he j (List.mem_finRange j))
  | some j' =>
    have hj' : rowOf j' = some i := by simpa using List.find?_some he
    rw [h.injective hj hj']

/-- When all rows are matched, the matched cells are those of a permutation. -/
theorem IsMatching.exists_perm (h : IsMatching joins rowOf) (hall : ∀ i, Matched rowOf i) :
    ∃ σ : Equiv.Perm (Fin n), (∀ i, rowOf (σ i) = some i) ∧
      ∀ {α : Type} (labels : Labels α n) (adjustments : Nat),
        (Matching.mk labels rowOf adjustments).cells =
          (List.finRange n).map fun i => (i, σ i) := by
  choose f hf using hall
  have hinj : Function.Injective f := by
    intro i i' he
    exact Option.some.inj ((hf i).symm.trans (he ▸ hf i'))
  refine ⟨Equiv.ofBijective f (Finite.injective_iff_bijective.mp hinj), hf, ?_⟩
  intro α labels adjustments
  rw [Matching.cells, ← List.filterMap_eq_map]
  refine List.filterMap_congr fun i _ => ?_
  rw [h.find?_eq (hf i)]
  rfl

end LeastCost.Hungarian
