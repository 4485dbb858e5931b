import LeastCost.Proofs.Exact
import LeastCost.Selection
import Mathlib.Data.Prod.Lex

/-! # What a scan leaves

Where beating is transitive and irreflexive, no candidate beats the one that a scan leaves. A
scan for the least cost leaves a candidate of least cost, and the first of these. Where costs
are compared up to a margin, the margins of a scan add up, unless a tie of a tie is a tie.
-/

namespace LeastCost.Selection

variable {ι : Type} {beats : ι → ι → Bool}

theorem foldl_eq_or_beats
    (trans : ∀ a b c, beats a b = true → beats b c = true → beats a c = true)
    (first : ι) (rest : List ι) :
    rest.foldl (fun best next => if beats next best then next else best) first = first ∨
      beats (rest.foldl (fun best next => if beats next best then next else best) first)
        first = true := by
  induction rest generalizing first with
  | nil => exact Or.inl rfl
  | cons next rest ih =>
    rw [List.foldl_cons]
    by_cases h : beats next first = true
    · rw [if_pos h]
      rcases ih next with he | hb
      · exact Or.inr (by rw [he]; exact h)
      · exact Or.inr (trans _ _ _ hb h)
    · rw [if_neg h]
      exact ih first

theorem foldl_not_beaten
    (trans : ∀ a b c, beats a b = true → beats b c = true → beats a c = true)
    (irrefl : ∀ a, ¬ beats a a = true) (first : ι) (rest : List ι) :
    ∀ c ∈ first :: rest, ¬ beats c
      (rest.foldl (fun best next => if beats next best then next else best) first) = true := by
  induction rest generalizing first with
  | nil => simpa using irrefl first
  | cons next rest ih =>
    intro c hc hbeats
    rw [List.foldl_cons] at hbeats
    have hlast := foldl_eq_or_beats trans (if beats next first then next else first) rest
    by_cases h : beats next first = true
    · rw [if_pos h] at hbeats hlast
      rcases List.mem_cons.mp hc with rfl | hc
      · rcases hlast with he | hb
        · rw [he] at hbeats
          exact irrefl _ (trans _ _ _ hbeats h)
        · exact irrefl _ (trans _ _ _ (trans _ _ _ hbeats hb) h)
      · exact ih next c hc hbeats
    · rw [if_neg h] at hbeats hlast
      rcases List.mem_cons.mp hc with rfl | hc
      · exact ih c c List.mem_cons_self hbeats
      · rcases List.mem_cons.mp hc with rfl | hc
        · rcases hlast with he | hb
          · rw [he] at hbeats
            exact h hbeats
          · exact h (trans _ _ _ hbeats hb)
        · exact ih first c (List.mem_cons_of_mem _ hc) hbeats

theorem not_beaten_of_choose
    (trans : ∀ a b c, beats a b = true → beats b c = true → beats a c = true)
    (irrefl : ∀ a, ¬ beats a a = true) {candidates : List ι} {best : ι}
    (h : choose beats candidates = some best) {c : ι} (hc : c ∈ candidates) :
    ¬ beats c best = true := by
  cases candidates with
  | nil => simp at h
  | cons first rest =>
    simp only [choose, Option.some.injEq] at h
    exact h ▸ foldl_not_beaten trans irrefl first rest c hc

/-- Where one candidate beats another exactly if it ranks before it, the choice ranks after
none. -/
theorem rank_le_of_choose {κ : Type} [LinearOrder κ] (rank : ι → κ)
    (hbeats : ∀ a b, beats a b = true ↔ rank a < rank b) {candidates : List ι} {best : ι}
    (h : choose beats candidates = some best) {c : ι} (hc : c ∈ candidates) :
    rank best ≤ rank c := by
  have hn := not_beaten_of_choose (fun p q r hpq hqr => ?_) (fun p => ?_) h hc
  · rwa [hbeats, not_lt] at hn
  · rw [hbeats] at hpq hqr ⊢
    exact hpq.trans hqr
  · rw [hbeats]
    exact lt_irrefl _

/-- A candidate only meets those ahead of it, so two ways of beating that agree on these leave
the same choice. -/
theorem choose_congr_of_pairwise {beats' : ι → ι → Bool} {candidates : List ι}
    (h : candidates.Pairwise fun a b => beats b a = beats' b a) :
    choose beats candidates = choose beats' candidates := by
  cases candidates with
  | nil => rfl
  | cons first rest =>
    simp only [choose, Option.some.injEq]
    induction rest generalizing first with
    | nil => rfl
    | cons next rest ih =>
      rw [List.pairwise_cons] at h
      rw [List.foldl_cons, List.foldl_cons, h.1 next List.mem_cons_self]
      apply ih
      split
      · exact h.2
      · exact List.pairwise_cons.mpr ⟨fun c hc => h.1 c (List.mem_cons_of_mem _ hc), h.2.tail⟩

theorem choose_congr {beats' : ι → ι → Bool} {candidates : List ι}
    (h : ∀ a ∈ candidates, ∀ b ∈ candidates, beats a b = beats' a b) :
    choose beats candidates = choose beats' candidates :=
  choose_congr_of_pairwise (List.pairwise_of_forall_mem_list fun a ha b hb => h b hb a ha)

theorem mem_of_firstLeast {α : Type} [Scalar α] {cost : ι → α} {candidates : List ι} {best : ι}
    (h : firstLeast cost candidates = some best) : best ∈ candidates :=
  mem_of_choose h

theorem firstLeast_eq_none_iff {α : Type} [Scalar α] {cost : ι → α} {candidates : List ι} :
    firstLeast cost candidates = none ↔ candidates = [] :=
  choose_eq_none_iff

theorem firstLeast_le {cost : ι → Rat} {candidates : List ι} {best : ι}
    (h : firstLeast cost candidates = some best) {c : ι} (hc : c ∈ candidates) :
    cost best ≤ cost c :=
  rank_le_of_choose cost (fun _ _ => decide_eq_true_iff) h hc

/-- Among candidates in ascending order the least of those of least cost is chosen. -/
theorem toLex_le_of_firstLeast [LinearOrder ι] {cost : ι → Rat} {candidates : List ι} {best : ι}
    (hsorted : candidates.Pairwise (· < ·)) (h : firstLeast cost candidates = some best) {c : ι}
    (hc : c ∈ candidates) : toLex (cost best, best) ≤ toLex (cost c, c) := by
  have hcongr : firstLeast cost candidates =
      choose (fun next best => decide (toLex (cost next, next) < toLex (cost best, best)))
        candidates := by
    refine choose_congr_of_pairwise (hsorted.imp fun {a b} hab => ?_)
    simp [Prod.Lex.toLex_lt_toLex, hab.not_gt]
  exact rank_le_of_choose (fun a => toLex (cost a, a)) (fun _ _ => decide_eq_true_iff)
    (hcongr ▸ h) hc

section Margin

variable (cost : ι → Rat) {margin : Rat}
  (hbeats : ∀ a b, beats a b = true → cost a ≤ cost b + margin)
  (hkeeps : ∀ a b, beats a b = false → cost b ≤ cost a + margin)

include hbeats hkeeps

theorem foldl_le_add (hm : 0 ≤ margin) (first : ι) (rest : List ι) : ∀ c ∈ first :: rest,
    cost (rest.foldl (fun best next => if beats next best then next else best) first) ≤
      cost c + rest.length * margin := by
  induction rest generalizing first with
  | nil =>
    intro c hc
    obtain rfl := List.mem_singleton.mp hc
    simp
  | cons next rest ih =>
    intro c hc
    rw [List.foldl_cons, List.length_cons, Nat.cast_succ]
    cases h : beats next first with
    | true =>
      rw [if_pos rfl]
      rcases List.mem_cons.mp hc with rfl | hc
      · exact (ih next next List.mem_cons_self).trans (by linarith [hbeats _ _ h])
      · exact (ih next c hc).trans (by linarith)
    | false =>
      rw [if_neg Bool.false_ne_true]
      rcases List.mem_cons.mp hc with rfl | hc
      · exact (ih c c List.mem_cons_self).trans (by linarith)
      · rcases List.mem_cons.mp hc with rfl | hc
        · exact (ih first first List.mem_cons_self).trans (by linarith [hkeeps _ _ h])
        · exact (ih first c (List.mem_cons_of_mem _ hc)).trans (by linarith)

/-- The choice costs more than no candidate by more than a margin for each of the others. -/
theorem choose_le_add_others (hm : 0 ≤ margin) {candidates : List ι} {best c : ι}
    (h : choose beats candidates = some best) (hc : c ∈ candidates) :
    cost best ≤ cost c + (candidates.length - 1) * margin := by
  cases candidates with
  | nil => cases hc
  | cons first rest =>
    obtain rfl := Option.some.inj h
    rw [List.length_cons, Nat.cast_succ, add_sub_cancel_right]
    exact foldl_le_add cost hbeats hkeeps hm first rest c hc

/-- The candidates met so far are kept in mind: a tie of the next one with the choice is then a
tie with each of them that the choice ties with. -/
theorem foldl_le_add_of_transitive (hm : 0 ≤ margin) {all : List ι}
    (htrans : ∀ p ∈ all, ∀ q ∈ all, ∀ r ∈ all, |cost p - cost q| ≤ margin →
      |cost q - cost r| ≤ margin → |cost p - cost r| ≤ margin)
    (met : List ι) (first : ι) (rest : List ι) (hfirst : first ∈ all)
    (hrest : ∀ c ∈ rest, c ∈ all) (hmet : ∀ c ∈ met, c ∈ all ∧ cost first ≤ cost c + margin) :
    ∀ c, c ∈ met ∨ c ∈ rest →
      cost (rest.foldl (fun best next => if beats next best then next else best) first) ≤
        cost c + margin := by
  induction rest generalizing met first with
  | nil =>
    rintro c (hc | hc)
    · exact (hmet c hc).2
    · cases hc
  | cons next rest ih =>
    intro c hc
    have hnext := hrest next List.mem_cons_self
    rw [List.foldl_cons]
    refine ih (next :: met) _ (by split <;> assumption)
      (fun d hd => hrest d (List.mem_cons_of_mem _ hd)) ?_ c
      (by simpa [or_assoc, or_left_comm] using hc)
    intro d hd
    cases h : beats next first with
    | false =>
      rw [if_neg Bool.false_ne_true]
      rcases List.mem_cons.mp hd with rfl | hd
      · exact ⟨hnext, hkeeps _ _ h⟩
      · exact hmet d hd
    | true =>
      rw [if_pos rfl]
      rcases List.mem_cons.mp hd with rfl | hd
      · exact ⟨hnext, by linarith⟩
      · obtain ⟨hall, hle⟩ := hmet d hd
        refine ⟨hall, ?_⟩
        by_contra hlt
        have hnear := hbeats _ _ h
        have htie := htrans next hnext first hfirst d hall
          (abs_le.mpr (by constructor <;> linarith)) (abs_le.mpr (by constructor <;> linarith))
        linarith [(abs_le.mp htie).2]

theorem choose_le_add_of_transitive (hm : 0 ≤ margin) {candidates : List ι} {best c : ι}
    (htrans : ∀ p ∈ candidates, ∀ q ∈ candidates, ∀ r ∈ candidates, |cost p - cost q| ≤ margin →
      |cost q - cost r| ≤ margin → |cost p - cost r| ≤ margin)
    (h : choose beats candidates = some best) (hc : c ∈ candidates) :
    cost best ≤ cost c + margin := by
  cases candidates with
  | nil => cases hc
  | cons first rest =>
    obtain rfl := Option.some.inj h
    refine foldl_le_add_of_transitive cost hbeats hkeeps hm htrans [first] first rest
      List.mem_cons_self (fun d hd => List.mem_cons_of_mem _ hd) ?_ c (by simpa using hc)
    intro d hd
    obtain rfl := List.mem_singleton.mp hd
    exact ⟨List.mem_cons_self, by linarith⟩

end Margin

section Ties

variable (cost : ι → Rat) {margin : Rat} {earlier : ι → ι → Bool} {candidates : List ι}
  {best c : ι}

theorem le_add_of_beats_tie (hm : 0 ≤ margin) (a b : ι)
    (h : (decide (cost a < cost b - margin) ||
      (decide (Scalar.abs (cost a - cost b) ≤ margin) && earlier a b)) = true) :
    cost a ≤ cost b + margin := by
  simp only [Scalar.abs_rat, Bool.or_eq_true, Bool.and_eq_true, decide_eq_true_eq] at h
  rcases h with h | ⟨h, -⟩
  · linarith
  · linarith [le_of_abs_le h]

theorem le_add_of_not_beats_tie (a b : ι)
    (h : (decide (cost a < cost b - margin) ||
      (decide (Scalar.abs (cost a - cost b) ≤ margin) && earlier a b)) = false) :
    cost b ≤ cost a + margin := by
  simp only [Bool.or_eq_false_iff, decide_eq_false_iff_not, not_lt] at h
  linarith [h.1]

/-- Where the earlier candidate wins a tie within the margin, the ties of a scan add up. -/
theorem choose_tie_le_add_others (hm : 0 ≤ margin)
    (h : choose (fun next best => decide (cost next < cost best - margin) ||
      (decide (Scalar.abs (cost next - cost best) ≤ margin) && earlier next best)) candidates =
        some best) (hc : c ∈ candidates) :
    cost best ≤ cost c + (candidates.length - 1) * margin :=
  choose_le_add_others cost (le_add_of_beats_tie cost hm) (le_add_of_not_beats_tie cost) hm h hc

theorem choose_tie_le_add_of_transitive (hm : 0 ≤ margin)
    (htrans : ∀ p ∈ candidates, ∀ q ∈ candidates, ∀ r ∈ candidates, |cost p - cost q| ≤ margin →
      |cost q - cost r| ≤ margin → |cost p - cost r| ≤ margin)
    (h : choose (fun next best => decide (cost next < cost best - margin) ||
      (decide (Scalar.abs (cost next - cost best) ≤ margin) && earlier next best)) candidates =
        some best) (hc : c ∈ candidates) : cost best ≤ cost c + margin :=
  choose_le_add_of_transitive cost (le_add_of_beats_tie cost hm) (le_add_of_not_beats_tie cost) hm
    htrans h hc

end Ties

end LeastCost.Selection
