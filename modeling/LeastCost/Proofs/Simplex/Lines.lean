import LeastCost.Proofs.Simplex.Canonical
import LeastCost.Simplex.Standard

/-! # Lines of the standard form

Every constraint becomes a line with a basic column of its own: the slack of an upper bound, an
artificial variable otherwise. The columns are handed out in order, so no line has an entry in
the basic column of another one.
-/

namespace LeastCost.Simplex

open LinearProgram (Row)

section Columns

variable {α : Type} {l : Layout} {s a : Nat} {r : Row α} {rows : List (Row α)}

/-- The basic column and the row of one constraint, given the next free columns. -/
def standardLine [Scalar α] (l : Layout) (s a : Nat) (r : Row α) : Nat × List α :=
  match r.sign with
  | .lessEqual => (s, (l.blankRow r).set s 1)
  | .greaterEqual => (a, ((l.blankRow r).set s (-1)).set a 1)
  | .equal => (a, (l.blankRow r).set a 1)

def count (b : Bool) : Nat := if b then 1 else 0

theorem standardRows_cons [Scalar α] (l : Layout) (s a : Nat) (r : Row α) (rows : List (Row α)) :
    standardRows l s a (r :: rows) = standardLine l s a r ::
      standardRows l (s + count r.sign.hasSlack) (a + count r.sign.needsArtificial) rows := by
  obtain ⟨_, sign, _⟩ := r
  cases sign <;> rfl

theorem length_standardRows [Scalar α] (l : Layout) (s a : Nat) (rows : List (Row α)) :
    (standardRows l s a rows).length = rows.length := by
  induction rows generalizing s a with
  | nil => rfl
  | cons r rows ih => rw [standardRows_cons, List.length_cons, ih, List.length_cons]

/-- The columns of a layout are enough for these constraints, from the next free columns on. -/
structure Room (l : Layout) (s a : Nat) (rows : List (Row α)) : Prop where
  structural_le : l.structural ≤ s
  slack_eq : s + rows.countP (·.sign.hasSlack) = l.real
  real_le : l.real ≤ a
  artificial_eq : a + rows.countP (·.sign.needsArtificial) = l.total
  coefficients_length : ∀ r ∈ rows, r.coefficients.length = l.structural

theorem Room.tail (h : Room l s a (r :: rows)) :
    Room l (s + count r.sign.hasSlack) (a + count r.sign.needsArtificial) rows := by
  obtain ⟨hs, hslack, hr, hart, hc⟩ := h
  rw [List.countP_cons] at hslack hart
  refine ⟨by omega, ?_, by omega, ?_, fun r hr => hc r (List.mem_cons_of_mem _ hr)⟩
  · rw [← hslack, count]; omega
  · rw [← hart, count]; omega

theorem Room.slack_lt (h : Room l s a (r :: rows)) (hr : r.sign.hasSlack = true) :
    s < l.real := by
  have := h.slack_eq
  rw [List.countP_cons, if_pos hr] at this
  omega

theorem Room.artificial_lt (h : Room l s a (r :: rows)) (hr : r.sign.needsArtificial = true) :
    a < l.total := by
  have := h.artificial_eq
  rw [List.countP_cons, if_pos hr] at this
  omega

theorem Room.total_le (h : Room l s a rows) : l.structural ≤ l.real ∧ l.real ≤ l.total := by
  have := h.structural_le
  have := h.slack_eq
  have := h.real_le
  have := h.artificial_eq
  omega

theorem length_blankRow [Scalar α] (h : r.coefficients.length = l.structural)
    (hl : l.structural ≤ l.total) : (l.blankRow r).length = l.total + 1 := by
  simp [Layout.blankRow, h]
  omega

end Columns

variable {l : Layout} {s a j : Nat} {r : Row Rat} {rows : List (Row Rat)} {y : Nat → Rat}

theorem entry_blankRow (h : r.coefficients.length = l.structural) (hl : l.structural ≤ l.total) :
    entry (l.blankRow r) j =
      if j < l.structural then entry r.coefficients j else if j = l.total then r.bound else 0 := by
  rw [Layout.blankRow, List.append_assoc]
  split_ifs with hj hj'
  · exact entry_append_left (h ▸ hj)
  · obtain ⟨k, rfl⟩ : ∃ k, j = r.coefficients.length + k := ⟨j - l.structural, by omega⟩
    rw [entry_append_add]
    have hk : k = (List.replicate (l.total - l.structural) (0 : Rat)).length + 0 := by simp; omega
    rw [hk, entry_append_add]
    rfl
  · obtain ⟨k, rfl⟩ : ∃ k, j = r.coefficients.length + k := ⟨j - l.structural, by omega⟩
    rw [entry_append_add]
    by_cases hk : k < l.total - l.structural
    · rw [entry_append_left (by simpa using hk), entry_replicate_zero]
    · exact entry_of_le (by simp; omega)

theorem eval_blankRow (h : r.coefficients.length = l.structural) (hl : l.structural ≤ l.total) :
    eval l.total (l.blankRow r) y = eval l.structural r.coefficients y := by
  rw [eval, ← Finset.sum_subset (Finset.range_subset_range.mpr hl)]
  · refine eval_congr fun j hj => ?_
    rw [entry_blankRow h hl, if_pos hj]
  · intro j hj hn
    have hlt : j < l.total := Finset.mem_range.mp hj
    have hge : ¬ j < l.structural := fun hj => hn (Finset.mem_range.mpr hj)
    rw [entry_blankRow h hl, if_neg hge, if_neg hlt.ne, zero_mul]

def slackEntry : Sign → Rat
  | .lessEqual => 1
  | .greaterEqual => -1
  | .equal => 0

theorem entry_standardLine (h : Room l s a (r :: rows)) (j : Nat) :
    entry (standardLine l s a r).2 j =
      if r.sign.needsArtificial = true ∧ j = a then 1
      else if r.sign.hasSlack = true ∧ j = s then slackEntry r.sign
      else entry (l.blankRow r) j := by
  have hlength := length_blankRow (h.coefficients_length r List.mem_cons_self)
    (h.total_le.1.trans h.total_le.2)
  have hs := h.slack_lt
  have ha := h.artificial_lt
  have hle := h.total_le
  have hreal := h.real_le
  obtain ⟨coefficients, sign, bound⟩ := r
  cases sign with
  | lessEqual =>
    have := hs rfl
    simp only [standardLine, Sign.needsArtificial, Sign.hasSlack, slackEntry]
    rw [entry_set (by rw [hlength]; omega)]
    simp
  | greaterEqual =>
    have := hs rfl
    have := ha rfl
    simp only [standardLine, Sign.needsArtificial, Sign.hasSlack, slackEntry]
    rw [entry_set (by rw [List.length_set, hlength]; omega),
      entry_set (by rw [hlength]; omega)]
    simp
  | equal =>
    have := ha rfl
    simp only [standardLine, Sign.needsArtificial, Sign.hasSlack, slackEntry]
    rw [entry_set (by rw [hlength]; omega)]
    simp

theorem entry_standardLine_bound (h : Room l s a (r :: rows)) :
    entry (standardLine l s a r).2 l.total = r.bound := by
  have hle := h.total_le
  have hreal := h.real_le
  rw [entry_standardLine h, if_neg, if_neg,
    entry_blankRow (h.coefficients_length r List.mem_cons_self) (hle.1.trans hle.2),
    if_neg (by omega), if_pos rfl]
  · rintro ⟨hr, he⟩
    have := h.slack_lt hr
    omega
  · rintro ⟨hr, he⟩
    have := h.artificial_lt hr
    omega

theorem eval_standardLine (h : Room l s a (r :: rows)) :
    eval l.total (standardLine l s a r).2 y = eval l.structural r.coefficients y +
      slackEntry r.sign * y s + if r.sign.needsArtificial then y a else 0 := by
  have hc := h.coefficients_length r List.mem_cons_self
  have hle := h.total_le
  have hlength := length_blankRow hc (hle.1.trans hle.2)
  have hzero : ∀ j, l.structural ≤ j → j < l.total → entry (l.blankRow r) j = 0 := by
    intro j hj hj'
    rw [entry_blankRow hc (hle.1.trans hle.2), if_neg (by omega), if_neg (by omega)]
  have hs := h.slack_lt
  have ha := h.artificial_lt
  have hreal := h.real_le
  have hstructural := h.structural_le
  rw [← eval_blankRow hc (hle.1.trans hle.2)]
  obtain ⟨coefficients, sign, bound⟩ := r
  cases sign with
  | lessEqual =>
    have := hs rfl
    simp only [standardLine, slackEntry, Sign.needsArtificial]
    rw [eval_set (by omega) (by rw [hlength]; omega), hzero s (by omega) (by omega)]
    simp
  | greaterEqual =>
    have := hs rfl
    have := ha rfl
    simp only [standardLine, slackEntry, Sign.needsArtificial]
    rw [eval_set (by omega) (by rw [List.length_set, hlength]; omega),
      eval_set (by omega) (by rw [hlength]; omega), entry_set (by rw [hlength]; omega),
      if_neg (by omega), hzero s (by omega) (by omega), hzero a (by omega) (by omega)]
    simp
  | equal =>
    have := ha rfl
    simp only [standardLine, slackEntry, Sign.needsArtificial]
    rw [eval_set (by omega) (by rw [hlength]; omega), hzero a (by omega) (by omega)]
    simp

structure LineFits (l : Layout) (s a : Nat) (line : Nat × List Rat) : Prop where
  length_eq : line.2.length = l.total + 1
  basic : (s ≤ line.1 ∧ line.1 < l.real) ∨ (a ≤ line.1 ∧ line.1 < l.total)
  own : entry line.2 line.1 = 1
  used_slack : ∀ j, l.structural ≤ j → j < s → entry line.2 j = 0
  used_artificial : ∀ j, l.real ≤ j → j < a → entry line.2 j = 0

theorem LineFits.mono {s' a' : Nat} {line : Nat × List Rat} (h : LineFits l s' a' line)
    (hs : s ≤ s') (ha : a ≤ a') : LineFits l s a line where
  length_eq := h.length_eq
  basic := h.basic.imp (fun hb => ⟨hs.trans hb.1, hb.2⟩) fun hb => ⟨ha.trans hb.1, hb.2⟩
  own := h.own
  used_slack j hj hj' := h.used_slack j hj (hj'.trans_le hs)
  used_artificial j hj hj' := h.used_artificial j hj (hj'.trans_le ha)

theorem standardLine_basic (l : Layout) (s a : Nat) (r : Row Rat) :
    (standardLine l s a r).1 = if r.sign.needsArtificial then a else s := by
  obtain ⟨_, sign, _⟩ := r
  cases sign <;> rfl

theorem hasSlack_of_not_needsArtificial {sign : Sign} (h : ¬ sign.needsArtificial = true) :
    sign.hasSlack = true ∧ slackEntry sign = 1 := by
  cases sign <;> simp_all [Sign.needsArtificial, Sign.hasSlack, slackEntry]

theorem entry_standardLine_unused (h : Room l s a (r :: rows)) (hj : l.structural ≤ j)
    (hj' : j < l.total) (hs : r.sign.hasSlack = true → j ≠ s)
    (ha : r.sign.needsArtificial = true → j ≠ a) : entry (standardLine l s a r).2 j = 0 := by
  have hle := h.total_le
  rw [entry_standardLine h, if_neg fun hn => ha hn.1 hn.2, if_neg fun hn => hs hn.1 hn.2,
    entry_blankRow (h.coefficients_length r List.mem_cons_self) (hle.1.trans hle.2),
    if_neg (by omega), if_neg (by omega)]

theorem lineFits_standardLine (h : Room l s a (r :: rows)) :
    LineFits l s a (standardLine l s a r) := by
  have hle := h.total_le
  have hreal := h.real_le
  have hstructural := h.structural_le
  have hs : s ≤ l.real := by have := h.slack_eq; omega
  have ha : a ≤ l.total := by have := h.artificial_eq; omega
  constructor
  · have hlength := length_blankRow (h.coefficients_length r List.mem_cons_self)
      (hle.1.trans hle.2)
    obtain ⟨_, sign, _⟩ := r
    cases sign <;> simpa [standardLine] using hlength
  · rw [standardLine_basic]
    split
    · next hr => exact Or.inr ⟨le_rfl, h.artificial_lt hr⟩
    · next hr => exact Or.inl ⟨le_rfl, h.slack_lt (hasSlack_of_not_needsArtificial hr).1⟩
  · rw [standardLine_basic, entry_standardLine h]
    by_cases hr : r.sign.needsArtificial = true
    · rw [if_pos hr, if_pos ⟨hr, rfl⟩]
    · obtain ⟨hslack, hone⟩ := hasSlack_of_not_needsArtificial hr
      rw [if_neg hr, if_neg fun hn => hr hn.1, if_pos ⟨hslack, rfl⟩, hone]
  · intro j hj hj'
    exact entry_standardLine_unused h hj (by omega) (fun _ => by omega) fun _ => by omega
  · intro j hj hj'
    exact entry_standardLine_unused h (by omega) (by omega) (fun hr => by
      have := h.slack_lt hr; omega) fun _ => by omega

theorem lineFits_of_mem (h : Room l s a rows) {line : Nat × List Rat}
    (hl : line ∈ standardRows l s a rows) : LineFits l s a line := by
  induction rows generalizing s a with
  | nil => simp [standardRows] at hl
  | cons r rows ih =>
    rw [standardRows_cons] at hl
    rcases List.mem_cons.mp hl with rfl | hl
    · exact lineFits_standardLine h
    · exact (ih h.tail hl).mono (by omega) (by omega)

theorem pairwise_standardRows (h : Room l s a rows) :
    (standardRows l s a rows).Pairwise fun line line' =>
      entry line.2 line'.1 = 0 ∧ entry line'.2 line.1 = 0 := by
  induction rows generalizing s a with
  | nil => exact List.Pairwise.nil
  | cons r rows ih =>
    rw [standardRows_cons]
    refine List.Pairwise.cons (fun line hl => ?_) (ih h.tail)
    have hfits := lineFits_of_mem h.tail hl
    have hle := h.total_le
    have hreal := h.real_le
    have hstructural := h.structural_le
    have htail := h.tail.structural_le
    constructor
    · refine entry_standardLine_unused h ?_ ?_ (fun hr => ?_) fun hr => ?_
      · rcases hfits.basic with hb | hb <;> omega
      · rcases hfits.basic with hb | hb <;> omega
      · have := h.slack_lt hr
        rcases hfits.basic with hb | hb <;> simp only [hr, count, if_true] at hb <;> omega
      · have := h.slack_eq
        rcases hfits.basic with hb | hb <;> simp only [hr, count, if_true] at hb <;> omega
    · rw [standardLine_basic]
      split
      · next hr => exact hfits.used_artificial a hreal (by simp [hr, count])
      · next hr =>
        have hslack := (hasSlack_of_not_needsArtificial hr).1
        exact hfits.used_slack s hstructural (by simp [hslack, count])

theorem bound_of_mem_standardRows (h : Room l s a rows) {line : Nat × List Rat}
    (hl : line ∈ standardRows l s a rows) : ∃ r ∈ rows, entry line.2 l.total = r.bound := by
  induction rows generalizing s a with
  | nil => simp [standardRows] at hl
  | cons r rows ih =>
    rw [standardRows_cons] at hl
    rcases List.mem_cons.mp hl with rfl | hl
    · exact ⟨r, List.mem_cons_self, entry_standardLine_bound h⟩
    · obtain ⟨r', hr', he⟩ := ih h.tail hl
      exact ⟨r', List.mem_cons_of_mem _ hr', he⟩

end LeastCost.Simplex
