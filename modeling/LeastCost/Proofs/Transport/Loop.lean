import LeastCost.Proofs.Transport.Exchange
import LeastCost.Proofs.Transport.Shipping

/-! # Shifted loops

A shift along a loop leaves the total of every node as it was. Without tolerance it moves the
least flow of the donors, so no flow becomes negative and the leaving cell becomes idle. Within a
tolerance ties of the donors add up, and flows become negative as far as they do.
-/

namespace LeastCost.Transport

variable {m n : Nat} {net : Network Rat m n} {b : Basis Rat m n} {c d e : Cell m n}
  {path rest : List (Cell m n)} {amount tolerance margin : Rat} {i : Fin m} {j : Fin n}
  {x y : Node m n}

namespace Cell

theorem joins_inl_iff : c.Joins (.inl i) y ↔ c.1 = i ∧ y = .inr c.2 := by
  simp [Joins, eq_comm]

theorem joins_inr_iff : c.Joins (.inr j) y ↔ c.2 = j ∧ y = .inl c.1 := by
  simp [Joins, eq_comm]

end Cell

/-- A route from a source to a destination has an odd number of cells, which share columns and
rows by turns. -/
theorem Route.cases_row (h : Route (.inl i) (.inr j) path) :
    path = [(i, j)] ∨ ∃ d e rest, path = d :: e :: rest ∧ d.1 = i ∧ e.2 = d.2 ∧
      Route (.inl e.1) (.inr j) rest := by
  rcases path with _ | ⟨d, path⟩
  · cases h
  · obtain ⟨y, hd, h⟩ := h
    obtain ⟨hi, rfl⟩ := Cell.joins_inl_iff.mp hd
    rcases path with _ | ⟨e, rest⟩
    · have hj : (Sum.inr d.2 : Node m n) = .inr j := h
      exact Or.inl (by rw [← hi, ← Sum.inr.inj hj])
    · obtain ⟨z, he, h⟩ := h
      obtain ⟨hshared, rfl⟩ := Cell.joins_inr_iff.mp he
      exact Or.inr ⟨d, e, rest, rfl, hi, hshared, h⟩

theorem Route.ne_nil (h : Route (.inl i) (.inr j) path) : path ≠ [] := by
  rintro rfl
  cases h

namespace Basis

theorem total_alternate (h : Route (.inl i) (.inr j) path) (amount : Rat)
    (b : Basis Rat m n) (x : Node m n) :
    (alternate amount path b).total x = b.total x - share (i, j) amount x := by
  induction path using donors.induct generalizing b i with
  | case1 => cases h
  | case2 d =>
    rcases h.cases_row with he | ⟨d, e, rest, he, _⟩
    · obtain rfl : d = (i, j) := List.singleton_inj.mp he
      rw [alternate, total_adjust, sub_sub_cancel_left, share_neg, sub_eq_add_neg]
    · simp at he
  | case3 d e rest ih =>
    rcases h.cases_row with he | ⟨d', e', rest', he, hi, hshared, hroute⟩
    · simp at he
    · simp only [List.cons.injEq] at he
      obtain ⟨rfl, rfl, rfl⟩ := he
      rw [alternate, ih hroute, total_adjust, total_adjust, sub_sub_cancel_left,
        add_sub_cancel_left]
      simp only [share, hi, hshared]
      split <;> split <;> split <;> ring

theorem flow_alternate_of_notMem (h : c ∉ path) (amount : Rat) (b : Basis Rat m n) :
    (alternate amount path b).flow c = b.flow c := by
  induction path using donors.induct generalizing b with
  | case1 => rfl
  | case2 d =>
    rw [alternate, flow_adjust, if_neg (List.ne_of_not_mem_cons h).symm]
  | case3 d e rest ih =>
    simp only [List.mem_cons, not_or] at h
    rw [alternate, ih h.2.2, flow_adjust, if_neg (Ne.symm h.2.1), flow_adjust,
      if_neg (Ne.symm h.1)]

theorem flow_alternate_of_mem_donors (hn : path.Nodup) (h : c ∈ donors path) (amount : Rat)
    (b : Basis Rat m n) : (alternate amount path b).flow c = b.flow c - amount := by
  induction path using donors.induct generalizing b with
  | case1 => cases h
  | case2 d =>
    obtain rfl := List.mem_singleton.mp h
    rw [alternate, flow_adjust, if_pos rfl]
  | case3 d e rest ih =>
    simp only [List.nodup_cons, List.mem_cons, not_or] at hn
    obtain ⟨⟨hde, hd⟩, he, hrest⟩ := hn
    rw [alternate]
    rcases List.mem_cons.mp h with rfl | h
    · rw [flow_alternate_of_notMem hd, flow_adjust, if_neg (Ne.symm hde), flow_adjust,
        if_pos rfl]
    · have hc := mem_of_mem_donors h
      have hdc : d ≠ c := fun heq => hd (heq ▸ hc)
      have hec : e ≠ c := fun heq => he (heq ▸ hc)
      rw [ih hrest h, flow_adjust, if_neg hec, flow_adjust, if_neg hdc]

theorem le_flow_alternate (h0 : 0 ≤ amount) (h : c ∉ donors path) (b : Basis Rat m n) :
    b.flow c ≤ (alternate amount path b).flow c := by
  induction path using donors.induct generalizing b with
  | case1 => exact le_rfl
  | case2 d => exact (flow_alternate_of_notMem h amount b).ge
  | case3 d e rest ih =>
    simp only [donors, List.mem_cons, not_or] at h
    refine le_trans ?_ (ih h.2 _)
    rw [flow_adjust_eq_add, flow_adjust, if_neg (Ne.symm h.1)]
    split
    · linarith
    · rw [add_zero]

theorem exists_leavingCell (b : Basis Rat m n) (tolerance : Rat) (h : path ≠ []) :
    ∃ d, b.leavingCell tolerance path = some d := by
  cases hd : b.leavingCell tolerance path with
  | some d => exact ⟨d, rfl⟩
  | none =>
    have hnil := Selection.choose_eq_none_iff.mp hd
    rcases path with _ | ⟨donor, _ | ⟨taker, rest⟩⟩
    · exact absurd rfl h
    · cases hnil
    · cases hnil

/-- Ties within the tolerance add up: the leaving cell can have more flow than the least of the
donors, by the tolerance once for each of the others. -/
theorem leavingCell_le_add_others (ht : 0 ≤ tolerance)
    (h : b.leavingCell tolerance path = some d) (hc : c ∈ donors path) :
    b.flow d ≤ b.flow c + ((donors path).length - 1) * tolerance :=
  Selection.choose_tie_le_add_others b.flow ht h hc

theorem leavingCell_le (h : b.leavingCell 0 path = some d) (hc : c ∈ donors path) :
    b.flow d ≤ b.flow c := by
  simpa using leavingCell_le_add_others le_rfl h hc

section Shift

theorem flow_shiftAlongLoop (h : b.leavingCell tolerance path = some d) :
    (b.shiftAlongLoop tolerance c path).2.flow e =
      if d = e then 0
      else if c = e then (alternate (b.flow d) path b).flow c + b.flow d
      else (alternate (b.flow d) path b).flow e := by
  simp only [shiftAlongLoop, h, flow_erase, flow_adjust, flow_insert]

theorem flow_shiftAlongLoop_of_notMem (h : b.leavingCell tolerance path = some d) (hc : e ≠ c)
    (he : e ∉ path) : (b.shiftAlongLoop tolerance c path).2.flow e = b.flow e := by
  have hd : d ≠ e := fun heq => he (heq ▸ mem_of_mem_donors (leavingCell_mem h))
  rw [flow_shiftAlongLoop h, if_neg hd, if_neg hc.symm, flow_alternate_of_notMem he]

theorem flow_shiftAlongLoop_entering (h : b.leavingCell tolerance path = some d)
    (hc : c ∉ path) :
    (b.shiftAlongLoop tolerance c path).2.flow c = b.flow c + b.flow d := by
  have hd : d ≠ c := fun heq => hc (heq ▸ mem_of_mem_donors (leavingCell_mem h))
  rw [flow_shiftAlongLoop h, if_neg hd, if_pos rfl, flow_alternate_of_notMem hc]

theorem total_shiftAlongLoop (hroute : Route (.inl c.1) (.inr c.2) path) (hn : path.Nodup)
    (hc : c ∉ path) (h : b.leavingCell tolerance path = some d) (x : Node m n) :
    (b.shiftAlongLoop tolerance c path).2.total x = b.total x := by
  have hd := leavingCell_mem h
  have hne : c ≠ d := fun heq => hc (heq ▸ mem_of_mem_donors hd)
  have hidle : ((alternate (b.flow d) path b).adjust c (· + b.flow d)).flow d = 0 := by
    rw [flow_adjust, if_neg hne, flow_alternate_of_mem_donors hn hd, sub_self]
  have hflow : ∀ e, (b.shiftAlongLoop tolerance c path).2.flow e =
      (((alternate (b.flow d) path b).adjust c (· + b.flow d)).adjust d fun _ => 0).flow e := by
    intro e
    simp only [shiftAlongLoop, h, flow_erase, flow_adjust, flow_insert]
  rw [total_congr hflow, total_adjust, hidle, total_adjust, total_alternate hroute,
    add_sub_cancel_left, sub_self, share_zero, add_zero]
  exact sub_add_cancel _ _

theorem flow_shiftAlongLoop_of_mem_donors (hn : path.Nodup) (hc : c ∉ path)
    (h : b.leavingCell tolerance path = some d) (he : e ∈ donors path) :
    (b.shiftAlongLoop tolerance c path).2.flow e = b.flow e - b.flow d := by
  rw [flow_shiftAlongLoop h]
  split
  · next hde => rw [hde, sub_self]
  · have hce : c ≠ e := fun heq => hc (heq ▸ mem_of_mem_donors he)
    rw [if_neg hce, flow_alternate_of_mem_donors hn he]

/-- Flows become negative as far as the leaving cell has more flow than a donor. -/
theorem flow_shiftAlongLoop_ge (h : b.leavingCell tolerance path = some d)
    (h0 : ∀ e, 0 ≤ b.flow e) (hn : path.Nodup) (hc : c ∉ path) (hm : 0 ≤ margin)
    (hd : ∀ e ∈ donors path, b.flow d ≤ b.flow e + margin) (e : Cell m n) :
    -margin ≤ (b.shiftAlongLoop tolerance c path).2.flow e := by
  by_cases he : e ∈ donors path
  · rw [flow_shiftAlongLoop_of_mem_donors hn hc h he]
    linarith [hd e he]
  · refine (neg_nonpos.mpr hm).trans ?_
    by_cases hec : e = c
    · rw [hec, flow_shiftAlongLoop_entering h hc]
      exact add_nonneg (h0 c) (h0 d)
    · have hde : d ≠ e := fun heq => he (heq ▸ leavingCell_mem h)
      rw [flow_shiftAlongLoop h, if_neg hde, if_neg (Ne.symm hec)]
      exact (h0 e).trans (le_flow_alternate (h0 d) he b)

theorem flow_shiftAlongLoop_nonneg (h : b.leavingCell 0 path = some d) (h0 : ∀ e, 0 ≤ b.flow e)
    (hn : path.Nodup) (hc : c ∉ path) (e : Cell m n) :
    0 ≤ (b.shiftAlongLoop 0 c path).2.flow e := by
  have hge := flow_shiftAlongLoop_ge h h0 hn hc (le_refl 0)
    (fun e he => (leavingCell_le h he).trans_eq (add_zero _).symm) e
  rwa [neg_zero] at hge

end Shift

theorem Ships.shiftAlongLoop (h : b.Ships net) (hc : b.isBasic c = false)
    (hpath : b.path? c = some path) : (b.shiftAlongLoop 0 c path).2.Ships net := by
  obtain ⟨hroute, hn, hp⟩ := path_route hpath
  have hmem : c ∉ path := notMem_path hp hc
  cases hd : b.leavingCell 0 path with
  | none =>
    simp only [Basis.shiftAlongLoop, hd]
    exact h
  | some d =>
    have hbasics := basics_shiftAlongLoop hc hp hd
    refine ⟨fun x => (total_shiftAlongLoop hroute hn hmem hd x).trans (h.total x),
      flow_shiftAlongLoop_nonneg hd h.nonneg hn hmem, ?_⟩
    intro e he
    have hnot := (notMem_basics _).mpr he
    rw [hbasics, Set.mem_insert_iff, not_or] at hnot
    by_cases hde : e = d
    · rw [hde, flow_shiftAlongLoop hd, if_pos rfl]
    · have hbasic : b.isBasic e = false := b.notMem_basics.mp fun hm => hnot.2 ⟨hm, hde⟩
      rw [flow_shiftAlongLoop_of_notMem hd hnot.1 (notMem_path hp hbasic)]
      exact h.idle e hbasic

end Basis

end LeastCost.Transport
