import LeastCost.Scalar.Basic

/-!
# Selection

Every choice of an engine is one scan from left to right that keeps a candidate until a later
one beats it, so among equally good candidates the first is chosen.
-/

namespace LeastCost.Selection

variable {ι α : Type}

/-- The candidate that is left after a scan in which each candidate that beats the current
choice replaces it. -/
def choose (beats : ι → ι → Bool) : List ι → Option ι
  | [] => none
  | first :: rest =>
    some (rest.foldl (fun best next => if beats next best then next else best) first)

/-- The first candidate of least cost. -/
def firstLeast [Scalar α] (cost : ι → α) (candidates : List ι) : Option ι :=
  choose (fun next best => decide (cost next < cost best)) candidates

@[simp] theorem choose_nil (beats : ι → ι → Bool) : choose beats [] = none := rfl

theorem choose_eq_none_iff {beats : ι → ι → Bool} {candidates : List ι} :
    choose beats candidates = none ↔ candidates = [] := by
  cases candidates <;> simp [choose]

theorem foldl_mem (beats : ι → ι → Bool) (first : ι) (rest : List ι) :
    rest.foldl (fun best next => if beats next best then next else best) first ∈
      first :: rest := by
  induction rest generalizing first with
  | nil => simp
  | cons next rest ih =>
    rw [List.foldl_cons]
    have h := ih (if beats next first then next else first)
    rcases List.mem_cons.1 h with h | h
    · rw [h]; split <;> simp
    · simp [h]

theorem mem_of_choose {beats : ι → ι → Bool} {candidates : List ι} {best : ι}
    (h : choose beats candidates = some best) : best ∈ candidates := by
  cases candidates with
  | nil => simp at h
  | cons first rest =>
    simp only [choose, Option.some.injEq] at h
    exact h ▸ foldl_mem beats first rest

end LeastCost.Selection
