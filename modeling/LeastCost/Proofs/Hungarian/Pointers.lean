import LeastCost.Proofs.Hungarian.Termination

/-! # Paths by pointers

A tree need not keep whole paths. A pointer from each column to the tree column whose row made its
offer says the same, and the matching can be moved in place on the way from the free column back
to the root. Columns in the tree keep their pointers, so the way back is the path of the tree.
-/

namespace LeastCost.Hungarian

variable {α : Type} {n : Nat} {root row : Fin n} {rowOf : Family (Option (Fin n)) n}
  {pointer pointer' : Fin n → Option (Fin n)} {column : Fin n} {path : List (Fin n)}
  {t : Tree α n} {steps : Nat}

/-- The column behind a column on its way to the root, or none where this is the root itself. A
column without offer points to the root. -/
def Tree.previous (t : Tree α n) (j : Fin n) : Option (Fin n) :=
  (t.offers j).bind fun o => o.path.head?

/-- The columns that are met from a place until the root, if the steps suffice. -/
def walk (pointer : Fin n → Option (Fin n)) : Nat → Option (Fin n) → Option (List (Fin n))
  | _, none => some []
  | 0, some _ => none
  | steps + 1, some column => (walk pointer steps (pointer column)).map (column :: ·)

/-- Gives each column on the way the row of the one behind it, which still has its old row by then.
The root has the new row. -/
def flipAlong (row : Fin n) (pointer : Fin n → Option (Fin n)) :
    Nat → Option (Fin n) → Family (Option (Fin n)) n → Option (Family (Option (Fin n)) n)
  | _, none, rowOf => some rowOf
  | 0, some _, _ => none
  | steps + 1, some column, rowOf =>
    flipAlong row pointer steps (pointer column)
      (rowOf.set column ((pointer column).elim (some row) rowOf.get))

/-- Each column points to the next one of the path, and the last one to the root. -/
def Follows (pointer : Fin n → Option (Fin n)) : List (Fin n) → Prop
  | [] => True
  | column :: path => pointer column = path.head? ∧ Follows pointer path

theorem Follows.congr (h : ∀ j ∈ path, pointer' j = pointer j)
    (hf : Follows pointer path) : Follows pointer' path := by
  induction path with
  | nil => trivial
  | cons column path ih =>
    obtain ⟨hcolumn, hpath⟩ := List.forall_mem_cons.mp h
    exact ⟨hcolumn.trans hf.1, ih hpath hf.2⟩

theorem Follows.walk_eq (h : Follows pointer path) (hsteps : path.length ≤ steps) :
    walk pointer steps path.head? = some path := by
  induction path generalizing steps with
  | nil => cases steps <;> rfl
  | cons column path ih =>
    obtain ⟨steps, rfl⟩ := Nat.exists_eq_add_of_le' (Nat.one_le_of_lt hsteps)
    rw [List.head?_cons, walk, h.1, ih h.2 (Nat.le_of_succ_le_succ hsteps)]
    rfl

theorem Follows.flipAlong_eq (h : Follows pointer path) (hsteps : path.length ≤ steps) :
    flipAlong row pointer steps path.head? rowOf = some (rematch row path rowOf) := by
  induction path generalizing steps rowOf with
  | nil => cases steps <;> rfl
  | cons column path ih =>
    obtain ⟨steps, rfl⟩ := Nat.exists_eq_add_of_le' (Nat.one_le_of_lt hsteps)
    rw [List.head?_cons, flipAlong, h.1, ih h.2 (Nat.le_of_succ_le_succ hsteps)]
    cases path <;> rfl

namespace Tree

structure Linked (t : Tree α n) : Prop where
  path : Follows t.previous t.path
  offer : ∀ {j o}, t.columns j = false → t.offers j = some o → Follows t.previous o.path

theorem linked_root (labels : Labels α n) (row : Fin n) : (Tree.root labels row).Linked := by
  refine ⟨trivial, fun {j o} _ ho => ?_⟩
  simp [Tree.root] at ho

section Pass

variable [Scalar α] {costs : Grid α n n} {tolerance amount : α}

theorem previous_spread {j : Fin n} (hj : t.columns j = true) :
    (t.spread costs).previous j = t.previous j := by
  simp [previous, spread, hj]

theorem Holds.follows_spread (h : t.Holds path) (hf : Follows t.previous path) :
    Follows (t.spread costs).previous path :=
  hf.congr fun j hj => previous_spread (h.2 j hj)

theorem Linked.spread (h : t.Linked) (ht : t.Shaped root rowOf) (costs : Grid α n n) :
    (t.spread costs).Linked := by
  refine ⟨ht.holds_path.follows_spread h.path, fun {j o} hj ho => ?_⟩
  rw [spread_offers (t := t) hj] at ho
  rcases offerTo_eq_some ho with rfl | ho
  · exact ht.holds_path.follows_spread h.path
  · exact (ht.holds_offer hj ho).follows_spread (h.offer hj ho)

theorem previous_shift (t : Tree α n) (tolerance amount : α) :
    (t.shift tolerance amount).previous = t.previous := by
  funext j
  simp only [previous, shift, Family.get_ofFn]
  split
  · rfl
  · cases t.offers j <;> rfl

theorem Linked.shift (h : t.Linked) (tolerance amount : α) :
    (t.shift tolerance amount).Linked := by
  have hsame := previous_shift t tolerance amount
  refine ⟨hsame ▸ h.path, fun {j o} hj ho => ?_⟩
  obtain ⟨o', ho', -, hpath⟩ := of_shift_offers (t := t) hj ho
  rw [hsame, hpath]
  exact h.offer hj ho'

end Pass

theorem Linked.cons {o : Offer α n} (h : t.Linked) (hj : t.columns column = false)
    (ho : t.offers column = some o) : Follows t.previous (column :: o.path) :=
  ⟨by rw [previous, ho]; rfl, h.offer hj ho⟩

theorem Linked.enter {o : Offer α n} (h : t.Linked) (hj : t.columns column = false)
    (ho : t.offers column = some o) (row : Fin n) : (t.enter column o.path row).Linked :=
  ⟨h.cons hj ho, fun hj' ho' => h.offer (enter_columns_eq_false.mp hj').2 ho'⟩

end Tree

section Passes

variable [Scalar α] {costs : Grid α n n} {tolerance : α} {passes : Nat}

/-- The path that a tree ends with is the one that its last pointers tell. -/
theorem grow_follows {t' : Tree α n} (h : t.Shaped root rowOf) (hl : t.Linked)
    (hgrow : grow tolerance costs rowOf passes t = .ok (t', path)) :
    Follows t'.previous path := by
  induction passes generalizing t with
  | zero => cases hgrow
  | succ passes ih =>
    simp only [grow] at hgrow
    split at hgrow
    · cases hgrow
    · next column o hn =>
      obtain ⟨hj, ho⟩ := Tree.nearest_outside hn
      have hspread := h.spread costs
      have hshift := hspread.shift tolerance o.slack
      have hlinked := (hl.spread h costs).shift tolerance o.slack
      have hoffer : ((t.spread costs).shift tolerance o.slack).offers column =
          some { o with slack := o.slack - o.slack } := by
        rw [Tree.shift_offers hj, ho]
        rfl
      split at hgrow
      · split at hgrow
        · obtain ⟨rfl, rfl⟩ := Prod.mk.inj (Except.ok.inj hgrow)
          have hpath := hlinked.cons hj hoffer
          exact hpath
        · next row hrow =>
          have hlinked' := hlinked.enter hj hoffer row
          exact ih (hshift.enter hj (hspread.holds_offer hj ho) hrow) hlinked' hgrow
      · cases hgrow

/-- The walk along the pointers of the tree of a row visits the columns of the path and no other,
and ends within one step more than there are rows before. Moved in place on the way, the matching
becomes the one with the new row. -/
theorem Matching.Covers.insertRow_flipAlong {s s' : Matching α n} (h : s.Covers row.val)
    (hinsert : s.insertRow tolerance costs row = .ok s') :
    ∃ t column path, grow tolerance costs s.rowOf n (Tree.root s.labels row) =
        .ok (t, column :: path) ∧
      (column :: path).Nodup ∧ ∀ steps, row.val < steps →
        walk t.previous steps (some column) = some (column :: path) ∧
        flipAlong row t.previous steps (some column) s.rowOf = some s'.rowOf := by
  rcases h.grow_ends tolerance costs row.isLt with
    he | ⟨t, column, path, he, -, hnodup, -, hlength⟩
  · rw [Matching.insertRow, he] at hinsert
    cases hinsert
  · have hfollows := grow_follows (Tree.root_shaped s.labels row s.rowOf)
      (Tree.linked_root s.labels row) he
    rw [Matching.insertRow, he] at hinsert
    obtain rfl := Except.ok.inj hinsert
    refine ⟨t, column, path, he, hnodup, fun steps hsteps => ?_⟩
    have hlong : (column :: path).length ≤ steps :=
      (Nat.succ_le_succ (hlength.trans h.matchedCount_le)).trans hsteps
    exact ⟨hfollows.walk_eq hlong, hfollows.flipAlong_eq hlong⟩

end Passes

end LeastCost.Hungarian
