/-!
# Families

Finitely many values of one type, read like a function of their index and changed one at a
time.
-/

namespace LeastCost

structure Family (β : Type) (n : Nat) where
  entries : Vector β n
  deriving DecidableEq

namespace Family

variable {β γ : Type} {n : Nat}

def get (f : Family β n) (i : Fin n) : β := f.entries.get i

instance : CoeFun (Family β n) fun _ => Fin n → β := ⟨get⟩

def ofFn (g : Fin n → β) : Family β n := ⟨Vector.ofFn g⟩

def replicate (n : Nat) (x : β) : Family β n := ⟨Vector.replicate n x⟩

def set (f : Family β n) (i : Fin n) (x : β) : Family β n := ⟨f.entries.set i x i.isLt⟩

def push (f : Family β n) (x : β) : Family β (n + 1) := ⟨f.entries.push x⟩

def toList (f : Family β n) : List β := f.entries.toList

def countP (f : Family β n) (p : β → Bool) : Nat := f.entries.countP p

def all (f : Family β n) (p : β → Bool) : Bool := (List.finRange n).all fun i => p (f i)

theorem get_eq_getElem (f : Family β n) (i : Fin n) : f i = f.entries[i] := rfl

@[ext] theorem ext {f g : Family β n} (h : ∀ i, f i = g i) : f = g := by
  obtain ⟨xs⟩ := f
  obtain ⟨ys⟩ := g
  exact congrArg Family.mk (Vector.ext fun i hi => h ⟨i, hi⟩)

@[simp] theorem get_ofFn (g : Fin n → β) (i : Fin n) : ofFn g i = g i := by
  simp [get_eq_getElem, ofFn]

@[simp] theorem get_replicate (x : β) (i : Fin n) : replicate n x i = x := by
  simp [get_eq_getElem, replicate]

theorem get_set (f : Family β n) (i j : Fin n) (x : β) :
    f.set i x j = if i = j then x else f j := by
  simp [get_eq_getElem, set, Vector.getElem_set, Fin.ext_iff]

@[simp] theorem get_set_self (f : Family β n) (i : Fin n) (x : β) : f.set i x i = x := by
  simp [get_set]

theorem countP_set_lt {f : Family β n} {i : Fin n} {p : β → Bool} {x : β} (hi : p (f i) = true)
    (hx : p x = false) : (f.set i x).countP p < f.countP p := by
  have hentry : p f.entries[i.val] = true := hi
  have hpos : 0 < f.entries.countP p :=
    Vector.countP_pos_iff.2 ⟨_, Vector.getElem_mem i.isLt, hentry⟩
  rw [countP, set, Vector.countP_set, if_pos hentry, if_neg (by simp [hx])]
  exact Nat.sub_lt hpos Nat.one_pos

theorem set_true_iff (f : Family Bool n) (i j : Fin n) :
    f.set i true j = true ↔ j = i ∨ f j = true := by
  rw [get_set]
  split
  · next h => simp [h]
  · next h => simp [Ne.symm h]

theorem set_false_iff (f : Family Bool n) (i j : Fin n) :
    f.set i false j = true ↔ f j = true ∧ j ≠ i := by
  rw [get_set]
  split
  · next h => simp [h]
  · next h => simp [Ne.symm h]

@[simp] theorem get_push_castSucc (f : Family β n) (x : β) (i : Fin n) :
    f.push x i.castSucc = f i := by
  simp [get_eq_getElem, push]

@[simp] theorem get_push_last (f : Family β n) (x : β) : f.push x (Fin.last n) = x := by
  simp [get_eq_getElem, push]

@[simp] theorem all_iff {f : Family β n} {p : β → Bool} :
    f.all p = true ↔ ∀ i, p (f i) = true := by
  simp [all]

end Family

end LeastCost
