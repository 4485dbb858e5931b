import Mathlib.Data.Fintype.Card
import Mathlib.Logic.Relation
import LeastCost.Transport.Traversal

/-! # Searches

A node gets a mark once, from a neighbour that has one, so what is kept by each mark that is handed
on holds of all marks at the end. A node with a mark waits in the queue or has visited its
neighbours, so at the end the nodes have marks that neighbours lead to from the start. Where each
mark is the node it came from, the marks lead back to the start through different nodes.
-/

namespace LeastCost.Transport.Search

open Relation

variable {β : Type} {k : Nat} {neighbours : Fin k → List (Fin k)} {nodes : List (Fin k)}
  {give : Fin k → Option β} {mark : Fin k → β → Fin k → Option β} {isGoal : Fin k → Bool}
  {s s' t : Search β k} {marks : Family (Option β) k} {x y : Fin k}

section Marks

theorem mark_set_of_unmarked {v w : β} (hy : marks y = none) (hx : marks x = some v) :
    marks.set y (some w) x = some v := by
  have hne : y ≠ x := by
    rintro rfl
    rw [hy] at hx
    cases hx
  rw [Family.get_set, if_neg hne, hx]

theorem mark_set_cases {v w : β} (h : marks.set y (some w) x = some v) :
    (x = y ∧ v = w) ∨ marks x = some v := by
  rw [Family.get_set] at h
  split at h
  · next he => exact Or.inl ⟨he.symm, (Option.some.inj h).symm⟩
  · exact Or.inr h

@[simp] theorem mark_start (x : Fin k) (v : β) : (start x v).marks x = some v := by
  simp [start]

theorem eq_of_mark_start {v w : β} (h : (start x v).marks y = some w) : y = x ∧ w = v := by
  rcases mark_set_cases h with he | hnone
  · exact he
  · simp at hnone

end Marks

section Visits

theorem visit_cases (h : s.visit give y = some s') : ((s.marks y).isSome ∧ s' = s) ∨
    ∃ v, s.marks y = none ∧ give y = some v ∧
      s' = { marks := s.marks.set y (some v), queue := s.queue ++ [y] } := by
  unfold visit at h
  split at h
  · next hy => exact Or.inl ⟨hy, (Option.some.inj h).symm⟩
  · next hy =>
    obtain ⟨v, hv, rfl⟩ := Option.map_eq_some_iff.mp h
    exact Or.inr ⟨v, Option.not_isSome_iff_eq_none.mp hy, hv, rfl⟩

/-- A search goes on without losing a mark or a node that waits, and the nodes that are new have
marks and wait. -/
structure Grows (s s' : Search β k) : Prop where
  kept : ∀ x v, s.marks x = some v → s'.marks x = some v
  waiting : s.queue ⊆ s'.queue
  marked : ∀ x ∈ s'.queue, x ∈ s.queue ∨ (s'.marks x).isSome
  fresh : ∀ x, (s'.marks x).isSome → (s.marks x).isSome ∨ x ∈ s'.queue

theorem Grows.isSome (h : s.Grows s') (hx : (s.marks x).isSome) : (s'.marks x).isSome := by
  obtain ⟨v, hv⟩ := Option.isSome_iff_exists.mp hx
  exact Option.isSome_of_eq_some (h.kept x v hv)

theorem Grows.refl (s : Search β k) : s.Grows s :=
  ⟨fun _ _ h => h, fun _ h => h, fun _ h => Or.inl h, fun _ h => Or.inl h⟩

theorem Grows.trans (h : s.Grows s') (h' : s'.Grows t) : s.Grows t where
  kept x v hv := h'.kept x v (h.kept x v hv)
  waiting x hx := h'.waiting (h.waiting hx)
  marked x hx := by
    rcases h'.marked x hx with hx | hx
    · exact (h.marked x hx).imp_right h'.isSome
    · exact Or.inr hx
  fresh x hx := by
    rcases h'.fresh x hx with hx | hx
    · exact (h.fresh x hx).imp_right fun hx => h'.waiting hx
    · exact Or.inr hx

theorem visit_grows (h : s.visit give y = some s') : s.Grows s' ∧ (s'.marks y).isSome := by
  rcases visit_cases h with ⟨hy, rfl⟩ | ⟨v, hy, -, rfl⟩
  · exact ⟨.refl _, hy⟩
  · refine ⟨⟨?_, ?_, ?_, ?_⟩, by simp⟩
    · intro x w hx
      exact mark_set_of_unmarked hy hx
    · exact List.subset_append_left ..
    · intro x hx
      rcases List.mem_append.mp hx with hx | hx
      · exact Or.inl hx
      · obtain rfl := List.mem_singleton.mp hx
        exact Or.inr (by simp)
    · intro x hx
      by_cases hxy : y = x
      · exact Or.inr (by simp [hxy])
      · rw [Family.get_set, if_neg hxy] at hx
        exact Or.inl hx

theorem foldlM_visit_grows (h : nodes.foldlM (visit give) s = some s') :
    s.Grows s' ∧ ∀ y ∈ nodes, (s'.marks y).isSome := by
  induction nodes generalizing s with
  | nil =>
    obtain rfl : s = s' := Option.some.inj h
    exact ⟨.refl s, by simp⟩
  | cons y nodes ih =>
    rw [List.foldlM_cons] at h
    obtain ⟨t, ht, h⟩ := Option.bind_eq_some_iff.mp h
    obtain ⟨hgrows, hy⟩ := visit_grows ht
    obtain ⟨hgrows', hnodes⟩ := ih h
    refine ⟨hgrows.trans hgrows', ?_⟩
    rintro z (_ | ⟨_, hz⟩)
    · exact hgrows'.isSome hy
    · exact hnodes z hz

theorem foldlM_visit_induction {motive : Family (Option β) k → Prop} {v : β}
    (visit : ∀ marks, ∀ y ∈ nodes, ∀ w, motive marks → marks x = some v → marks y = none →
      mark x v y = some w → motive (marks.set y (some w)))
    (h : nodes.foldlM (Search.visit (mark x v)) s = some s') (hx : s.marks x = some v)
    (hs : motive s.marks) : motive s'.marks := by
  induction nodes generalizing s with
  | nil =>
    obtain rfl : s = s' := Option.some.inj h
    exact hs
  | cons y nodes ih =>
    rw [List.foldlM_cons] at h
    obtain ⟨t, ht, h⟩ := Option.bind_eq_some_iff.mp h
    refine ih (fun marks y hy => visit marks y (List.mem_cons_of_mem _ hy)) h
      ((visit_grows ht).1.kept x v hx) ?_
    rcases visit_cases ht with ⟨-, rfl⟩ | ⟨w, hy, hw, rfl⟩
    · exact hs
    · exact visit s.marks y List.mem_cons_self w hs hx hy hw

end Visits

section Runs

/-- What every mark that is handed on keeps holds of the marks at the end. -/
theorem run_induction {motive : Family (Option β) k → Prop}
    (visit : ∀ marks x v, ∀ y ∈ neighbours x, ∀ w, motive marks → marks x = some v →
      marks y = none → mark x v y = some w → motive (marks.set y (some w)))
    (hs : motive s.marks) (h : s.run neighbours mark isGoal = some marks) : motive marks := by
  fun_induction run neighbours mark isGoal s with
  | case1 s hqueue =>
    obtain rfl := Option.some.inj h
    exact hs
  | case2 s node rest hqueue hgoal =>
    obtain rfl := Option.some.inj h
    exact hs
  | case3 => cases h
  | case4 => cases h
  | case5 s node rest hqueue hgoal v hv s' hvisit hlt ih =>
    exact ih (foldlM_visit_induction (fun marks => visit marks node v) hvisit hv hs) h

theorem isSome_mark_of_run (h : s.run neighbours mark isGoal = some marks)
    (hx : (s.marks x).isSome) : (marks x).isSome := by
  refine run_induction (motive := fun marks => (marks x).isSome) ?_ hx h
  intro marks _ _ y _ w hx _ hy _
  obtain ⟨v, hv⟩ := Option.isSome_iff_exists.mp hx
  exact Option.isSome_of_eq_some (mark_set_of_unmarked hy hv)

/-- The nodes that wait have marks, and the nodes with marks wait or have visited their
neighbours. -/
structure Queued (neighbours : Fin k → List (Fin k)) (s : Search β k) : Prop where
  marked : ∀ x ∈ s.queue, (s.marks x).isSome
  visited : ∀ x, (s.marks x).isSome → x ∈ s.queue ∨ ∀ y ∈ neighbours x, (s.marks y).isSome

theorem queued_start (neighbours : Fin k → List (Fin k)) (x : Fin k) (v : β) :
    (start x v).Queued neighbours where
  marked y hy := by
    obtain rfl := List.mem_singleton.mp hy
    simp
  visited y hy := by
    obtain ⟨w, hw⟩ := Option.isSome_iff_exists.mp hy
    obtain ⟨rfl, -⟩ := eq_of_mark_start hw
    exact Or.inl (List.mem_singleton_self y)

theorem Queued.step (h : s.Queued neighbours) {rest : List (Fin k)} (hqueue : s.queue = x :: rest)
    (hvisit : (neighbours x).foldlM (visit give) { s with queue := rest } = some s') :
    s'.Queued neighbours := by
  obtain ⟨hgrows, hneighbours⟩ := foldlM_visit_grows hvisit
  constructor
  · intro y hy
    rcases hgrows.marked y hy with hy | hy
    · exact hgrows.isSome (h.marked y (hqueue ▸ List.mem_cons_of_mem x hy))
    · exact hy
  · intro y hy
    rcases hgrows.fresh y hy with hy | hy
    · rcases h.visited y hy with hy | hy
      · rcases List.mem_cons.mp (hqueue ▸ hy) with rfl | hy
        · exact Or.inr hneighbours
        · exact Or.inl (hgrows.waiting hy)
      · exact Or.inr fun z hz => hgrows.isSome (hy z hz)
    · exact Or.inl hy

/-- At the end a goal has a mark, or the neighbours of all nodes with marks do. -/
theorem Queued.run (hs : s.Queued neighbours) (h : s.run neighbours mark isGoal = some marks) :
    (∃ x, isGoal x = true ∧ (marks x).isSome) ∨
      ∀ x, (marks x).isSome → ∀ y ∈ neighbours x, (marks y).isSome := by
  fun_induction Search.run neighbours mark isGoal s with
  | case1 s hqueue =>
    obtain rfl := Option.some.inj h
    refine Or.inr fun x hx => (hs.visited x hx).resolve_left ?_
    simp [hqueue]
  | case2 s node rest hqueue hgoal =>
    obtain rfl := Option.some.inj h
    exact Or.inl ⟨node, hgoal, hs.marked node (by simp [hqueue])⟩
  | case3 => cases h
  | case4 => cases h
  | case5 s node rest hqueue hgoal v hv s' hvisit hlt ih =>
    exact ih (hs.step hqueue hvisit) h

theorem isSome_visit (h : (give y).isSome) : (s.visit give y).isSome := by
  unfold visit
  split
  · rfl
  · rwa [Option.isSome_map]

theorem isSome_foldlM_visit (h : ∀ y ∈ nodes, (give y).isSome) :
    (nodes.foldlM (visit give) s).isSome := by
  induction nodes generalizing s with
  | nil => rfl
  | cons y nodes ih =>
    obtain ⟨s', hs'⟩ := Option.isSome_iff_exists.mp
      (isSome_visit (s := s) (h y List.mem_cons_self))
    rw [List.foldlM_cons, hs']
    exact ih fun z hz => h z (List.mem_cons_of_mem y hz)

theorem Queued.isSome_run (hs : s.Queued neighbours)
    (hmark : ∀ x v, ∀ y ∈ neighbours x, (mark x v y).isSome) :
    (s.run neighbours mark isGoal).isSome := by
  fun_induction Search.run neighbours mark isGoal s with
  | case1 => rfl
  | case2 => rfl
  | case3 s node rest hqueue hgoal hv =>
    have hnode := hs.marked node (by simp [hqueue])
    rw [hv] at hnode
    cases hnode
  | case4 s node rest hqueue hgoal v hv hvisit =>
    have hsome := isSome_foldlM_visit (s := { s with queue := rest }) (hmark node v)
    rw [hvisit] at hsome
    cases hsome
  | case5 s node rest hqueue hgoal v hv s' hvisit hlt ih => exact ih (hs.step hqueue hvisit)

theorem isSome_mark_iff {v : β} (h : (start x v).run neighbours mark isGoal = some marks)
    (hy : ∀ z, isGoal z = true → z = y) :
    (marks y).isSome ↔ ReflTransGen (fun a b => b ∈ neighbours a) x y := by
  constructor
  · rw [Option.isSome_iff_exists]
    rintro ⟨u, hu⟩
    refine run_induction (motive := fun marks => ∀ y u, marks y = some u →
      ReflTransGen (fun a b => b ∈ neighbours a) x y) ?_ ?_ h y u hu
    · intro marks a u b hb w hmarks ha _ _ z t hz
      rcases mark_set_cases hz with ⟨rfl, -⟩ | hz
      · exact (hmarks a u ha).tail hb
      · exact hmarks z t hz
    · intro z t hz
      obtain ⟨rfl, -⟩ := eq_of_mark_start hz
      exact .refl
  · intro hreach
    rcases (queued_start neighbours x v).run h with ⟨z, hz, hmark⟩ | hclosed
    · exact hy z hz ▸ hmark
    · clear hy
      induction hreach with
      | refl => exact isSome_mark_of_run h (by simp)
      | tail _ hb ih => exact hclosed _ ih _ hb

end Runs

section WaysBack

variable {previous : Family (Option (Option (Fin k))) k} {way : List (Fin k)}

/-- The way leads back to a node that came from no other, and each node on it came from the
next. -/
inductive LeadsBack (previous : Family (Option (Option (Fin k))) k) :
    Fin k → List (Fin k) → Prop where
  | start {x : Fin k} (h : previous x = some none) : LeadsBack previous x [x]
  | step {x y : Fin k} {way : List (Fin k)} (h : previous x = some (some y))
      (hway : LeadsBack previous y way) : LeadsBack previous x (x :: way)

theorem LeadsBack.isSome (h : LeadsBack previous x way) : ∀ y ∈ way, (previous y).isSome := by
  induction h with
  | start h =>
    intro y hy
    obtain rfl := List.mem_singleton.mp hy
    exact Option.isSome_of_eq_some h
  | step h _ ih =>
    rintro y (_ | ⟨_, hy⟩)
    · exact Option.isSome_of_eq_some h
    · exact ih y hy

theorem LeadsBack.set (h : LeadsBack previous x way) (hy : previous y = none)
    (from? : Option (Fin k)) : LeadsBack (previous.set y (some from?)) x way := by
  induction h with
  | start h => exact .start (mark_set_of_unmarked hy h)
  | step h _ ih => exact .step (mark_set_of_unmarked hy h) ih

theorem LeadsBack.wayBack_eq (h : LeadsBack previous x way) {budget : Nat}
    (hle : way.length ≤ budget + 1) : wayBack previous budget x = way := by
  induction h generalizing budget with
  | start h =>
    unfold wayBack
    simp [h]
  | step h hway ih =>
    cases budget with
    | zero =>
      have hlt := Nat.le_of_succ_le_succ hle
      cases hway <;> simp at hlt
    | succ budget =>
      unfold wayBack
      simp only [h]
      rw [ih (Nat.le_of_succ_le_succ hle)]

def Origin (neighbours : Fin k → List (Fin k)) (x y : Fin k) : Option (Fin k) → Prop
  | none => y = x
  | some a => y ∈ neighbours a

theorem origin_of_run
    (h : (start x none).run neighbours (fun a _ _ => some (some a)) isGoal = some previous)
    {from? : Option (Fin k)} (hy : previous y = some from?) : Origin neighbours x y from? := by
  refine run_induction (motive := fun previous => ∀ y from?, previous y = some from? →
    Origin neighbours x y from?) ?_ ?_ h y from? hy
  · rintro previous a v b hb w hprevious - - ⟨⟩ c from? hc
    rcases mark_set_cases hc with ⟨rfl, rfl⟩ | hc
    · exact hb
    · exact hprevious c from? hc
  · intro y from? hy
    obtain ⟨rfl, rfl⟩ := eq_of_mark_start hy
    exact rfl

/-- The way back from a node with a mark ends where the search began and has no node twice. -/
theorem leadsBack_wayBack
    (h : (start x none).run neighbours (fun a _ _ => some (some a)) isGoal = some previous)
    (hy : (previous y).isSome) :
    LeadsBack previous y (wayBack previous k y) ∧ (wayBack previous k y).Nodup := by
  obtain ⟨from?, hfrom⟩ := Option.isSome_iff_exists.mp hy
  obtain ⟨way, hway, hnodup⟩ : ∃ way, LeadsBack previous y way ∧ way.Nodup := by
    refine run_induction (motive := fun previous => ∀ y from?, previous y = some from? →
      ∃ way, LeadsBack previous y way ∧ way.Nodup) ?_ ?_ h y from? hfrom
    · rintro previous a v b - w hprevious ha hb ⟨⟩ c from? hc
      rcases mark_set_cases hc with ⟨rfl, rfl⟩ | hc
      · -- Every node of the way back from `a` has a mark already, but this one had none.
        obtain ⟨way, hway, hnodup⟩ := hprevious a v ha
        refine ⟨c :: way, .step (by simp) (hway.set hb _), List.nodup_cons.mpr ⟨?_, hnodup⟩⟩
        intro hmem
        have hsome := hway.isSome c hmem
        rw [hb] at hsome
        cases hsome
      · obtain ⟨way, hway, hnodup⟩ := hprevious c from? hc
        exact ⟨way, hway.set hb _, hnodup⟩
    · intro y from? hy
      obtain ⟨rfl, rfl⟩ := eq_of_mark_start hy
      exact ⟨[y], .start hy, List.nodup_singleton y⟩
  have hle : way.length ≤ k := by
    simpa using hnodup.length_le_card
  rw [hway.wayBack_eq (Nat.le_succ_of_le hle)]
  exact ⟨hway, hnodup⟩

end WaysBack

end LeastCost.Transport.Search
