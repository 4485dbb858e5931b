import LeastCost.Proofs.Exact
import LeastCost.Proofs.Transport.Forest
import LeastCost.Proofs.Transport.Searches
import LeastCost.Transport.Loop

/-! # Searched networks

The neighbours of a node are the nodes that basic cells join it to. So the prices found from the
first node are handed on by basic cells, and in a forest they are the prices of the nodes. The way
back from a node that was found is a path, and its cells are a route over different basic cells.
-/

namespace LeastCost.Transport

open Relation

variable {α : Type} {m n : Nat} {b : Basis α m n} {cells : Set (Cell m n)} {c d : Cell m n}
  {x y z : Node m n}

def Cell.Joins (c : Cell m n) (x y : Node m n) : Prop :=
  (x = .inl c.1 ∧ y = .inr c.2) ∨ (x = .inr c.2 ∧ y = .inl c.1)

section Neighbours

theorem cellGraph_adj_iff_joins : (cellGraph cells).Adj x y ↔ ∃ c ∈ cells, c.Joins x y :=
  cellGraph_adj_iff

theorem Cell.Joins.edge_eq (h : c.Joins x y) : c.edge = s(x, y) := by
  rcases h with ⟨rfl, rfl⟩ | ⟨rfl, rfl⟩
  · rfl
  · exact Sym2.eq_swap

theorem cellBetween?_eq_some_iff : cellBetween? x.number y.number = some c ↔ c.Joins x y := by
  obtain ⟨p, q⟩ := c
  rcases x with i | j <;> rcases y with i' | j'
  · simp [cellBetween?, Cell.Joins]
  · simp [cellBetween?, Cell.Joins]
  · simp [cellBetween?, Cell.Joins, and_comm]
  · simp [cellBetween?, Cell.Joins]

theorem across?_eq_some_iff : c.across? x.number = some y.number ↔ c.Joins x y := by
  have hl : x.number = sourceNode c.1 ↔ x = .inl c.1 := Node.number_injective.eq_iff' rfl
  have hr : x.number = destinationNode c.2 ↔ x = .inr c.2 := Node.number_injective.eq_iff' rfl
  have hl' : sourceNode c.1 = y.number ↔ y = .inl c.1 := by
    rw [eq_comm]
    exact Node.number_injective.eq_iff' rfl
  have hr' : destinationNode c.2 = y.number ↔ y = .inr c.2 := by
    rw [eq_comm]
    exact Node.number_injective.eq_iff' rfl
  unfold Cell.across? Cell.Joins
  split
  · next h => simp [hl.mp h, hr']
  · next h =>
    split
    · next h' => simp [hr.mp h', hl']
    · next h' => simp [mt hl.mpr h, mt hr.mpr h']

theorem mem_adjacency :
    y.number ∈ b.adjacency x.number ↔ (cellGraph b.basics).Adj x y := by
  rw [Basis.adjacency, Family.get_ofFn, List.mem_filterMap, cellGraph_adj_iff_joins]
  refine exists_congr fun c => ?_
  rw [Basis.mem_cells, across?_eq_some_iff]
  rfl

theorem reflTransGen_adjacency_iff :
    ReflTransGen (fun a a' => a' ∈ b.adjacency a) x.number y.number ↔
      (cellGraph b.basics).Reachable x y := by
  rw [SimpleGraph.reachable_iff_reflTransGen]
  constructor
  · intro h
    obtain ⟨a, ha⟩ : ∃ a, a = y.number := ⟨_, rfl⟩
    rw [← ha] at h
    induction h generalizing y with
    | refl => exact Node.number_injective ha ▸ .refl
    | @tail a' _ _ hmem ih =>
      obtain ⟨z, hz⟩ := Node.exists_number a'
      subst ha hz
      exact (ih rfl).tail (mem_adjacency.mp hmem)
  · intro h
    exact h.lift Node.number fun _ _ hadj => mem_adjacency.mpr hadj

end Neighbours

section SearchedPrices

variable [Scalar α] {net : Network α m n} {p : Potentials α m n}
  {prices : Family (Option α) (m + n)} {v : α}

theorem exists_prices_of_potentials (h : b.potentials? net = some p) :
    ∃ prices, b.prices? net = some prices ∧
      (∀ i, prices (sourceNode i) = some (p.row i)) ∧
      ∀ j, prices (destinationNode j) = some (p.column j) := by
  obtain ⟨prices, hprices, h⟩ := Option.bind_eq_some_iff.mp h
  refine ⟨prices, hprices, ?_⟩
  split at h
  · next hall =>
    rw [Family.all_iff] at hall
    obtain rfl := Option.some.inj h
    constructor
    · intro i
      obtain ⟨u, hu⟩ := Option.isSome_iff_exists.mp (hall (sourceNode i))
      simp [hu]
    · intro j
      obtain ⟨v, hv⟩ := Option.isSome_iff_exists.mp (hall (destinationNode j))
      simp [hv]
  · cases h

/-- What holds of the price zero and is handed on by basic cells holds of all prices found. -/
theorem prices_induction {motive : Node m n → α → Prop}
    (zero : ∀ x, x.number.val = 0 → motive x 0)
    (step : ∀ c x y v, b.isBasic c = true → c.Joins x y → motive x v →
      motive y (net.costs c.1 c.2 - v))
    (h : b.prices? net = some prices) (hv : prices x.number = some v) : motive x v := by
  revert x v
  unfold Basis.prices? at h
  split at h
  · next hnodes =>
    refine Search.run_induction (motive := fun prices => ∀ {x v}, prices (Node.number x) = some v →
      motive x v) ?_ ?_ h
    · intro prices a u a' hmem w hprices ha _ hw z v hz
      rcases Search.mark_set_cases hz with ⟨rfl, rfl⟩ | hz
      · obtain ⟨x, rfl⟩ := Node.exists_number a
        obtain ⟨c, hc, rfl⟩ := Option.map_eq_some_iff.mp hw
        have hj := cellBetween?_eq_some_iff.mp hc
        obtain ⟨d, hd, hd'⟩ := cellGraph_adj_iff_joins.mp (mem_adjacency.mp hmem)
        obtain rfl : d = c := Cell.edge_injective (hd'.edge_eq.trans hj.edge_eq.symm)
        exact step d x z u hd hj (hprices ha)
      · exact hprices hz
    · intro x v hx
      obtain ⟨hfirst, rfl⟩ := Search.eq_of_mark_start hx
      exact zero x (congrArg Fin.val hfirst)
  · cases h

end SearchedPrices

section Potentials

variable {net : Network Rat m n} {b : Basis Rat m n} {p : Potentials Rat m n}
  {price : Node m n → Rat}

theorem Prices.joins {costs : Cell m n → Rat} (h : Prices costs cells price) (hc : c ∈ cells)
    (hj : c.Joins x y) : price y = costs c - price x := by
  have hcost := h c hc
  rcases hj with ⟨rfl, rfl⟩ | ⟨rfl, rfl⟩
  · rw [← hcost]
    ring
  · rw [← hcost]
    ring

theorem Prices.exists_zero {costs : Cell m n → Rat} (h : Prices costs cells price) (i : Fin m) :
    ∃ price, Prices costs cells price ∧ price (.inl i) = 0 := by
  refine ⟨_, h.raise Set.univ (fun _ _ => Iff.rfl) (-price (.inl i)), ?_⟩
  rw [raised, if_pos (Set.mem_univ _), Sum.elim_inl]
  ring

theorem Prices.potentials_eq (h : Prices (fun c => net.costs c.1 c.2) b.basics price) (hm : 0 < m)
    (hzero : price (.inl ⟨0, hm⟩) = 0) (hp : b.potentials? net = some p) :
    (∀ i, p.row i = price (.inl i)) ∧ ∀ j, p.column j = price (.inr j) := by
  obtain ⟨prices, hprices, hrows, hcolumns⟩ := exists_prices_of_potentials hp
  have hfound : ∀ x v, prices (Node.number x) = some v → v = price x := by
    intro x v
    refine prices_induction (motive := fun x v => v = price x) ?_ ?_ hprices
    · intro x hx
      rw [← hzero, Node.number_injective (Fin.ext hx : x.number = Node.number (.inl ⟨0, hm⟩))]
    · rintro c x y _ hc hj rfl
      exact (h.joins hc hj).symm
  exact ⟨fun i => hfound (.inl i) _ (hrows i), fun j => hfound (.inr j) _ (hcolumns j)⟩

/-- Over a forest the potentials are prices of the nodes, zero at the first source. -/
theorem exists_prices_eq (hforest : (cellGraph b.basics).IsAcyclic) (hm : 0 < m)
    (hp : b.potentials? net = some p) :
    ∃ price, Prices (fun c => net.costs c.1 c.2) b.basics price ∧ price (.inl ⟨0, hm⟩) = 0 ∧
      (∀ i, p.row i = price (.inl i)) ∧ ∀ j, p.column j = price (.inr j) := by
  obtain ⟨price, hprice⟩ := Basis.exists_prices (fun c => net.costs c.1 c.2) hforest
  obtain ⟨price, hprice, hzero⟩ := hprice.exists_zero ⟨0, hm⟩
  exact ⟨price, hprice, hzero, hprice.potentials_eq hm hzero hp⟩

theorem potentials_prices (hforest : (cellGraph b.basics).IsAcyclic)
    (h : b.potentials? net = some p) (hc : b.isBasic c = true) :
    p.row c.1 + p.column c.2 = net.costs c.1 c.2 := by
  have hm : 0 < m := Nat.zero_lt_of_lt c.1.isLt
  obtain ⟨price, hprice, -, hrows, hcolumns⟩ := exists_prices_eq hforest hm h
  rw [hrows, hcolumns]
  exact hprice c hc

end Potentials

section Routes

variable {path : List (Cell m n)}

/-- Each cell of the path leads on from the node before it. -/
def Route : Node m n → Node m n → List (Cell m n) → Prop
  | x, y, [] => x = y
  | x, y, c :: path => ∃ z, c.Joins x z ∧ Route z y path

theorem exists_cells (w : (cellGraph cells).Walk x y) : ∃ path,
    ((w.support.map Node.number).zip (w.support.map Node.number).tail).mapM
      (fun (a, a') => cellBetween? a a') = some path ∧
    path.map Cell.edge = w.edges ∧ Route x y path ∧ ∀ d ∈ path, d ∈ cells := by
  induction w with
  | nil => exact ⟨[], rfl, rfl, rfl, by simp⟩
  | @cons x y z hadj w ih =>
    obtain ⟨path, hpath, hedges, hroute, hcells⟩ := ih
    obtain ⟨c, hc, hj⟩ := cellGraph_adj_iff_joins.mp hadj
    refine ⟨c :: path, ?_, ?_, ⟨y, hj, hroute⟩, List.forall_mem_cons.mpr ⟨hc, hcells⟩⟩
    · rw [← w.cons_tail_support] at hpath
      rw [SimpleGraph.Walk.support_cons, ← w.cons_tail_support]
      simp only [List.map_cons, List.tail_cons, List.zip_cons_cons, List.mapM_cons] at hpath ⊢
      rw [cellBetween?_eq_some_iff.mpr hj, hpath]
      rfl
    · rw [List.map_cons, hedges, hj.edge_eq, SimpleGraph.Walk.edges_cons]

theorem Search.LeadsBack.exists_walk
    {previous : Family (Option (Option (Fin (m + n)))) (m + n)} {a : Fin (m + n)}
    {way : List (Fin (m + n))} (h : Search.LeadsBack previous a way)
    (horigin : ∀ a from?, previous a = some from? →
      Search.Origin b.adjacency x.number a from?) (ha : y.number = a) :
    ∃ w : (cellGraph b.basics).Walk y x, w.support.map Node.number = way := by
  induction h generalizing y with
  | start h =>
    obtain rfl := Node.number_injective (ha.trans (horigin _ _ h))
    exact ⟨.nil, by simp [ha]⟩
  | @step a a' way h _ ih =>
    obtain ⟨z, hz⟩ := Node.exists_number a'
    obtain ⟨w, hw⟩ := ih hz
    have hadj : (cellGraph b.basics).Adj z y := by
      rw [← mem_adjacency, hz, ha]
      exact horigin a _ h
    exact ⟨.cons hadj.symm w, by simp [ha, hw]⟩

theorem exists_isPath_of_reached {previous : Family (Option (Option (Fin (m + n)))) (m + n)}
    (h : b.reachedFrom? c.1 c.2 = some previous)
    (htarget : (previous (destinationNode c.2)).isSome) :
    ∃ path, b.path? c = some path ∧
      ∃ w : (cellGraph b.basics).Walk (.inl c.1) (.inr c.2), w.IsPath ∧
        path.map Cell.edge = w.edges ∧ Route (.inl c.1) (.inr c.2) path ∧
        ∀ d ∈ path, b.isBasic d = true := by
  obtain ⟨hway, hnodup⟩ := Search.leadsBack_wayBack h htarget
  obtain ⟨w, hw⟩ := hway.exists_walk (x := .inl c.1) (y := .inr c.2)
    (fun _ _ => Search.origin_of_run h) rfl
  have hisPath : w.reverse.IsPath := by
    rw [SimpleGraph.Walk.isPath_reverse_iff, SimpleGraph.Walk.isPath_def]
    exact List.Nodup.of_map _ (hw ▸ hnodup)
  obtain ⟨path, hpath, hedges, hroute, hcells⟩ := exists_cells w.reverse
  refine ⟨path, ?_, w.reverse, hisPath, hedges, hroute, hcells⟩
  rw [SimpleGraph.Walk.support_reverse, List.map_reverse, hw] at hpath
  simp only [Basis.path?, h, Option.bind_eq_bind, Option.bind_some, if_pos htarget]
  exact hpath

theorem exists_isPath_of_path (h : b.path? c = some path) :
    ∃ w : (cellGraph b.basics).Walk (.inl c.1) (.inr c.2), w.IsPath ∧
      path.map Cell.edge = w.edges ∧ Route (.inl c.1) (.inr c.2) path ∧
      ∀ d ∈ path, b.isBasic d = true := by
  obtain ⟨previous, hprevious, hpath⟩ := Option.bind_eq_some_iff.mp h
  split at hpath
  · next htarget =>
    obtain ⟨path', hpath', hw⟩ := exists_isPath_of_reached hprevious htarget
    obtain rfl := Option.some.inj (h.symm.trans hpath')
    exact hw
  · cases hpath

/-- A loop is closed by different basic cells that lead from the source to the destination. -/
theorem path_route (h : b.path? c = some path) :
    Route (.inl c.1) (.inr c.2) path ∧ path.Nodup ∧ ∀ d ∈ path, b.isBasic d = true := by
  obtain ⟨w, hisPath, hedges, hroute, hbasic⟩ := exists_isPath_of_path h
  have hnodup : (path.map Cell.edge).Nodup := hedges ▸ hisPath.isTrail.edges_nodup
  exact ⟨hroute, hnodup.of_map, hbasic⟩

theorem notMem_path (hp : ∀ e ∈ path, b.isBasic e = true) (hc : b.isBasic c = false) :
    c ∉ path := by
  intro hm
  rw [hp c hm] at hc
  cases hc

end Routes

end LeastCost.Transport
