import Mathlib.Algebra.Group.Nat.Even
import LeastCost.Proofs.Transport.Shift

/-! # Paths and prices of a tree

The cells of a route from a source to a destination share columns and rows by turns. In a tree the
route over different cells is a path, of which there is only one, and so there are only one loop
that a cell closes and only one price for each node once the first has none. These are what is
found by searching the tree.
-/

namespace LeastCost.Transport

variable {α : Type} {m n : Nat} {b : Basis α m n} {cells : Set (Cell m n)} {c d : Cell m n}
  {path other : List (Cell m n)} {i : Fin m} {j : Fin n} {x y : Node m n}

section Turns

/-- An odd number of cells from a row to a column, each of which shares its column and its row with
the next one by turns. -/
structure Turns (i : Fin m) (j : Fin n) (path : List (Cell m n)) : Prop where
  odd : Odd path.length
  first : ∀ d ∈ path.head?, d.1 = i
  last : ∀ d ∈ path.getLast?, d.2 = j
  column : ∀ k, Even k → ∀ d ∈ path[k]?, ∀ e ∈ path[k + 1]?, d.2 = e.2
  row : ∀ k, Odd k → ∀ d ∈ path[k]?, ∀ e ∈ path[k + 1]?, d.1 = e.1

theorem turns_singleton_iff : Turns i j [d] ↔ d.1 = i ∧ d.2 = j := by
  constructor
  · intro h
    exact ⟨h.first d rfl, h.last d rfl⟩
  · rintro ⟨hi, hj⟩
    constructor <;> simp [hi, hj]

theorem turns_cons_cons_iff {e : Cell m n} {rest : List (Cell m n)} :
    Turns i j (d :: e :: rest) ↔ d.1 = i ∧ d.2 = e.2 ∧ Turns e.1 j rest := by
  have hodd : Odd (d :: e :: rest).length ↔ Odd rest.length := by
    rw [List.length_cons, List.length_cons, Nat.odd_add_one, Nat.odd_add_one, not_not]
  have hlast : Odd rest.length → (d :: e :: rest).getLast? = rest.getLast? := by
    intro h
    cases rest with
    | nil => simp at h
    | cons f rest => rfl
  constructor
  · intro h
    have hrest := hodd.mp h.odd
    refine ⟨h.first d rfl, h.column 0 Even.zero d rfl e rfl, hrest, ?_, ?_, ?_, ?_⟩
    · intro f hf
      rw [List.head?_eq_getElem?] at hf
      exact (h.row 1 odd_one e rfl f hf).symm
    · intro f hf
      exact h.last f (hlast hrest ▸ hf)
    · intro k hk
      exact h.column (k + 2) (hk.add even_two)
    · intro k hk
      exact h.row (k + 2) (hk.add_even even_two)
  · rintro ⟨hi, hshared, h⟩
    refine ⟨hodd.mpr h.odd, ?_, ?_, ?_, ?_⟩
    · rintro f ⟨⟩
      exact hi
    · rw [hlast h.odd]
      exact h.last
    · rintro (_ | _ | k) hk f hf g hg
      · obtain rfl := Option.some.inj hf
        obtain rfl := Option.some.inj hg
        exact hshared
      · simp at hk
      · exact h.column k (by simpa [Nat.even_add_one] using hk) f hf g hg
    · rintro (_ | _ | k) hk f hf g hg
      · simp at hk
      · obtain rfl := Option.some.inj hf
        exact (h.first g (List.head?_eq_getElem? ▸ hg)).symm
      · exact h.row k (by simpa [Nat.odd_add_one] using hk) f hf g hg

theorem route_iff_turns : Route (.inl i) (.inr j) path ↔ Turns i j path := by
  induction path using donors.induct generalizing i with
  | case1 =>
    constructor
    · intro h
      exact absurd rfl h.ne_nil
    · intro h
      simpa using h.odd
  | case2 d =>
    rw [turns_singleton_iff]
    constructor
    · rintro ⟨y, hd, rfl⟩
      obtain ⟨hi, hj⟩ := Cell.joins_inl_iff.mp hd
      exact ⟨hi, (Sum.inr.inj hj).symm⟩
    · rintro ⟨rfl, rfl⟩
      exact ⟨_, Cell.joins_inl_iff.mpr ⟨rfl, rfl⟩, rfl⟩
  | case3 d e rest ih =>
    rw [turns_cons_cons_iff, ← ih]
    constructor
    · rintro ⟨y, hd, z, he, h⟩
      obtain ⟨hi, rfl⟩ := Cell.joins_inl_iff.mp hd
      obtain ⟨hshared, rfl⟩ := Cell.joins_inr_iff.mp he
      exact ⟨hi, hshared.symm, h⟩
    · rintro ⟨hi, hshared, h⟩
      exact ⟨.inr d.2, Cell.joins_inl_iff.mpr ⟨hi, rfl⟩, .inl e.1,
        Cell.joins_inr_iff.mpr ⟨hshared.symm, rfl⟩, h⟩

end Turns

section UniqueRoutes

theorem Route.exists_walk (h : Route x y path) (hp : ∀ d ∈ path, d ∈ cells) :
    ∃ w : (cellGraph cells).Walk x y, w.edges = path.map Cell.edge := by
  induction path generalizing x with
  | nil =>
    obtain rfl : x = y := h
    exact ⟨.nil, rfl⟩
  | cons c path ih =>
    obtain ⟨z, hc, h⟩ := h
    obtain ⟨w, hw⟩ := ih h fun d hd => hp d (List.mem_cons_of_mem c hd)
    have hadj : (cellGraph cells).Adj x z :=
      cellGraph_adj_iff_joins.mpr ⟨c, hp c List.mem_cons_self, hc⟩
    exact ⟨.cons hadj w, by rw [SimpleGraph.Walk.edges_cons, hw, List.map_cons, hc.edge_eq]⟩

/-- In a forest a route over different cells visits no node twice. -/
theorem Route.exists_isPath (h : Route x y path) (hforest : (cellGraph cells).IsAcyclic)
    (hn : path.Nodup) (hp : ∀ d ∈ path, d ∈ cells) :
    ∃ w : (cellGraph cells).Walk x y, w.IsPath ∧ w.edges = path.map Cell.edge := by
  obtain ⟨w, hw⟩ := h.exists_walk hp
  refine ⟨w, (hforest.isPath_iff_isTrail w).mpr ⟨?_⟩, hw⟩
  rw [hw]
  exact hn.map Cell.edge_injective

theorem Route.unique (h : Route x y path) (h' : Route x y other)
    (hforest : (cellGraph cells).IsAcyclic) (hn : path.Nodup) (hn' : other.Nodup)
    (hp : ∀ d ∈ path, d ∈ cells) (hp' : ∀ d ∈ other, d ∈ cells) : path = other := by
  obtain ⟨w, hw, hedges⟩ := h.exists_isPath hforest hn hp
  obtain ⟨w', hw', hedges'⟩ := h'.exists_isPath hforest hn' hp'
  have heq : w = w' :=
    congrArg Subtype.val ((hforest.subsingleton_path x y).elim ⟨w, hw⟩ ⟨w', hw'⟩)
  apply List.map_injective_iff.mpr Cell.edge_injective
  rw [← hedges, ← hedges', heq]

end UniqueRoutes

namespace Basis

structure ClosesLoop (b : Basis α m n) (c : Cell m n) (path : List (Cell m n)) : Prop extends
    Turns c.1 c.2 path where
  nodup : path.Nodup
  basic : ∀ d ∈ path, b.isBasic d = true

def IsSimple (b : Basis α m n) (c : Cell m n) (path : List (Cell m n)) : Prop :=
  ∃ w : (cellGraph b.basics).Walk (.inl c.1) (.inr c.2), w.IsPath ∧ w.edges = path.map Cell.edge

theorem path_closesLoop (h : b.path? c = some path) : b.ClosesLoop c path ∧ b.IsSimple c path := by
  obtain ⟨w, hw, hedges, -, -⟩ := exists_isPath_of_path h
  obtain ⟨hroute, hn, hp⟩ := path_route h
  exact ⟨⟨route_iff_turns.mp hroute, hn, hp⟩, w, hw, hedges.symm⟩

theorem ClosesLoop.unique (h : b.ClosesLoop c path) (h' : b.ClosesLoop c other)
    (hforest : (cellGraph b.basics).IsAcyclic) : path = other :=
  (route_iff_turns.mpr h.toTurns).unique (route_iff_turns.mpr h'.toTurns) hforest h.nodup h'.nodup
    h.basic h'.basic

/-- A tree has one path between the two nodes of a cell, and that is found. -/
theorem Spans.exists_unique_path (h : b.Spans) (c : Cell m n) :
    ∃ path, b.path? c = some path ∧ b.ClosesLoop c path ∧ b.IsSimple c path ∧
      ∀ other, b.ClosesLoop c other → other = path := by
  obtain ⟨path, hpath⟩ := Option.isSome_iff_exists.mp (h.isSome_path c)
  obtain ⟨hcloses, hsimple⟩ := path_closesLoop hpath
  exact ⟨path, hpath, hcloses, hsimple, fun other hother => hother.unique hcloses h.isAcyclic⟩

end Basis

section UniquePotentials

variable {net : Network Rat m n} {b : Basis Rat m n} {p q : Potentials Rat m n}

structure Potentials.Fits (net : Network Rat m n) (b : Basis Rat m n) (p : Potentials Rat m n) :
    Prop where
  first : ∀ i : Fin m, i.val = 0 → p.row i = 0
  basic : ∀ c, b.isBasic c = true → p.row c.1 + p.column c.2 = net.costs c.1 c.2

def Potentials.price (p : Potentials Rat m n) : Node m n → Rat := Sum.elim p.row p.column

theorem Potentials.Fits.eq_of_potentials (hq : q.Fits net b) (hm : 0 < m)
    (hp : b.potentials? net = some p) : q = p := by
  have hprices : Prices (fun c => net.costs c.1 c.2) b.basics q.price := hq.basic
  obtain ⟨hrow, hcolumn⟩ := hprices.potentials_eq hm (hq.first _ rfl) hp
  obtain ⟨row, column⟩ := q
  obtain ⟨row', column'⟩ := p
  congr 1
  · ext i
    exact (hrow i).symm
  · ext j
    exact (hcolumn j).symm

theorem potentials_fits (hforest : (cellGraph b.basics).IsAcyclic) (hm : 0 < m)
    (hp : b.potentials? net = some p) : p.Fits net b := by
  obtain ⟨price, -, hzero, hrow, -⟩ := exists_prices_eq hforest hm hp
  constructor
  · intro i hi
    obtain rfl : i = ⟨0, hm⟩ := Fin.ext hi
    rw [hrow, hzero]
  · intro c hc
    exact potentials_prices hforest hp hc

/-- A tree has one price for each node that fits its cells, and these prices are found. -/
theorem Basis.Spans.exists_unique_potentials (h : b.Spans) (net : Network Rat m n) (hm : 0 < m) :
    ∃ p, b.potentials? net = some p ∧ p.Fits net b ∧
      ∀ q : Potentials Rat m n, q.Fits net b → q = p := by
  obtain ⟨p, hp⟩ : ∃ p, b.potentials? net = some p :=
    Option.isSome_iff_exists.mp (h.isSome_potentials hm)
  exact ⟨p, hp, potentials_fits h.isAcyclic hm hp, fun q hq => hq.eq_of_potentials hm hp⟩

end UniquePotentials

/-- There are potentials exactly where the basic cells connect all nodes, and a path exactly where
they connect the nodes of a cell. In a spanning tree both are determined: the path is simple and the
only one over different basic cells that share columns and rows by turns, and the potentials are
the only ones that start at zero and add up to the costs of the basic cells. -/
theorem potentials_paths_determined (hm : 0 < m) :
    (∀ (α : Type) [Scalar α] (net : Network α m n) (b : Basis α m n),
      ((b.potentials? net).isSome ↔ (cellGraph b.basics).Connected) ∧
      (∀ c, (b.path? c).isSome ↔ (cellGraph b.basics).Reachable (.inl c.1) (.inr c.2)) ∧
      ((cellGraph b.basics).IsTree → ∀ c, ∃ path, b.path? c = some path ∧ b.ClosesLoop c path ∧
        b.IsSimple c path ∧ ∀ other, b.ClosesLoop c other → other = path)) ∧
    ∀ (net : Network Rat m n) (b : Basis Rat m n), (cellGraph b.basics).IsTree →
      ∃ p, b.potentials? net = some p ∧ p.Fits net b ∧
        ∀ q : Potentials Rat m n, q.Fits net b → q = p :=
  ⟨fun _ _ _ _ => ⟨Basis.isSome_potentials_iff hm, fun _ => Basis.isSome_path_iff,
      Basis.Spans.exists_unique_path⟩,
    fun net _ h => Basis.Spans.exists_unique_potentials h net hm⟩

theorem detour_spans : (vogel detour 0).Spans :=
  vogel_spans ⟨by decide +kernel, by decide +kernel⟩ (by decide) (by decide)

/-- The loop goes through all nodes of the tree, and falls apart with one of its cells. -/
theorem detour_determined :
    let b := vogel detour 0
    let cut := b.erase (1, 1)
    0 < 3 ∧ (cellGraph b.basics).IsTree ∧
      (∃ p, b.potentials? detour = some p ∧ p.row.toList = [0, -2, -4] ∧
        p.column.toList = [1, 4, 7] ∧ ∀ q : Potentials Rat 3 3, q.Fits detour b → q = p) ∧
      b.path? (2, 0) = some [(2, 2), (1, 2), (1, 1), (0, 1), (0, 0)] ∧
      b.IsSimple (2, 0) [(2, 2), (1, 2), (1, 1), (0, 1), (0, 0)] ∧
      (∀ other, b.ClosesLoop (2, 0) other →
        other = [(2, 2), (1, 2), (1, 1), (0, 1), (0, 0)]) ∧
      ¬ (cellGraph cut.basics).Connected ∧
      (cellGraph cut.basics).Reachable (.inl 2) (.inr 2) ∧
      ¬ (cellGraph cut.basics).Reachable (.inl 2) (.inr 0) := by
  obtain ⟨hsearches, hprices⟩ := potentials_paths_determined (m := 3) (n := 3) (by decide)
  obtain ⟨-, -, htree⟩ := hsearches Rat detour (vogel detour 0)
  obtain ⟨hconnected, hreachable, -⟩ := hsearches Rat detour ((vogel detour 0).erase (1, 1))
  obtain ⟨p, hp, -, honly⟩ := hprices detour (vogel detour 0) detour_spans
  obtain ⟨path, hpath, -, hsimple, hunique⟩ := htree detour_spans (2, 0)
  have hfive : (vogel detour 0).path? (2, 0) =
      some [(2, 2), (1, 2), (1, 1), (0, 1), (0, 0)] := by decide +kernel
  obtain rfl := Option.some.inj (hpath.symm.trans hfive)
  have hvalues : ((vogel detour 0).potentials? detour).map
      (fun q => (q.row.toList, q.column.toList)) = some ([0, -2, -4], [1, 4, 7]) := by
    decide +kernel
  rw [hp] at hvalues
  obtain ⟨hrow, hcolumn⟩ := Prod.mk.inj (Option.some.inj hvalues)
  refine ⟨by decide, detour_spans, ⟨p, hp, hrow, hcolumn, honly⟩, hfive, hsimple, hunique, ?_, ?_,
    ?_⟩
  · rw [← hconnected]
    decide +kernel
  · exact (hreachable (2, 2)).mp (by decide +kernel)
  · rw [← hreachable (2, 0)]
    decide +kernel

end LeastCost.Transport
