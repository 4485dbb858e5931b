import LeastCost.Proofs.Text.Trimming
import LeastCost.Service.Endpoint

/-! # The texts of an endpoint

An endpoint answers to its name behind any number of routes, with any number of slashes on both
sides of the name and blanks around it all. No other text is one of its names.
-/

namespace LeastCost.Service.Endpoint

open Text (isBlank trim trimBoth)

variable {e : Endpoint} {text : List Char} {routes before after : Nat}

def route : List Char := "/solve/".toList

def routed (routes before after : Nat) (e : Endpoint) : List Char :=
  (List.replicate routes route).flatten ++
    (List.replicate before '/' ++ e.name.toList ++ List.replicate after '/')

theorem dropRoute_route (text : List Char) : dropRoute (route ++ text) = dropRoute text := rfl

theorem dropRoute_routes (routes : Nat) (text : List Char) :
    dropRoute ((List.replicate routes route).flatten ++ text) = dropRoute text := by
  induction routes with
  | zero => rfl
  | succ routes ih =>
    rw [List.replicate_succ, List.flatten_cons, List.append_assoc, dropRoute_route, ih]

theorem exists_dropRoute (text : List Char) :
    ∃ routes, text = (List.replicate routes route).flatten ++ dropRoute text := by
  induction text using dropRoute.induct with
  | case1 rest ih =>
    obtain ⟨routes, h⟩ := ih
    refine ⟨routes + 1, ?_⟩
    rw [List.replicate_succ, List.flatten_cons, List.append_assoc, dropRoute, ← h]
    rfl
  | case2 text hother => exact ⟨0, by rw [dropRoute.eq_2 _ hother]; rfl⟩

/-- No name goes on like a route, so slashes before it are none. -/
theorem dropRoute_slashes (before after : Nat) (e : Endpoint) :
    dropRoute (List.replicate before '/' ++ e.name.toList ++ List.replicate after '/') =
      List.replicate before '/' ++ e.name.toList ++ List.replicate after '/' := by
  match before with
  | 0 => cases e <;> rfl
  | 1 => cases e <;> rfl
  | _ + 2 => rfl

theorem trimBoth_slashes (before after : Nat) (e : Endpoint) :
    trimBoth (· == '/') (List.replicate before '/' ++ e.name.toList ++ List.replicate after '/') =
      e.name.toList := by
  have hslash : ∀ count, ∀ c ∈ List.replicate count '/', (c == '/') = true := fun count c hc =>
    beq_iff_eq.mpr (List.eq_of_mem_replicate hc)
  have hname : (e.name.toList.all fun c => !(c == '/')) = true := by cases e <;> decide
  exact Text.trimBoth_between (hslash before) (Text.forall_of_all hname) (hslash after)

theorem isBlank_routed : ∀ c ∈ routed routes before after e, isBlank c = false := by
  intro c hc
  simp only [routed, List.mem_append, List.mem_flatten, List.mem_replicate] at hc
  rcases hc with ⟨_, ⟨-, rfl⟩, hc⟩ | (⟨-, rfl⟩ | hc) | ⟨-, rfl⟩
  · exact Text.forall_of_all (by decide) c hc
  · decide
  · exact Text.forall_of_all (by cases e <;> decide) c hc
  · decide

theorem bareName_eq_iff : bareName text = e.name.toList ↔
    ∃ routes before after, trim text = routed routes before after e := by
  constructor
  · intro h
    obtain ⟨routes, hroutes⟩ := exists_dropRoute (trim text)
    obtain ⟨front, back, hfront, hback, hslashes⟩ :=
      Text.exists_trimBoth (· == '/') (dropRoute (trim text))
    have hreplicate : ∀ l : List Char, (∀ c ∈ l, (c == '/') = true) →
        l = List.replicate l.length '/' := fun l hl =>
      List.eq_replicate_iff.mpr ⟨rfl, fun c hc => beq_iff_eq.mp (hl c hc)⟩
    refine ⟨routes, front.length, back.length, ?_⟩
    rw [routed, ← hreplicate front hfront, ← hreplicate back hback, ← h, bareName, ← hslashes,
      ← hroutes]
  · rintro ⟨routes, before, after, h⟩
    rw [bareName, h, routed, dropRoute_routes, dropRoute_slashes, trimBoth_slashes]

theorem find?_name_eq_some_iff :
    all.find? (fun e => e.name.toList == text) = some e ↔ text = e.name.toList := by
  constructor
  · intro h
    have hname := List.find?_some h
    exact (beq_iff_eq.mp hname).symm
  · rintro rfl
    cases e <;> decide

theorem ofText_eq_ok_iff {s : String} : ofText s = .ok e ↔ bareName s.toList = e.name.toList := by
  rw [← find?_name_eq_some_iff, ofText]
  split
  · next e' h => rw [h, Except.ok.injEq, Option.some.injEq]
  · next h => simp [h]

theorem eq_of_ofText_eq_error {s : String} {failure : Failure} (h : ofText s = .error failure) :
    failure = .unknownEndpoint s := by
  rw [ofText] at h
  split at h
  · cases h
  · exact (Except.error.inj h).symm

/-- A text stands for an endpoint exactly if it is the name behind routes, with slashes on both
sides, and blanks around it all. Any other text is reported as it was given. -/
theorem ofText_names (s : String) :
    (∀ e, ofText s = .ok e ↔
      ∃ routes before after, trim s.toList = routed routes before after e) ∧
    (∀ e, ofText s = .ok e ↔
      ∃ front back routes before after, (∀ c ∈ front ++ back, isBlank c = true) ∧
        s.toList = front ++ routed routes before after e ++ back) ∧
    ∀ failure, ofText s = .error failure ↔ failure = .unknownEndpoint s ∧
      ∀ e routes before after, trim s.toList ≠ routed routes before after e := by
  have hok : ∀ e, ofText s = .ok e ↔
      ∃ routes before after, trim s.toList = routed routes before after e := fun e => by
    rw [ofText_eq_ok_iff, bareName_eq_iff]
  refine ⟨hok, fun e => (hok e).trans ⟨?_, ?_⟩, fun failure =>
    ⟨fun h => ⟨eq_of_ofText_eq_error h, ?_⟩, ?_⟩⟩
  · rintro ⟨routes, before, after, h⟩
    obtain ⟨front, back, hfront, hback, hs⟩ := Text.exists_trimBoth isBlank s.toList
    refine ⟨front, back, routes, before, after, fun c hc => ?_, ?_⟩
    · rcases List.mem_append.mp hc with hc | hc
      · exact hfront c hc
      · exact hback c hc
    · rw [← h]
      exact hs
  · rintro ⟨front, back, routes, before, after, hblank, hs⟩
    refine ⟨routes, before, after, ?_⟩
    rw [hs]
    exact Text.trimBoth_between (fun c hc => hblank c (List.mem_append_left _ hc)) isBlank_routed
      fun c hc => hblank c (List.mem_append_right _ hc)
  · intro e routes before after htrim
    rw [(hok e).mpr ⟨routes, before, after, htrim⟩] at h
    cases h
  · rintro ⟨rfl, hnone⟩
    cases hs : ofText s with
    | ok e =>
      obtain ⟨routes, before, after, htrim⟩ := (hok e).mp hs
      exact absurd htrim (hnone e routes before after)
    | error failure => rw [eq_of_ofText_eq_error hs]

end LeastCost.Service.Endpoint
