import LeastCost.Config.Server
import LeastCost.Proofs.Config.Addresses
import LeastCost.Proofs.Decimal.Digits
import LeastCost.Proofs.Results

/-! # Configurations that are read back

The values of a configuration pass their own checks. A lookup with the printed address, the
printed iteration limit and the tolerance as it was given, blanks around any of them, gives the
same configuration again.
-/

namespace LeastCost.Config

open Text (isBlank trim)

/-- The first text within the second one, with nothing but blanks around it. -/
def Padded (inner outer : String) : Prop :=
  ∃ front back, (∀ c ∈ front ++ back, isBlank c = true) ∧
    outer.toList = front ++ inner.toList ++ back

variable {inner outer : String} {lookup lookup' : String → Option String}

theorem Padded.trim_eq (h : Padded inner outer) : trim outer.toList = trim inner.toList := by
  obtain ⟨front, back, hblank, heq⟩ := h
  rw [heq]
  exact Text.trimBoth_append (fun c hc => hblank c (List.mem_append_left _ hc))
    (fun c hc => hblank c (List.mem_append_right _ hc)) _

theorem Padded.trim_eq_self (h : Padded inner outer)
    (hblank : ∀ c ∈ inner.toList, isBlank c = false) : trim outer.toList = inner.toList := by
  rw [h.trim_eq, trim, Text.trimBoth_of_forall hblank]

section Readers

variable {β : Type} {default x : β} {read? : String → Option β} {fault : String → ConfigFault}
  {value : String} {value? value'? : Option String}

theorem readValue_eq_ok_iff : readValue read? fault value = .ok x ↔ read? value = some x := by
  unfold readValue
  split
  · next hread => simp [hread]
  · next hread => simp [hread]

theorem readOr_eq_ok_iff : readOr default read? fault value? = .ok x ↔
    (value? = none ∧ default = x) ∨ ∃ value, value? = some value ∧ read? value = some x := by
  cases value? with
  | none => simp [readOr]
  | some value => simp [readOr, readValue_eq_ok_iff]

theorem check_of_readOr (check : β → Prop) (hdefault : check default)
    (hread : ∀ value x, read? value = some x → check x)
    (h : readOr default read? fault value? = .ok x) : check x := by
  rcases readOr_eq_ok_iff.mp h with ⟨-, rfl⟩ | ⟨value, -, hvalue⟩
  · exact hdefault
  · exact hread value x hvalue

theorem readOr_congr (hread : ∀ inner outer, Padded inner outer → read? outer = read? inner)
    (hvalue : Option.Rel Padded value? value'?) (h : readOr default read? fault value? = .ok x) :
    readOr default read? fault value'? = .ok x := by
  cases hvalue with
  | none => exact h
  | some hpadded =>
    exact readValue_eq_ok_iff.mpr ((hread _ _ hpadded).trans (readValue_eq_ok_iff.mp h))

end Readers

section Values

variable {n bound : Nat} {tolerance : Float}

theorem isFinite_of_tolerance? (h : tolerance? inner = some tolerance) :
    tolerance.isFinite = true ∧ 0 < tolerance := by
  rw [tolerance?, Option.filter_eq_some_iff] at h
  simpa using h.2

theorem tolerance?_of_padded (h : Padded inner outer) : tolerance? outer = tolerance? inner := by
  rw [tolerance?, tolerance?, h.trim_eq]

theorem natBelow?_lt {text : List Char} (h : Decimal.natBelow? bound text = some n) :
    n < bound := by
  unfold Decimal.natBelow? at h
  extract_lets digits at h
  split at h
  · cases h
  · split at h
    · next hdigits => exact Option.some.inj h ▸ hdigits.2
    · cases h

theorem natBelow?_toDigits (h : n < bound) :
    Decimal.natBelow? bound (Nat.toDigits 10 n) = some n := by
  have hdigit : ∀ c ∈ Nat.toDigits 10 n, c.isDigit := fun c => Decimal.isDigit_of_mem_toDigits
  have hvalue := Decimal.natOfDigits_toDigits n
  generalize hdigits : Nat.toDigits 10 n = digits at hdigit hvalue
  have hne : digits ≠ [] := hdigits ▸ Nat.toDigits_ne_nil
  unfold Decimal.natBelow?
  split
  · exact absurd (hdigit '+' List.mem_cons_self) (by decide)
  · simp [hne, List.all_eq_true.mpr hdigit, hvalue, h]

theorem iterations?_bounds (h : iterations? inner = some n) : 1 ≤ n ∧ n < 0x10000000000000000 := by
  rw [iterations?, Option.filter_eq_some_iff] at h
  exact ⟨of_decide_eq_true h.2, natBelow?_lt h.1⟩

theorem iterations?_toString (hpos : 1 ≤ n) (hn : n < 0x10000000000000000)
    (h : Padded (toString n) outer) : iterations? outer = some n := by
  have hdigits : (toString n).toList = Nat.toDigits 10 n := Nat.toList_repr
  have hblank : ∀ c ∈ (toString n).toList, isBlank c = false := fun c hc =>
    SocketAddress.isBlank_of_mem_toDigits (by decide) (by decide) (hdigits ▸ hc)
  rw [iterations?, h.trim_eq_self hblank, hdigits, natBelow?_toDigits hn,
    Option.filter_eq_some_iff]
  exact ⟨rfl, decide_eq_true hpos⟩

theorem address?_text {a : SocketAddress} (h : Padded a.text outer) : address? outer = some a := by
  rw [address?, h.trim_eq_self fun c => SocketAddress.isBlank_of_mem_text a]
  exact SocketAddress.ofText?_text a

end Values

namespace Server

variable {config : Server}

theorem ofLookup_eq_ok_iff : ofLookup lookup = .ok config ↔
    address? ((lookup addressName).getD defaultAddress) = some config.address ∧
    readOr defaultSettings.tolerance tolerance? .tolerance (lookup toleranceName) =
      .ok config.settings.tolerance ∧
    readOr defaultSettings.maxIterations iterations? .iterations (lookup iterationsName) =
      .ok config.settings.maxIterations := by
  simp only [ofLookup, bind_eq_ok, readValue_eq_ok_iff]
  constructor
  · rintro ⟨address, haddress, tolerance, htolerance, iterations, hiterations, h⟩
    obtain rfl := Except.ok.inj h
    exact ⟨haddress, htolerance, hiterations⟩
  · rintro ⟨haddress, htolerance, hiterations⟩
    exact ⟨_, haddress, _, htolerance, _, hiterations, rfl⟩

/-- A lookup with what a configuration prints, and with the tolerance that another lookup has. -/
structure Reprints (config : Server) (lookup lookup' : String → Option String) : Prop where
  address : Option.Rel Padded (some config.address.text) (lookup' addressName)
  tolerance : Option.Rel Padded (lookup toleranceName) (lookup' toleranceName)
  iterations : Option.Rel Padded (some (toString config.settings.maxIterations))
    (lookup' iterationsName)

/-- A configuration has a finite positive tolerance and a positive iteration limit, and it is
read back from what it prints. -/
theorem read_back (h : ofLookup lookup = .ok config) :
    (config.settings.tolerance.isFinite = true ∧ 0 < config.settings.tolerance) ∧
    1 ≤ config.settings.maxIterations ∧
    ∀ lookup', config.Reprints lookup lookup' → ofLookup lookup' = .ok config := by
  obtain ⟨-, htolerance, hiterations⟩ := ofLookup_eq_ok_iff.mp h
  have hlimit := check_of_readOr (fun n => 1 ≤ n ∧ n < 0x10000000000000000)
    (by decide) (fun _ _ => iterations?_bounds) hiterations
  refine ⟨check_of_readOr (fun t => t.isFinite = true ∧ 0 < t) (by decide +kernel)
    (fun _ _ => isFinite_of_tolerance?) htolerance, hlimit.1, fun lookup' hprints => ?_⟩
  obtain ⟨haddress, htolerance', hiterations'⟩ := hprints
  rw [ofLookup_eq_ok_iff]
  refine ⟨?_, readOr_congr (fun _ _ => tolerance?_of_padded) htolerance' htolerance, ?_⟩
  · generalize lookup' addressName = value at haddress
    cases haddress with
    | some hpadded => exact address?_text hpadded
  · generalize lookup' iterationsName = value at hiterations'
    cases hiterations' with
    | some hpadded =>
      exact readValue_eq_ok_iff.mpr (iterations?_toString hlimit.1 hlimit.2 hpadded)

def lookupOf (address tolerance iterations : Option String) (name : String) : Option String :=
  if name = addressName then address
  else if name = toleranceName then tolerance
  else if name = iterationsName then iterations
  else none

theorem reprints_lookupOf {address iterations : String} {tolerance? : Option String}
    (haddress : Padded config.address.text address)
    (htolerance : Option.Rel Padded (lookup toleranceName) tolerance?)
    (hiterations : Padded (toString config.settings.maxIterations) iterations) :
    config.Reprints lookup (lookupOf (some address) tolerance? (some iterations)) where
  address := .some haddress
  tolerance := htolerance
  iterations := .some hiterations

theorem spelled_read_back : ∃ config,
    let spelled := lookupOf (some "[0:0::FFFF:1.2.3.4%05]:080 ") (some " 1e-7") (some "+0200")
    let printed := lookupOf (some "\t[::ffff:1.2.3.4%5]:80") (some " 1e-7\n") (some "200")
    ofLookup spelled = .ok config ∧ config.Reprints spelled printed ∧
      ofLookup printed = .ok config := by
  let config : Server :=
    ⟨⟨.v6 #v[0, 0, 0, 0, 0, 0xffff, 0x102, 0x304] 5, 80⟩, ⟨1e-7, 200⟩⟩
  have hspelled : ofLookup (lookupOf (some "[0:0::FFFF:1.2.3.4%05]:080 ") (some " 1e-7")
      (some "+0200")) = .ok config := by
    rw [ofLookup_eq_ok_iff]
    decide +kernel
  have hprints : config.Reprints
      (lookupOf (some "[0:0::FFFF:1.2.3.4%05]:080 ") (some " 1e-7") (some "+0200"))
      (lookupOf (some "\t[::ffff:1.2.3.4%5]:80") (some " 1e-7\n") (some "200")) :=
    reprints_lookupOf ⟨['\t'], [], by simp [isBlank], by decide +kernel⟩
      (.some ⟨[], ['\n'], by simp [isBlank], by decide +kernel⟩)
      ⟨[], [], by simp [isBlank], by decide +kernel⟩
  exact ⟨config, hspelled, hprints, (read_back hspelled).2.2 _ hprints⟩

end Server

end LeastCost.Config
