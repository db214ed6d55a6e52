import DistWorkshops.Lib.Dict
import DistWorkshops.Lib.Loop
import DistWorkshops.Lib.Shortcut
import DistWorkshops.Python

/-!
# Forwarding pointers

The functions and statements of `forwarding.py` and `forwarding_rename.py` on `locations`, a
dictionary from a location to the next one or to an address. `resolve` follows the pointers to
the first name that is no key and counts the hops. The script replaces a pointer by the final
address (`shortcut`) and simulates a failure by `del` (`delete`).
-/

set_option autoImplicit false

namespace Forwarding

open ParentMap Relation

abbrev Locations := Dict String String

namespace Locations

variable (locations : Locations)

def keys : List String := locations.entries.map Prod.fst

/-- One pass of the loop, on the location and the hops so far. The loop test and the access are
two reads of the dictionary, as in the source. -/
def resolveStep : String × ℕ → Loop.Step (String × ℕ) (Except PyError (String × ℕ))
  | (location, hops) =>
      if (locations.get? location).isSome then
        match locations.get? location with
        | some target => .again (target, hops + 1)
        | none => .done (.error .keyError)
      else .done (.ok (location, hops))

def resolve (fuel : ℕ) (location : String) : Option (Except PyError (String × ℕ)) :=
  Loop.run locations.resolveStep fuel (location, 0)

/-- `address, hops = resolve(location)`, then `locations[location] = address`. -/
def shortcut (fuel : ℕ) (location : String) : Option (Except PyError Locations) :=
  match locations.resolve fuel location with
  | none => none
  | some (.error e) => some (.error e)
  | some (.ok (address, _)) => some (.ok (locations.set location address))

/-- Shortcuts at one location after the other. -/
def shortcuts (fuel : ℕ) (locations : Locations) : List String → Option (Except PyError Locations)
  | [] => some (.ok locations)
  | location :: rest =>
      match locations.shortcut fuel location with
      | none => none
      | some (.error e) => some (.error e)
      | some (.ok locations) => shortcuts fuel locations rest

/-- `del locations[location]`. -/
def delete (location : String) : Except PyError Locations :=
  match locations.get? location with
  | some _ => .ok (locations.erase location)
  | none => .error .keyError

def deleteAll (gone : List String) : Except PyError Locations :=
  gone.foldlM (fun locations location => locations.delete location) locations

/-- Following pointers ends, from any location. -/
def Terminating : Prop := ∀ location, ∃ fuel r, locations.resolve fuel location = some r

/-- The chain from `location` passes through `c`, or is `c`. -/
def PassesThrough (location c : String) : Prop :=
  ReflTransGen (fun a b => locations.get? a = some b) location c

end Locations

/-! ## The loop of `resolve` -/

namespace Locations

variable {locations : Locations} {location : String} {l : List String}

theorem mem_keys_iff : location ∈ locations.keys ↔ locations.get? location ≠ none := by
  rw [keys, List.mem_map, ne_eq, ← Option.not_isSome_iff_eq_none, not_not, Option.isSome_iff_exists]
  constructor
  · rintro ⟨⟨k, v⟩, hmem, rfl⟩
    exact ⟨v, (locations.get?_eq_some_iff k v).mpr hmem⟩
  · rintro ⟨v, hget⟩
    exact ⟨(location, v), (locations.get?_eq_some_iff location v).mp hget, rfl⟩

theorem mem_keys_of_get? {a b : String} (h : locations.get? a = some b) : a ∈ locations.keys := by
  rw [mem_keys_iff, h]
  exact Option.some_ne_none b

theorem resolveStep_key {target : String} (h : locations.get? location = some target) (hops : ℕ) :
    locations.resolveStep (location, hops) = .again (target, hops + 1) := by
  simp only [resolveStep, h, Option.isSome_some, if_true]

theorem resolveStep_end (h : locations.get? location = none) (hops : ℕ) :
    locations.resolveStep (location, hops) = .done (.ok (location, hops)) := by
  simp only [resolveStep, h, Option.isSome_none, Bool.false_eq_true, if_false]

/-- **What `resolve` returns**: the end of the chain, and its length. -/
theorem resolve_of_chain (h : Chain locations.get? location l) {fuel : ℕ}
    (hfuel : l.length < fuel) :
    locations.resolve fuel location = some (.ok (endOf location l, l.length)) := by
  -- the count of the hops is carried through the loop
  have hloop : ∀ hops, Loop.run locations.resolveStep fuel (location, hops)
      = some (.ok (endOf location l, hops + l.length)) := by
    induction h generalizing fuel with
    | top htop =>
        intro hops
        obtain ⟨fuel, rfl⟩ : ∃ k, fuel = k + 1 := ⟨fuel - 1, by omega⟩
        exact Loop.run_done fuel (resolveStep_end htop hops)
    | @up d p l hup _ ih =>
        intro hops
        obtain ⟨fuel, rfl⟩ : ∃ k, fuel = k + 1 := ⟨fuel - 1, by omega⟩
        rw [Loop.run_again fuel (resolveStep_key hup hops),
          ih (Nat.lt_of_succ_lt_succ hfuel) (hops + 1), endOf_cons, List.length_cons]
        congr 3
        omega
  have hzero := hloop 0
  rw [Nat.zero_add] at hzero
  exact hzero

/-- If `resolve` returns, it has followed a chain to its end. -/
theorem exists_chain_of_run {fuel hops : ℕ} {r : Except PyError (String × ℕ)}
    (h : Loop.run locations.resolveStep fuel (location, hops) = some r) :
    ∃ l, Chain locations.get? location l := by
  induction fuel generalizing location hops with
  | zero => cases h
  | succ fuel ih =>
      cases hget : locations.get? location with
      | none => exact ⟨[], .top hget⟩
      | some target =>
          rw [Loop.run_again fuel (resolveStep_key hget hops)] at h
          obtain ⟨l, hl⟩ := ih h
          exact ⟨target :: l, .up hget hl⟩

theorem Terminating.exists_chain (h : locations.Terminating) (location : String) :
    ∃ l, Chain locations.get? location l := by
  obtain ⟨fuel, r, hr⟩ := h location
  exact exists_chain_of_run hr

/-- A chain is not longer than the dictionary. -/
theorem chain_length_le (h : Chain locations.get? location l) :
    l.length ≤ locations.entries.length := by
  have hle : l.length ≤ locations.keys.length := h.length_le fun a b => mem_keys_of_get?
  rw [keys, List.length_map] at hle
  exact hle

/-- Whatever `resolve` returns is the end of the chain and its length. -/
theorem resolve_eq_some {fuel : ℕ} {r : Except PyError (String × ℕ)}
    (h : locations.resolve fuel location = some r) :
    ∃ l, Chain locations.get? location l ∧ r = .ok (endOf location l, l.length) := by
  obtain ⟨l, hl⟩ := exists_chain_of_run h
  have hmono := Loop.run_mono h (Nat.le_max_left fuel (l.length + 1))
  have hspec := resolve_of_chain hl (Nat.lt_of_succ_le (Nat.le_max_right fuel (l.length + 1)))
  rw [resolve, hmono] at hspec
  exact ⟨l, hl, Option.some.inj hspec⟩

/-- `resolve` raises no `KeyError`: it reads `locations[location]` after the test that it is
there. -/
theorem resolve_ne_error (fuel : ℕ) (location : String) (e : PyError) :
    locations.resolve fuel location ≠ some (.error e) := by
  intro h
  obtain ⟨l, -, hspec⟩ := resolve_eq_some h
  cases hspec

end Locations

/-- The dictionary of the scripts. -/
def workshopLocations : Locations where
  entries := [("A", "B"), ("B", "C"), ("C", "D"), ("D", "192.168.1.50:5000")]
  nodup := by decide

example : workshopLocations.resolve 5 "A" = some (.ok ("192.168.1.50:5000", 4)) := by decide

end Forwarding
