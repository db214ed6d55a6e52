import DistWorkshops.Chord.Successor

/-!
# Intervals and fingers by clockwise distances

What the routing of `lookup` rests on, in residues modulo `2 ^ M`: `in_interval` by the distances
from its left end, and every entry of `finger_table` by the distances from its start.
-/

set_option autoImplicit false

namespace Chord

open Clockwise

/-- The clockwise distance from `a` to `b`, taken as a full turn when it is 0. -/
def arc (M : ℕ) (a b : ℤ) : ℤ := if (b - a) % 2 ^ M = 0 then 2 ^ M else (b - a) % 2 ^ M

theorem span_eq_arc (M : ℕ) (a b : ℤ) : span (ringSize M) a b = arc M a b :=
  span_eq (ringSize_pos M) a b

/-- The node at the least clockwise distance from `start`, all others being farther. -/
def Ring.Nearest (ring : Ring) (start node : ℤ) : Prop :=
  node ∈ ring.nodes ∧ ∀ other ∈ ring.nodes, other ≠ node →
    (node - start) % 2 ^ ring.M < (other - start) % 2 ^ ring.M

namespace Ring

variable (ring : Ring)

theorem fingerTable_getElem? (node : ℤ) {i : ℕ} (hi : i < ring.M) :
    (ring.fingerTable node)[i]? = some (i + 1, (node + 2 ^ i) % 2 ^ ring.M,
      ring.successor ((node + 2 ^ i) % 2 ^ ring.M)) := by
  rw [fingerTable, List.getElem?_map, List.getElem?_range hi]
  rfl

/-- The successor of a reduced position is the nearest node. -/
theorem nearest_successor (key : ℤ) :
    ring.Nearest (key % 2 ^ ring.M) (ring.successor (key % 2 ^ ring.M)) := by
  have howner := ring.owner_successor (key % 2 ^ ring.M)
  rw [show ringSize ring.M = 2 ^ ring.M from rfl, Int.emod_emod_of_dvd _ (dvd_refl _)] at howner
  exact howner

end Ring

/-- **Intervals and fingers.** `in_interval` holds of the positions at a distance between 0 and the
arc of the interval, for all integers. The table of a node has one entry for each `i` below `M`,
with the node nearest to the position `2 ^ i` further on. -/
theorem intervals_and_fingers :
    (∀ (M : ℕ) (x a b : ℤ), inInterval M x a b = true ↔
      0 < (x - a) % 2 ^ M ∧ (x - a) % 2 ^ M < arc M a b) ∧
    ∀ (ring : Ring) (node : ℤ), (ring.fingerTable node).length = ring.M ∧
      ∀ i < ring.M, ∃ target, ring.Nearest ((node + 2 ^ i) % 2 ^ ring.M) target ∧
        (ring.fingerTable node)[i]? = some (i + 1, (node + 2 ^ i) % 2 ^ ring.M, target) := by
  constructor
  · intro M x a b
    rw [inInterval_iff, Between, span_eq_arc]
    exact Iff.rfl
  · intro ring node
    refine ⟨by rw [Ring.fingerTable, List.length_map, List.length_range], fun i hi => ?_⟩
    exact ⟨_, ring.nearest_successor (node + 2 ^ i), ring.fingerTable_getElem? node hi⟩

end Chord
