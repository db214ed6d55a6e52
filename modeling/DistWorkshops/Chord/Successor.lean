import DistWorkshops.Chord.Hops

/-!
# The direct and the routed resolution of a key

`lookup` ends at the owner of the key, which is `successor` of the key reduced to `[0, 2 ^ M)`.
But `successor` compares the key as it is: outside of `[0, 2 ^ M)` it always answers the first
node. There the two agree exactly on the keys whose owner is the first node.
-/

set_option autoImplicit false

namespace Chord

namespace Ring

open Clockwise

variable (ring : Ring)

/-- `nodes[0]`. -/
def firstNode : ℤ := ring.nodes.head ring.nonempty

def lastNode : ℤ := ring.nodes.getLast ring.nonempty

theorem le_lastNode {node : ℤ} (hnode : node ∈ ring.nodes) : node ≤ ring.lastNode := by
  have hsorted := ring.sorted
  unfold lastNode
  have hsplit := List.dropLast_append_getLast ring.nonempty
  rw [← hsplit] at hnode hsorted
  rcases List.mem_append.mp hnode with hmem | hmem
  · exact le_of_lt ((List.pairwise_append.mp hsorted).2.2 node hmem _ (by simp))
  · exact le_of_eq (List.mem_singleton.mp hmem)

/-! ## The owner of a key -/

theorem Owner.unique {key owner owner' : ℤ} (h : ring.Owner key owner)
    (h' : ring.Owner key owner') : owner = owner' := by
  by_contra hne
  have hlt := h.2 owner' h'.1 (fun heq => hne heq.symm)
  have hlt' := h'.2 owner h.1 hne
  omega

theorem owner_successor (key : ℤ) : ring.Owner key (ring.successor (key % ringSize ring.M)) := by
  have hR := ringSize_pos ring.M
  have hred : ∀ b, dist (ringSize ring.M) (key % ringSize ring.M) b
      = dist (ringSize ring.M) key b := fun b => Int.sub_emod_emod b key _
  refine ⟨ring.successor_mem _, fun node hnode hne => ?_⟩
  have hmin := ring.successor_min (Int.emod_nonneg key (ne_of_gt hR))
    (Int.emod_lt_of_pos key hR) hnode
  rw [hred, hred] at hmin
  obtain ⟨hs0, hs1⟩ := ring.inRange _ (ring.successor_mem (key % ringSize ring.M))
  obtain ⟨hn0, hn1⟩ := ring.inRange node hnode
  exact lt_of_le_of_ne hmin fun heq => hne (dist_inj hs0 hs1 hn0 hn1 heq).symm

/-! ## Where `successor` answers the first node -/

theorem successor_eq_firstNode_iff (key : ℤ) :
    ring.successor key = ring.firstNode ↔ key ≤ ring.firstNode ∨ ring.lastNode < key := by
  cases hfind : ring.nodes.find? (fun node => node ≥ key) with
  | none =>
      -- every node lies before the key
      have hsucc : ring.successor key = ring.firstNode := by
        unfold successor firstNode
        rw [hfind, Option.getD_none]
      have hlast := List.find?_eq_none.mp hfind ring.lastNode (List.getLast_mem ring.nonempty)
      have hlt : ring.lastNode < key := by simpa using hlast
      exact iff_of_true hsucc (Or.inr hlt)
  | some first =>
      have hsucc : ring.successor key = first := by
        unfold successor
        rw [hfind, Option.getD_some]
      have hge : key ≤ first := by simpa using List.find?_some hfind
      have hle := ring.le_lastNode (List.mem_of_find?_eq_some hfind)
      rw [hsucc]
      constructor
      · rintro rfl
        exact Or.inl hge
      · rintro (h | h)
        · -- the first node itself is not before the key
          have hcons := List.cons_head_tail ring.nonempty
          have hpos : decide (ring.firstNode ≥ key) = true := decide_eq_true h
          rw [← hcons, List.find?_cons_of_pos (by exact hpos)] at hfind
          exact (Option.some.inj hfind).symm
        · omega

theorem successor_of_out_of_range {key : ℤ} (h : ¬ (0 ≤ key ∧ key < ringSize ring.M)) :
    ring.successor key = ring.firstNode := by
  apply (ring.successor_eq_firstNode_iff key).mpr
  have hfirst := (ring.inRange _ (List.head_mem ring.nonempty)).1
  have hlast := (ring.inRange _ (List.getLast_mem ring.nonempty)).2
  unfold firstNode lastNode
  omega

/-- The keys for which reducing them makes no difference to `successor`. -/
def RawKeyAgrees (key : ℤ) : Prop :=
  (0 ≤ key ∧ key < ringSize ring.M) ∨ key % ringSize ring.M ≤ ring.firstNode ∨
    ring.lastNode < key % ringSize ring.M

theorem successor_emod_iff (key : ℤ) :
    ring.successor (key % ringSize ring.M) = ring.successor key ↔ ring.RawKeyAgrees key := by
  unfold RawKeyAgrees
  by_cases h : 0 ≤ key ∧ key < ringSize ring.M
  · rw [Int.emod_eq_of_lt h.1 h.2]
    exact iff_of_true rfl (Or.inl h)
  · rw [ring.successor_of_out_of_range h, ring.successor_eq_firstNode_iff, or_iff_right h]

/-- **When the two resolutions agree.** The node at the end of the path is `successor(key)`
exactly for the keys in `[0, 2 ^ M)` and those that reduce to a position up to the first node or
behind the last one. -/
theorem lookup_successor_iff (key start : ℤ) (hstart : start ∈ ring.nodes) (fuel : ℕ)
    (hfuel : 2 ^ ring.M < fuel) :
    ∃ path, ring.lookup fuel key start = some path ∧
      (path.getLast? = some (ring.successor key) ↔ ring.RawKeyAgrees key) := by
  obtain ⟨path, owner, -, hlookup, hlast, howner, -⟩ :=
    ring.lookup_correct key start hstart fuel hfuel
  refine ⟨path, hlookup, ?_⟩
  rw [hlast, howner.unique ring (ring.owner_successor key), Option.some.injEq]
  exact ring.successor_emod_iff key

end Ring

theorem lookup_successor_iff_workshop :
    ∃ path, workshopRing.lookup 33 26 1 = some path ∧
      (path.getLast? = some (workshopRing.successor 26) ↔ workshopRing.RawKeyAgrees 26) :=
  workshopRing.lookup_successor_iff 26 1 (by decide) 33 (by decide)

/-- Key 35 is position 3, which node 4 owns; `successor(35)` is node 1. -/
theorem successor_disagrees :
    ¬ ∀ (ring : Ring) (key start : ℤ), start ∈ ring.nodes → ∀ fuel path,
      ring.lookup fuel key start = some path → path.getLast? = some (ring.successor key) := by
  intro h
  have hlookup : workshopRing.lookup 33 35 1 = some [1, 4] := by decide
  have hlast := h workshopRing 35 1 (by decide) 33 [1, 4] hlookup
  have hsucc : workshopRing.successor 35 = 1 := by decide
  rw [hsucc] at hlast
  cases hlast

end Chord
