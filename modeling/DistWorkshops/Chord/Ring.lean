import DistWorkshops.Lib.Clockwise
import DistWorkshops.Lib.Loop

/-!
# Chord

The functions of `chord.py`. The module's constants `M` and `nodes` are a `Ring`: a sorted,
non-empty list of distinct node ids in `[0, 2 ^ M)`. Finger `i` of a node points to the node
responsible for the position `2 ^ i` further on; `lookup` follows the farthest finger that does
not pass the key until the next node is responsible for it.
-/

set_option autoImplicit false

namespace Chord

open Clockwise

def ringSize (M : ℕ) : ℤ := 2 ^ M

structure Ring where
  M : ℕ
  nodes : List ℤ
  M_pos : 1 ≤ M
  nonempty : nodes ≠ []
  sorted : nodes.Pairwise (· < ·)
  inRange : ∀ node ∈ nodes, 0 ≤ node ∧ node < ringSize M

/-- Arguments of `%` need not be reduced: Python's `%` by a positive number is `Int.emod`. -/
def inInterval (M : ℕ) (x a b : ℤ) : Bool :=
  let a := a % ringSize M
  let b := b % ringSize M
  let x := x % ringSize M
  if a < b then decide (a < x ∧ x < b) else decide (x > a ∨ x < b)

/-- The two ways out of the loop of `lookup`: the successor of the current node owns the key,
or no finger led anywhere. -/
inductive Exit where
  | owner
  | fallback
  deriving DecidableEq, Repr

namespace Ring

variable (ring : Ring)

def successor (key : ℤ) : ℤ :=
  (ring.nodes.find? (fun node => node ≥ key)).getD (ring.nodes.head ring.nonempty)

/-- The entries `(i + 1, start, target)` for `i` from `0` to `M - 1`. -/
def fingerTable (node : ℤ) : List (ℕ × ℤ × ℤ) :=
  (List.range ring.M).map fun i =>
    let start := (node + 2 ^ i) % ringSize ring.M
    (i + 1, start, ring.successor start)

theorem fingerTable_ne_nil (node : ℤ) : ring.fingerTable node ≠ [] := by
  have := ring.M_pos
  simp only [fingerTable, ne_eq, List.map_eq_nil_iff, List.range_eq_nil]
  omega

/-- `finger_table(current)[0][2]`. -/
def firstFinger (current : ℤ) : ℤ :=
  ((ring.fingerTable current).head (ring.fingerTable_ne_nil current)).2.2

/-- The target of the last finger strictly between `current` and `key`, or `current`. -/
def nextNode (key current : ℤ) : ℤ :=
  match (ring.fingerTable current).reverse.find?
      (fun entry => inInterval ring.M entry.2.2 current key) with
  | some entry => entry.2.2
  | none => current

/-- One pass of the loop of `lookup`, on the path so far and the current node. -/
def lookupStep (key : ℤ) : List ℤ × ℤ → Loop.Step (List ℤ × ℤ) (List ℤ × Exit)
  | (path, current) =>
      let succ := ring.firstFinger current
      if key % ringSize ring.M = succ ∨ inInterval ring.M key current succ = true then
        .done (path ++ [succ], .owner)
      else if ring.nextNode key current = current then .done (path ++ [succ], .fallback)
      else .again (path ++ [ring.nextNode key current], ring.nextNode key current)

/-- `lookup`, with the way the loop was left. -/
def lookupExit (fuel : ℕ) (key start : ℤ) : Option (List ℤ × Exit) :=
  Loop.run (ring.lookupStep key) fuel ([start], start)

def lookup (fuel : ℕ) (key start : ℤ) : Option (List ℤ) :=
  (ring.lookupExit fuel key start).map Prod.fst

end Ring

/-! ## Intervals and fingers -/

theorem ringSize_pos (M : ℕ) : 0 < ringSize M := by
  unfold ringSize
  positivity

/-- `in_interval` decides the clockwise betweenness, for all integers. -/
theorem inInterval_iff (M : ℕ) (x a b : ℤ) :
    inInterval M x a b = true ↔ Between (ringSize M) x a b := by
  have hR := ringSize_pos M
  unfold Between
  rw [span_eq hR, ← dist_emod a x, ← dist_emod a b]
  have ha := Int.emod_nonneg a (ne_of_gt hR)
  have ha' := Int.emod_lt_of_pos a hR
  have hb := Int.emod_nonneg b (ne_of_gt hR)
  have hb' := Int.emod_lt_of_pos b hR
  have hx := Int.emod_nonneg x (ne_of_gt hR)
  have hx' := Int.emod_lt_of_pos x hR
  unfold inInterval
  generalize a % ringSize M = a at *
  generalize b % ringSize M = b at *
  generalize x % ringSize M = x at *
  rw [dist_eq ha ha' hx hx', dist_eq ha ha' hb hb']
  by_cases hab : a < b
  · simp only [if_pos hab, decide_eq_true_eq, if_pos (le_of_lt hab)]
    split_ifs <;> omega
  · simp only [if_neg hab, decide_eq_true_eq]
    split_ifs <;> omega

namespace Ring

variable (ring : Ring)

theorem successor_mem (key : ℤ) : ring.successor key ∈ ring.nodes := by
  unfold successor
  cases h : ring.nodes.find? (fun node => node ≥ key) with
  | none => exact List.head_mem ring.nonempty
  | some node => exact List.mem_of_find?_eq_some h

/-- **The successor of a position is the first node clockwise from it.** -/
theorem successor_min {start node : ℤ} (h0 : 0 ≤ start) (h1 : start < ringSize ring.M)
    (hnode : node ∈ ring.nodes) :
    dist (ringSize ring.M) start (ring.successor start)
      ≤ dist (ringSize ring.M) start node := by
  obtain ⟨hn0, hn1⟩ := ring.inRange node hnode
  obtain ⟨hs0, hs1⟩ := ring.inRange _ (ring.successor_mem start)
  rw [dist_eq h0 h1 hs0 hs1, dist_eq h0 h1 hn0 hn1]
  have hsorted := ring.sorted
  unfold successor
  cases hfind : ring.nodes.find? (fun node => node ≥ start) with
  | some first =>
      -- `first` is the smallest node from `start` on
      have hfirst : start ≤ first := by simpa using List.find?_some hfind
      have hrange := ring.inRange first (List.mem_of_find?_eq_some hfind)
      have hmin : start ≤ node → first ≤ node := by
        intro hle
        obtain ⟨-, before, after, hsplit, hbefore⟩ := List.find?_eq_some_iff_append.mp hfind
        rw [hsplit] at hnode hsorted
        rcases List.mem_append.mp hnode with hm | hm
        · have := hbefore node hm
          simp at this
          omega
        · rcases List.mem_cons.mp hm with rfl | hm
          · exact le_refl _
          · have hcons := (List.pairwise_append.mp hsorted).2.1
            exact le_of_lt ((List.pairwise_cons.mp hcons).1 node hm)
      simp only [Option.getD_some]
      rw [if_pos hfirst]
      split_ifs with hle
      · have := hmin hle
        omega
      · omega
  | none =>
      -- every node lies before `start`, so the smallest one comes first
      have hall : ∀ v ∈ ring.nodes, v < start := by
        intro v hv
        have := List.find?_eq_none.mp hfind v hv
        simpa using this
      have hhead : ring.nodes.head ring.nonempty ≤ node := by
        have hcons := List.cons_head_tail ring.nonempty
        rw [← hcons] at hnode hsorted
        rcases List.mem_cons.mp hnode with h | hm
        · rw [h]
        · exact le_of_lt ((List.pairwise_cons.mp hsorted).1 node hm)
      have h2 := hall _ (List.head_mem ring.nonempty)
      have h3 := hall node hnode
      simp only [Option.getD_none]
      rw [if_neg (by omega), if_neg (by omega)]
      omega

theorem fingerTable_target_mem {node : ℤ} {entry : ℕ × ℤ × ℤ}
    (h : entry ∈ ring.fingerTable node) : entry.2.2 ∈ ring.nodes := by
  obtain ⟨i, -, rfl⟩ := List.mem_map.mp h
  exact ring.successor_mem _

theorem firstFinger_eq (current : ℤ) :
    ring.firstFinger current = ring.successor ((current + 1) % ringSize ring.M) := by
  obtain ⟨k, hk⟩ : ∃ k, ring.M = k + 1 := ⟨ring.M - 1, by have := ring.M_pos; omega⟩
  simp [firstFinger, fingerTable, hk, List.range_succ_eq_map]

theorem firstFinger_mem (current : ℤ) : ring.firstFinger current ∈ ring.nodes := by
  rw [firstFinger_eq]
  exact ring.successor_mem _

/-- Finger 1 is the next node on the ring; of a single node, the node itself. -/
theorem firstFinger_min (current : ℤ) {node : ℤ} (hnode : node ∈ ring.nodes) :
    span (ringSize ring.M) current (ring.firstFinger current)
      ≤ span (ringSize ring.M) current node := by
  have hR := ringSize_pos ring.M
  have hmin := ring.successor_min (Int.emod_nonneg (current + 1) (ne_of_gt hR))
    (Int.emod_lt_of_pos (current + 1) hR) hnode
  rw [← firstFinger_eq] at hmin
  have hred : ∀ b, dist (ringSize ring.M) ((current + 1) % ringSize ring.M) b
      = dist (ringSize ring.M) (current + 1) b := by
    intro b
    exact Int.sub_emod_emod b (current + 1) _
  rw [hred, hred] at hmin
  unfold span
  omega

end Ring

end Chord
