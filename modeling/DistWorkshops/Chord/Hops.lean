import DistWorkshops.Chord.Lookup
import Mathlib.Data.Nat.Log
import Mathlib.Data.Finset.Max

/-!
# Chord lookup takes at most `M + 1` hops

What a hop shortens is the `gap`: the distance from the current node to the predecessor of the
key, the last node before it. While the gap is not zero, the finger that `nextNode` takes leads
over at least the highest power of two in the gap (`nextNode_far`), so the gap loses its top bit
(`gap_halves`). A gap of zero is one the owner test sees.
-/

set_option autoImplicit false

namespace Chord

open Clockwise

/-- The number that `print_lookup` reports. -/
def totalHops (path : List ℤ) : ℕ := path.length - 1

/-- A search from the end of a table finds an entry at or behind any entry that qualifies. -/
theorem find_reverse_map_range {α : Type} (f : ℕ → α) (p : α → Bool) {n i : ℕ} (hi : i < n)
    (hp : p (f i) = true) :
    ∃ j, i ≤ j ∧ j < n ∧ p (f j) = true ∧
      ((List.range n).map f).reverse.find? p = some (f j) := by
  induction n with
  | zero => omega
  | succ n ih =>
      rw [List.range_succ, List.map_append, List.reverse_append, List.map_singleton,
        List.reverse_singleton, List.singleton_append]
      by_cases hn : p (f n) = true
      · exact ⟨n, by omega, by omega, hn, List.find?_cons_of_pos hn⟩
      · -- the last entry does not qualify, so `i` lies before it
        have hne : i ≠ n := by
          rintro rfl
          exact hn hp
        obtain ⟨j, hij, hj, hpj, hfind⟩ := ih (by omega)
        refine ⟨j, hij, by omega, hpj, ?_⟩
        rw [List.find?_cons_of_neg hn]
        exact hfind

namespace Ring

variable (ring : Ring)

/-! ## How far a finger leads -/

theorem pow_lt_ringSize {i : ℕ} (hi : i < ring.M) : (2 : ℤ) ^ i < ringSize ring.M :=
  pow_lt_pow_right₀ (by norm_num) hi

/-- The distance from the start of finger `i`, as a distance from the node. -/
theorem dist_fingerStart (current b : ℤ) {i : ℕ} (hi : i < ring.M) :
    dist (ringSize ring.M) ((current + 2 ^ i) % ringSize ring.M) b =
      if 2 ^ i ≤ dist (ringSize ring.M) current b
        then dist (ringSize ring.M) current b - 2 ^ i
        else dist (ringSize ring.M) current b - 2 ^ i + ringSize ring.M := by
  have hpos : (0 : ℤ) ≤ 2 ^ i := by positivity
  rw [← dist_add (ringSize_pos ring.M) hpos (ring.pow_lt_ringSize hi) current b]
  exact Int.sub_emod_emod b (current + 2 ^ i) _

/-- Finger `i` of a node leads at least `2 ^ i` positions on, or all the way round. -/
theorem finger_far {current : ℤ} (hcur : current ∈ ring.nodes) {i : ℕ} (hi : i < ring.M)
    (hne : ring.successor ((current + 2 ^ i) % ringSize ring.M) ≠ current) :
    2 ^ i ≤ dist (ringSize ring.M) current
      (ring.successor ((current + 2 ^ i) % ringSize ring.M)) := by
  have hR := ringSize_pos ring.M
  -- the current node itself is one of the nodes behind the start of the finger
  have hmin := ring.successor_min (Int.emod_nonneg (current + 2 ^ i) (ne_of_gt hR))
    (Int.emod_lt_of_pos (current + 2 ^ i) hR) hcur
  have hself : dist (ringSize ring.M) current current = 0 := by
    rw [Clockwise.dist, sub_self, Int.zero_emod]
  have hpos : (0 : ℤ) < 2 ^ i := by positivity
  have hback := ring.dist_fingerStart current current hi
  rw [hself, if_neg (not_le.mpr hpos)] at hback
  by_contra hlt
  rw [hback, ring.dist_fingerStart _ _ hi, if_neg hlt] at hmin
  have hnn := dist_nonneg hR current
    (ring.successor ((current + 2 ^ i) % ringSize ring.M))
  -- a finger that leads round to less than `2 ^ i` has come back to the node
  have hzero : dist (ringSize ring.M) current
      (ring.successor ((current + 2 ^ i) % ringSize ring.M))
        = dist (ringSize ring.M) current current := by omega
  obtain ⟨hs0, hs1⟩ :=
    ring.inRange _ (ring.successor_mem ((current + 2 ^ i) % ringSize ring.M))
  obtain ⟨hc0, hc1⟩ := ring.inRange current hcur
  exact hne (dist_inj hs0 hs1 hc0 hc1 hzero)

/-- Finger `i` does not pass a node that is at least `2 ^ i` positions on. -/
theorem finger_near {current node : ℤ} (hnode : node ∈ ring.nodes) {i : ℕ} (hi : i < ring.M)
    (hle : 2 ^ i ≤ dist (ringSize ring.M) current node) :
    2 ^ i ≤ dist (ringSize ring.M) current
        (ring.successor ((current + 2 ^ i) % ringSize ring.M)) ∧
      dist (ringSize ring.M) current
          (ring.successor ((current + 2 ^ i) % ringSize ring.M))
        ≤ dist (ringSize ring.M) current node := by
  have hR := ringSize_pos ring.M
  have hmin := ring.successor_min (Int.emod_nonneg (current + 2 ^ i) (ne_of_gt hR))
    (Int.emod_lt_of_pos (current + 2 ^ i) hR) hnode
  have hnn := dist_nonneg hR current
    (ring.successor ((current + 2 ^ i) % ringSize ring.M))
  have hlt := dist_lt hR current node
  rw [ring.dist_fingerStart _ _ hi, ring.dist_fingerStart _ _ hi, if_pos hle] at hmin
  split_ifs at hmin with h
  · exact ⟨h, by omega⟩
  · omega

/-- `nextNode` leads at least as far as any finger that does not pass the nodes before the
key. -/
theorem nextNode_far {key current node : ℤ} (hcur : current ∈ ring.nodes)
    (hnode : node ∈ ring.nodes) (hbetween : Between (ringSize ring.M) node current key) {i : ℕ}
    (hi : i < ring.M) (hle : 2 ^ i ≤ dist (ringSize ring.M) current node) :
    2 ^ i ≤ dist (ringSize ring.M) current (ring.nextNode key current) := by
  obtain ⟨hfar, hnear⟩ := ring.finger_near hnode hi hle
  have hpos : (0 : ℤ) < 2 ^ i := by positivity
  have hqualifies : inInterval ring.M (ring.successor ((current + 2 ^ i) % ringSize ring.M))
      current key = true := by
    rw [inInterval_iff]
    exact ⟨by omega, lt_of_le_of_lt hnear hbetween.2⟩
  -- the finger found is finger `i` or a later one
  obtain ⟨j, hij, hj, hin, hfind⟩ := find_reverse_map_range
    (fun i => (i + 1, (current + 2 ^ i) % ringSize ring.M,
      ring.successor ((current + 2 ^ i) % ringSize ring.M)))
    (fun entry => inInterval ring.M entry.2.2 current key) hi hqualifies
  have hnext : ring.nextNode key current
      = ring.successor ((current + 2 ^ j) % ringSize ring.M) := by
    unfold nextNode fingerTable
    rw [hfind]
  rw [hnext]
  have hne := ((inInterval_iff _ _ _ _).mp hin).ne
  calc (2 : ℤ) ^ i ≤ 2 ^ j := pow_le_pow_right₀ (by norm_num) hij
    _ ≤ _ := ring.finger_far hcur hj hne

/-! ## The gap -/

/-- The last node before a key: from no node is it a shorter way to the key. -/
def Predecessor (key pred : ℤ) : Prop :=
  pred ∈ ring.nodes ∧ ∀ node ∈ ring.nodes,
    span (ringSize ring.M) pred key ≤ span (ringSize ring.M) node key

theorem exists_predecessor (key : ℤ) : ∃ pred, ring.Predecessor key pred := by
  have hne : ring.nodes.toFinset.Nonempty := List.toFinset_nonempty_iff _ |>.mpr ring.nonempty
  obtain ⟨pred, hmem, hmin⟩ :=
    Finset.exists_min_image ring.nodes.toFinset (fun node => span (ringSize ring.M) node key) hne
  refine ⟨pred, List.mem_toFinset.mp hmem, ?_⟩
  intro node hnode
  exact hmin node (List.mem_toFinset.mpr hnode)

/-- How much farther it is to the key from `current` than from the predecessor of the key. -/
def gap (key pred current : ℤ) : ℕ :=
  (span (ringSize ring.M) current key - span (ringSize ring.M) pred key).toNat

theorem gap_lt (key pred current : ℤ) : ring.gap key pred current < 2 ^ ring.M := by
  have hR := ringSize_pos ring.M
  have hle := span_le hR current key
  have hpos := span_pos hR pred key
  have hcast : ringSize ring.M = ((2 ^ ring.M : ℕ) : ℤ) := by simp [ringSize]
  unfold gap
  omega

/-- **A hop takes the top bit off the gap.** -/
theorem gap_halves {key pred current : ℤ} (hpred : ring.Predecessor key pred)
    (hcur : current ∈ ring.nodes)
    (hown : ¬ span (ringSize ring.M) current key
      ≤ span (ringSize ring.M) current (ring.firstFinger current)) {k : ℕ}
    (hgap : ring.gap key pred current < 2 ^ k) :
    ∃ j, k = j + 1 ∧ ring.gap key pred (ring.nextNode key current) < 2 ^ j := by
  have hR := ringSize_pos ring.M
  obtain ⟨hmem, hbetween⟩ := ring.nextNode_between hown
  have hspan := span_of_between hR hbetween
  -- the next node is closer to the key, so the predecessor is, and the gap is not zero
  have hcloser : span (ringSize ring.M) pred key < span (ringSize ring.M) current key := by
    have hmin := hpred.2 _ hmem
    have hdist := hbetween.1
    omega
  have hdist := dist_of_span_lt hR hcloser
  have hpos : ring.gap key pred current ≠ 0 := by
    unfold gap
    omega
  have hi : Nat.log 2 (ring.gap key pred current) < ring.M :=
    Nat.log_lt_of_lt_pow hpos (ring.gap_lt key pred current)
  have hlow := Nat.pow_log_le_self 2 hpos
  have hhigh := Nat.lt_pow_succ_log_self (b := 2) (by norm_num) (ring.gap key pred current)
  generalize Nat.log 2 (ring.gap key pred current) = i at hi hlow hhigh
  have hcast : ((2 ^ i : ℕ) : ℤ) = 2 ^ i := by simp
  have hfar := ring.nextNode_far hcur hpred.1 (between_of_span_lt hR hcloser) hi (by
    unfold gap at hlow
    omega)
  -- what is left is below `2 ^ i`, and `i < k`
  have hik : i < k := (Nat.pow_lt_pow_iff_right (by norm_num)).mp (lt_of_le_of_lt hlow hgap)
  refine ⟨k - 1, by omega, ?_⟩
  calc ring.gap key pred (ring.nextNode key current) < 2 ^ i := by
        unfold gap at hhigh ⊢
        rw [Nat.pow_succ] at hhigh
        omega
    _ ≤ 2 ^ (k - 1) := Nat.pow_le_pow_right (by norm_num) (by omega)

/-! ## The loop -/

/-- The current node is on the ring, and the passes so far have taken as many bits off the gap. -/
def HopsLeft (key pred : ℤ) (s : List ℤ × ℤ) : Prop :=
  s.2 ∈ ring.nodes ∧ ∃ k, ring.gap key pred s.2 < 2 ^ k ∧ s.1.length + k ≤ ring.M + 1

theorem lookupStep_hops {key pred : ℤ} (hpred : ring.Predecessor key pred) (s : List ℤ × ℤ)
    (hs : ring.HopsLeft key pred s) :
    Loop.Pass (ring.HopsLeft key pred) (fun s => ring.M + 1 - s.1.length)
      (fun r => r.1.length ≤ ring.M + 2) s (ring.lookupStep key s) := by
  obtain ⟨path, current⟩ := s
  obtain ⟨hcur, k, hgap, hlength⟩ := hs
  unfold lookupStep
  by_cases hown : span (ringSize ring.M) current key
      ≤ span (ringSize ring.M) current (ring.firstFinger current)
  · simp only [if_pos ((ring.owned_iff key current).mpr hown)]
    have hlength' : path.length + k ≤ ring.M + 1 := hlength
    show (path ++ [ring.firstFinger current]).length ≤ ring.M + 2
    rw [List.length_append, List.length_singleton]
    omega
  · obtain ⟨hmem, hbetween⟩ := ring.nextNode_between hown
    obtain ⟨j, rfl, hhalf⟩ := ring.gap_halves hpred hcur hown hgap
    simp only [if_neg (fun h => hown ((ring.owned_iff key current).mp h)),
      if_neg hbetween.ne]
    have hlength' : path.length + (j + 1) ≤ ring.M + 1 := hlength
    refine ⟨⟨hmem, j, hhalf, ?_⟩, ?_⟩
    · rw [List.length_append, List.length_singleton]
      omega
    · show ring.M + 1 - (path ++ [ring.nextNode key current]).length
        < ring.M + 1 - path.length
      rw [List.length_append, List.length_singleton]
      omega

/-- **Chord lookup takes at most `M + 1` hops**, and `M + 1` passes are enough. -/
theorem lookup_hops (key start : ℤ) (hstart : start ∈ ring.nodes) (fuel : ℕ)
    (hfuel : ring.M < fuel) :
    ∃ path, ring.lookup fuel key start = some path ∧ path.length ≤ ring.M + 2 ∧
      totalHops path ≤ ring.M + 1 := by
  obtain ⟨pred, hpred⟩ := ring.exists_predecessor key
  have hs : ring.HopsLeft key pred ([start], start) :=
    ⟨hstart, ring.M, ring.gap_lt key pred start, by simp [Nat.add_comm]⟩
  have hmeasure : ring.M + 1 - [start].length < fuel := by
    rw [List.length_singleton]
    omega
  obtain ⟨⟨path, exit⟩, hrun, hlength⟩ :=
    Loop.run_total (ring.HopsLeft key pred) (fun s => ring.M + 1 - s.1.length)
      (fun r : List ℤ × Exit => r.1.length ≤ ring.M + 2) (ring.lookupStep_hops hpred) hs hmeasure
  have hexit : ring.lookupExit fuel key start = some (path, exit) := hrun
  refine ⟨path, ?_, hlength, ?_⟩
  · rw [lookup, hexit]
    rfl
  · have hle : path.length ≤ ring.M + 2 := hlength
    unfold totalHops
    omega

end Ring

/-- The lookup of key 26 from node 1 takes four of the six hops allowed. -/
theorem lookup_hops_workshop :
    ∃ path, workshopRing.lookup 6 26 1 = some path ∧ path.length ≤ workshopRing.M + 2 ∧
      totalHops path ≤ workshopRing.M + 1 :=
  workshopRing.lookup_hops 26 1 (by decide) 6 (by decide)

end Chord
