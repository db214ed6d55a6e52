import DistWorkshops.Chord.Ring

/-!
# Chord lookup finds the owner of every key

What is left of the way to the key, `span (ringSize M) current key`, is the measure of the
loop: a hop to a finger between the current node and the key shortens it. While the next node
does not own the key it lies before the key itself, so finger 1 qualifies and the fallback
branch is never taken.
-/

set_option autoImplicit false

namespace Chord

namespace Ring

open Clockwise

variable (ring : Ring)

/-- The node responsible for a key: the one at the least clockwise distance from it. -/
def Owner (key owner : ℤ) : Prop :=
  owner ∈ ring.nodes ∧ ∀ node ∈ ring.nodes, node ≠ owner →
    dist (ringSize ring.M) key owner < dist (ringSize ring.M) key node

/-! ## One pass of the loop -/

/-- The test of the loop: the key lies behind the current node and up to the next one. -/
theorem owned_iff (key current : ℤ) :
    (key % ringSize ring.M = ring.firstFinger current ∨
        inInterval ring.M key current (ring.firstFinger current) = true) ↔
      span (ringSize ring.M) current key
        ≤ span (ringSize ring.M) current (ring.firstFinger current) := by
  have hR := ringSize_pos ring.M
  obtain ⟨hs0, hs1⟩ := ring.inRange _ (ring.firstFinger_mem current)
  rw [inInterval_iff, between_iff hR]
  constructor
  · rintro (h | h)
    · rw [← span_emod_right current key, h]
    · exact le_of_lt h
  · intro h
    rcases lt_or_eq_of_le h with hlt | heq
    · exact Or.inr hlt
    · rw [← span_emod_right current key] at heq
      exact Or.inl (span_inj (Int.emod_nonneg _ (ne_of_gt hR)) (Int.emod_lt_of_pos _ hR)
        hs0 hs1 heq)

/-- When the test succeeds, the next node owns the key. -/
theorem owner_of_owned {key current : ℤ}
    (h : span (ringSize ring.M) current key
      ≤ span (ringSize ring.M) current (ring.firstFinger current)) :
    ring.Owner key (ring.firstFinger current) := by
  have hR := ringSize_pos ring.M
  refine ⟨ring.firstFinger_mem current, fun node hnode hne => ?_⟩
  have hmin := ring.firstFinger_min current hnode
  obtain ⟨hs0, hs1⟩ := ring.inRange _ (ring.firstFinger_mem current)
  obtain ⟨hn0, hn1⟩ := ring.inRange node hnode
  rw [dist_of_span_le hR h, dist_of_span_le hR (le_trans h hmin)]
  have hstrict : span (ringSize ring.M) current (ring.firstFinger current)
      ≠ span (ringSize ring.M) current node := fun he =>
    hne (span_inj hs0 hs1 hn0 hn1 he).symm
  omega

/-- When the test fails, some finger lies strictly between the current node and the key, and
`nextNode` is such a finger. -/
theorem nextNode_between {key current : ℤ}
    (h : ¬ span (ringSize ring.M) current key
      ≤ span (ringSize ring.M) current (ring.firstFinger current)) :
    ring.nextNode key current ∈ ring.nodes ∧
      Between (ringSize ring.M) (ring.nextNode key current) current key := by
  have hR := ringSize_pos ring.M
  unfold nextNode
  cases hfind : (ring.fingerTable current).reverse.find?
      (fun entry => inInterval ring.M entry.2.2 current key) with
  | some entry =>
      have hmem := List.mem_of_find?_eq_some hfind
      have hbetween := List.find?_some hfind
      exact ⟨ring.fingerTable_target_mem (List.mem_reverse.mp hmem),
        (inInterval_iff _ _ _ _).mp hbetween⟩
  | none =>
      -- finger 1 would have been found
      have hfirst : (ring.fingerTable current).head (ring.fingerTable_ne_nil current)
          ∈ (ring.fingerTable current).reverse := List.mem_reverse.mpr (List.head_mem _)
      have hnot := List.find?_eq_none.mp hfind _ hfirst
      have hlt : span (ringSize ring.M) current (ring.firstFinger current)
          < span (ringSize ring.M) current key := by omega
      exact absurd ((inInterval_iff _ _ _ _).mpr ((between_iff hR _ _ _).mpr hlt)) hnot

/-! ## The loop -/

/-- The path so far consists of nodes of the ring, and the current node is one. -/
def OnRing (s : List ℤ × ℤ) : Prop := (∀ node ∈ s.1, node ∈ ring.nodes) ∧ s.2 ∈ ring.nodes

/-- A lookup that ended well: through the owner test, on nodes of the ring, at the owner. -/
def Found (key : ℤ) (r : List ℤ × Exit) : Prop :=
  r.2 = .owner ∧ (∀ node ∈ r.1, node ∈ ring.nodes) ∧
    ∃ owner, r.1.getLast? = some owner ∧ ring.Owner key owner

theorem lookupStep_pass (key : ℤ) (s : List ℤ × ℤ) (hs : ring.OnRing s) :
    Loop.Pass ring.OnRing (fun s => (span (ringSize ring.M) s.2 key).toNat) (ring.Found key)
      s (ring.lookupStep key s) := by
  obtain ⟨path, current⟩ := s
  obtain ⟨hpath, hcur⟩ := hs
  have hR := ringSize_pos ring.M
  unfold lookupStep
  by_cases hown : span (ringSize ring.M) current key
      ≤ span (ringSize ring.M) current (ring.firstFinger current)
  · -- the owner test succeeds: the path ends at the next node
    simp only [if_pos ((ring.owned_iff key current).mpr hown)]
    refine ⟨rfl, ?_, ring.firstFinger current, by simp, ring.owner_of_owned hown⟩
    intro node hnode
    rcases List.mem_append.mp hnode with h | h
    · exact hpath node h
    · rw [List.mem_singleton.mp h]
      exact ring.firstFinger_mem current
  · -- the owner test fails: the hop goes strictly forward, so this is not the fallback
    obtain ⟨hmem, hbetween⟩ := ring.nextNode_between hown
    simp only [if_neg (fun h => hown ((ring.owned_iff key current).mp h)),
      if_neg hbetween.ne]
    refine ⟨⟨?_, hmem⟩, ?_⟩
    · intro node hnode
      rcases List.mem_append.mp hnode with h | h
      · exact hpath node h
      · rw [List.mem_singleton.mp h]
        exact hmem
    · -- the hop shortens the rest of the way
      have hspan := span_of_between hR hbetween
      have hpos := span_pos hR (ring.nextNode key current) key
      have hdist := hbetween.1
      show (span (ringSize ring.M) (ring.nextNode key current) key).toNat
        < (span (ringSize ring.M) current key).toNat
      omega

/-- **Chord lookup is correct and total.** From every node and for every integer key,
`2 ^ M + 1` passes are enough: the loop ends through the owner test and never through the
fallback, and the path runs over nodes of the ring and ends at the node that minimises the
clockwise distance from the key. -/
theorem lookup_correct (key start : ℤ) (hstart : start ∈ ring.nodes) (fuel : ℕ)
    (hfuel : 2 ^ ring.M < fuel) :
    ∃ path owner, ring.lookupExit fuel key start = some (path, .owner) ∧
      ring.lookup fuel key start = some path ∧ path.getLast? = some owner ∧
      ring.Owner key owner ∧ ∀ node ∈ path, node ∈ ring.nodes := by
  have hR := ringSize_pos ring.M
  have hs : ring.OnRing ([start], start) := ⟨by simpa using hstart, hstart⟩
  -- a walk of at least one step is at most a full turn long
  have hmeasure : (span (ringSize ring.M) start key).toNat < fuel := by
    have hle := span_le hR start key
    have hcast : ringSize ring.M = ((2 ^ ring.M : ℕ) : ℤ) := by simp [ringSize]
    omega
  obtain ⟨⟨path, exit⟩, hrun, rfl, hnodes, owner, hlast, howner⟩ :=
    Loop.run_total ring.OnRing (fun s => (span (ringSize ring.M) s.2 key).toNat)
      (ring.Found key) (ring.lookupStep_pass key) hs hmeasure
  have hexit : ring.lookupExit fuel key start = some (path, .owner) := hrun
  refine ⟨path, owner, hexit, ?_, hlast, howner, hnodes⟩
  rw [lookup, hexit]
  rfl

end Ring

/-- The ring of the module: five bits, nine nodes. -/
def workshopRing : Ring where
  M := 5
  nodes := [1, 4, 9, 11, 14, 18, 20, 21, 28]
  M_pos := by decide
  nonempty := by decide
  sorted := by decide
  inRange := by decide

/-- The lookup of key 26 from node 1, the first one the module prints. -/
theorem lookup_correct_workshop :
    ∃ path owner, workshopRing.lookupExit 33 26 1 = some (path, .owner) ∧
      workshopRing.lookup 33 26 1 = some path ∧ path.getLast? = some owner ∧
      workshopRing.Owner 26 owner ∧ ∀ node ∈ path, node ∈ workshopRing.nodes :=
  workshopRing.lookup_correct 26 1 (by decide) 33 (by decide)

example : workshopRing.lookup 33 26 1 = some [1, 18, 20, 21, 28] := by decide

end Chord
