import Mathlib.Data.Int.ConditionallyCompleteOrder
import Mathlib.Data.Int.Interval
import DistWorkshops.Chord.Hops
import DistWorkshops.Chord.Successor

/-!
# The keys of a node

A node answers for the keys behind the node before it, so as many as its distance from that node
(`card_keys`). The node list may be another one after some nodes have joined: a key then keeps its
node, or it has gone to a new node from the node that answered for the id of the new one
(`lookup_after_join`).
-/

set_option autoImplicit false

namespace Chord

namespace Ring

open Clockwise

variable (ring : Ring)

/-- The last node of the path of a lookup. -/
def answer (fuel : ℕ) (start key : ℤ) : Option ℤ := (ring.lookup fuel key start).bind List.getLast?

variable {ring}

/-- A lookup ends at the node that owns the key. -/
theorem answer_eq_some_iff {fuel : ℕ} {start : ℤ} (hstart : start ∈ ring.nodes)
    (hfuel : 2 ^ ring.M < fuel) (key owner : ℤ) :
    ring.answer fuel start key = some owner ↔ ring.Owner key owner := by
  have hs : ring.OnRing ([start], start) :=
    ⟨fun node hnode => List.mem_singleton.mp hnode ▸ hstart, hstart⟩
  have hmeasure : (span (ringSize ring.M) start key).toNat < fuel := by
    have hR := ringSize_pos ring.M
    have hle := span_le hR start key
    have hcast : ringSize ring.M = ((2 ^ ring.M : ℕ) : ℤ) := by simp [ringSize]
    omega
  obtain ⟨⟨path, exit⟩, hrun, -, -, found, hlast, hfound⟩ :=
    Loop.run_total ring.OnRing (fun s => (span (ringSize ring.M) s.2 key).toNat)
      (ring.Found key) (ring.lookupStep_pass key) hs hmeasure
  have hexit : ring.lookupExit fuel key start = some (path, exit) := hrun
  have hanswer : ring.answer fuel start key = some found := by
    rw [answer, lookup, hexit]
    exact hlast
  rw [hanswer, Option.some.injEq]
  constructor
  · rintro rfl
    exact hfound
  · exact hfound.unique ring

/-! ## The arc of a node -/

theorem span_of_ne {a b : ℤ} (ha : a ∈ ring.nodes) (hb : b ∈ ring.nodes) (hne : a ≠ b) :
    span (ringSize ring.M) a b = dist (ringSize ring.M) a b := by
  have hR := ringSize_pos ring.M
  obtain ⟨ha0, ha1⟩ := ring.inRange a ha
  obtain ⟨hb0, hb1⟩ := ring.inRange b hb
  have hdist : dist (ringSize ring.M) a b ≠ 0 := by
    rw [dist_eq ha0 ha1 hb0 hb1]
    split <;> omega
  rw [span_eq hR, if_neg hdist]

/-- A node owns the keys that are nearer to it than the node before it. -/
theorem owner_iff {key node pred : ℤ} (hnode : node ∈ ring.nodes)
    (hpred : ring.Predecessor node pred) : ring.Owner key node ↔
      dist (ringSize ring.M) key node < span (ringSize ring.M) pred node := by
  have hR := ringSize_pos ring.M
  constructor
  · rintro ⟨-, hmin⟩
    by_cases heq : pred = node
    · have hself : dist (ringSize ring.M) node node = 0 := by
        show (node - node) % ringSize ring.M = 0
        rw [sub_self, Int.zero_emod]
      rw [heq, span_eq hR, if_pos hself]
      exact dist_lt hR key node
    · -- a key that is farther away has the other node on its way
      have hspan := span_of_ne hpred.1 hnode heq
      have hpos := span_pos hR pred node
      by_contra hge
      have hlt := hmin pred hpred.1 heq
      have hdist := dist_of_dist_ge (a := key) (b := node) (x := pred) hR (by omega)
      omega
  · intro hlt
    refine ⟨hnode, fun other hother hne => ?_⟩
    by_contra hge
    have hspan := span_of_ne hother hnode hne
    have hdist := dist_of_dist_le (a := key) (b := node) (x := other) hR (by omega)
    have hmin := hpred.2 other hother
    have hnonneg := dist_nonneg hR key other
    omega

/-- **A node answers for as many keys as it lies behind the node before it.** -/
theorem card_keys {fuel : ℕ} {start node pred : ℤ} (hstart : start ∈ ring.nodes)
    (hfuel : 2 ^ ring.M < fuel) (hnode : node ∈ ring.nodes) (hpred : ring.Predecessor node pred) :
    (((Finset.Ico 0 (ringSize ring.M)).filter fun key =>
      ring.answer fuel start key = some node).card : ℤ) = span (ringSize ring.M) pred node := by
  have hR := ringSize_pos ring.M
  have hle := span_le hR pred node
  have hpos := span_pos hR pred node
  have hcard : ((Finset.Ico 0 (ringSize ring.M)).filter fun key =>
      ring.answer fuel start key = some node).card
        = (Finset.Ico 0 (span (ringSize ring.M) pred node)).card := by
    refine Finset.card_nbij' (fun key => dist (ringSize ring.M) key node)
      (fun d => (node - d) % ringSize ring.M) ?_ ?_ ?_ ?_
    · intro key hkey
      obtain ⟨-, hanswer⟩ := Finset.mem_filter.mp hkey
      rw [answer_eq_some_iff hstart hfuel, owner_iff hnode hpred] at hanswer
      exact Finset.mem_Ico.mpr ⟨dist_nonneg hR key node, hanswer⟩
    · intro d hd
      obtain ⟨hd0, hd1⟩ := Finset.mem_Ico.mp hd
      have hdist : dist (ringSize ring.M) ((node - d) % ringSize ring.M) node = d := by
        show (node - (node - d) % ringSize ring.M) % ringSize ring.M = d
        rw [Int.sub_emod_emod, sub_sub_cancel, Int.emod_eq_of_lt hd0 (by omega)]
      refine Finset.mem_filter.mpr ⟨Finset.mem_Ico.mpr ⟨Int.emod_nonneg _ hR.ne',
        Int.emod_lt_of_pos _ hR⟩, ?_⟩
      rwa [answer_eq_some_iff hstart hfuel, owner_iff hnode hpred, hdist]
    · intro key hkey
      obtain ⟨hkey, -⟩ := Finset.mem_filter.mp hkey
      obtain ⟨hk0, hk1⟩ := Finset.mem_Ico.mp hkey
      show (node - (node - key) % ringSize ring.M) % ringSize ring.M = key
      rw [Int.sub_emod_emod, sub_sub_cancel, Int.emod_eq_of_lt hk0 hk1]
    · intro d hd
      obtain ⟨hd0, hd1⟩ := Finset.mem_Ico.mp hd
      show (node - (node - d) % ringSize ring.M) % ringSize ring.M = d
      rw [Int.sub_emod_emod, sub_sub_cancel, Int.emod_eq_of_lt hd0 (by omega)]
  rw [hcard, Int.card_Ico, sub_zero]
  exact Int.toNat_of_nonneg hpos.le

/-! ## Nodes that join -/

variable {ring' : Ring}

/-- The nodes of another ring of the same size have joined. -/
structure Joined (ring ring' : Ring) : Prop where
  size : ring'.M = ring.M
  nodes : ∀ node ∈ ring.nodes, node ∈ ring'.nodes

/-- **Keys go to new nodes only, and from one node each.** After any nodes have joined, the lookup
of a key from any start ends where it did, or at a new node; in the latter case it ended before at
the node that the lookup of the new node's own id ends at. -/
theorem lookup_after_join (hjoined : Joined ring ring') {fuel : ℕ} {start start' : ℤ}
    (hstart : start ∈ ring.nodes) (hstart' : start' ∈ ring'.nodes) (hfuel : 2 ^ ring.M < fuel)
    (key : ℤ) :
    ∃ owner, ring'.answer fuel start' key = some owner ∧
      (owner ∈ ring.nodes → ring.answer fuel start key = some owner) ∧
      (owner ∉ ring.nodes → ring.answer fuel start key = ring.answer fuel start owner) := by
  have hfuel' : 2 ^ ring'.M < fuel := hjoined.size ▸ hfuel
  have howner' := ring'.owner_successor key
  set owner := ring'.successor (key % ringSize ring'.M) with howner
  refine ⟨owner, (answer_eq_some_iff hstart' hfuel' key owner).mpr howner', ?_, ?_⟩
  · intro hmem
    refine (answer_eq_some_iff hstart hfuel key owner).mpr ⟨hmem, fun node hnode hne => ?_⟩
    rw [← hjoined.size]
    exact howner'.2 node (hjoined.nodes node hnode) hne
  · intro hnew
    -- from the key the way to an old node leads over the new one
    have hway : ∀ node ∈ ring.nodes, dist (ringSize ring.M) key node
        = dist (ringSize ring.M) key owner + dist (ringSize ring.M) owner node := by
      intro node hnode
      have hne : node ≠ owner := fun heq => hnew (heq ▸ hnode)
      have hlt := howner'.2 node (hjoined.nodes node hnode) hne
      rw [hjoined.size] at hlt
      have hdist := dist_of_dist_le (ringSize_pos ring.M) hlt.le
      omega
    have hold := ring.owner_successor owner
    have hkey : ring.Owner key (ring.successor (owner % ringSize ring.M)) := by
      refine ⟨hold.1, fun node hnode hne => ?_⟩
      rw [hway node hnode, hway _ hold.1]
      exact Int.add_lt_add_left (hold.2 node hnode hne) _
    rw [(answer_eq_some_iff hstart hfuel owner _).mpr hold,
      (answer_eq_some_iff hstart hfuel key _).mpr hkey]

end Ring

/-! ## The ring of the module -/

/-- Node 9 follows node 4, and answers for five keys. -/
theorem card_keys_workshop :
    (((Finset.Ico 0 (ringSize workshopRing.M)).filter fun key =>
      workshopRing.answer 33 1 key = some 9).card : ℤ)
        = Clockwise.span (ringSize workshopRing.M) 4 9 :=
  Ring.card_keys (by decide) (by decide) (by decide) ⟨by decide, by decide⟩

/-- Node 16 has joined. -/
def largerRing : Ring where
  M := 5
  nodes := [1, 4, 9, 11, 14, 16, 18, 20, 21, 28]
  M_pos := workshopRing.M_pos
  nonempty := List.cons_ne_nil _ _
  sorted := by decide
  inRange := by decide

theorem lookup_after_join_workshop :
    ∃ owner, largerRing.answer 33 28 15 = some owner ∧
      (owner ∈ workshopRing.nodes → workshopRing.answer 33 1 15 = some owner) ∧
      (owner ∉ workshopRing.nodes →
        workshopRing.answer 33 1 15 = workshopRing.answer 33 1 owner) := by
  have hjoined : Ring.Joined workshopRing largerRing := ⟨rfl, by decide⟩
  have hstart : 1 ∈ workshopRing.nodes := by decide
  have hstart' : 28 ∈ largerRing.nodes := by decide
  have hfuel : 2 ^ workshopRing.M < 33 := by decide
  exact Ring.lookup_after_join hjoined hstart hstart' hfuel 15

end Chord
