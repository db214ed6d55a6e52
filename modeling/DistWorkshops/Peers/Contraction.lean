import DistWorkshops.Peers.Network

/-!
# One cycle of every node contracts the spread

In a run in which every node completes exactly one cycle and every request is answered, node
`i` ends at the average of its old skew and of one reading of every other node. `Tracks` keeps
these readings along the run: but for its error, a reading of `j` is the old skew of `j`, or the
new one when `j` had finished before; and two nodes cannot both have read the other after it
finished, since a node asks before it finishes itself. The bound is then
`Averaging.Readings.contraction`. When requests take no time, there is no error.
-/

set_option autoImplicit false

namespace Peers

open Averaging

variable {n : ℕ}

/-! ## The peers of a node -/

theorem mem_allOthers {i j : Fin n} : j ∈ allOthers i ↔ j ≠ i := by
  simp [allOthers]

theorem allOthers_nodup (i : Fin n) : (allOthers i).Nodup :=
  (List.nodup_finRange n).filter _

/-- Nobody asks itself, and nobody asks a peer twice. -/
theorem peer_of_split {i peer : Fin n} {asked todo : List (Fin n)}
    (hsplit : allOthers i = asked ++ peer :: todo) : peer ≠ i ∧ peer ∉ asked := by
  have hmem : peer ∈ allOthers i := by
    rw [hsplit]
    simp
  refine ⟨mem_allOthers.mp hmem, fun hin => ?_⟩
  have hnd := allOthers_nodup i
  rw [hsplit] at hnd
  exact (List.disjoint_of_nodup_append hnd) hin (by simp)

theorem allOthers_sum (f : Fin n → ℚ) (i : Fin n) :
    f i + ((allOthers i).map f).sum = ∑ j, f j := by
  have hset : (allOthers i).toFinset = Finset.univ.erase i := by
    ext j
    simp [mem_allOthers]
  rw [← List.sum_toFinset f (allOthers_nodup i), hset]
  exact Finset.add_sum_erase _ f (Finset.mem_univ i)

theorem allOthers_length (i : Fin n) : (allOthers i).length + 1 = n := by
  have h := allOthers_sum (fun _ => 1) i
  simp only [List.map_const', List.sum_replicate, nsmul_eq_mul, mul_one, Finset.sum_const,
    Finset.card_univ, Fintype.card_fin] at h
  have h' : ((allOthers i).length : ℚ) + 1 = n := by linarith
  exact_mod_cast h'

/-! ## The readings along a run -/

/-- The readings `y` of the first cycles, in a network that started with the skews `x`. -/
structure Tracks (slack : ℚ) (x : Fin n → ℚ) (net : Network n) (y : Fin n → Fin n → ℚ) :
    Prop where
  own : ∀ i, y i i = x i
  /-- A node in its first cycle still has its old skew. -/
  before : ∀ i, net.cycles i = 0 → net.skews i = x i
  /-- Its samples are its own time and its readings of the peers asked so far. -/
  samples : ∀ i own samples todo, net.cycles i = 0 → net.phase i = .asking own samples todo →
    ∃ asked, allOthers i = asked ++ todo ∧ samples = x i :: asked.map (y i)
  /-- After its first cycle it has the average of its readings. -/
  after : ∀ i, net.cycles i = 1 → (n : ℚ) * net.skews i = ∑ j, y i j
  oldOrNew : ∀ i j, Near slack (x j) (y i j) ∨
    (net.cycles j = 1 ∧ Near slack (net.skews j) (y i j))
  notBothNew : ∀ i j, i ≠ j → Near slack (x j) (y i j) ∨ Near slack (x i) (y j i)

theorem init_tracks {slack : ℚ} {net : Network n} (hslack : 0 ≤ slack)
    (hidle : ∀ i, net.phase i = .idle) (hzero : ∀ i, net.cycles i = 0) :
    Tracks slack net.skews net (fun _ j => net.skews j) := by
  have hexact : ∀ v : ℚ, Near slack v v := fun v => by
    rw [Near, sub_self, abs_zero]
    exact hslack
  refine ⟨fun i => rfl, fun i _ => rfl, ?_, ?_, fun i j => Or.inl (hexact _),
    fun i j _ => Or.inl (hexact _)⟩
  · intro i own samples todo _ hp
    rw [hidle i] at hp
    cases hp
  · intro i hc
    rw [hzero i] at hc
    cases hc

theorem Tracks.mono {slack slack' : ℚ} {x : Fin n → ℚ} {net : Network n}
    {y : Fin n → Fin n → ℚ} (ht : Tracks slack x net y) (h : slack ≤ slack') :
    Tracks slack' x net y where
  own := ht.own
  before := ht.before
  samples := ht.samples
  after := ht.after
  oldOrNew := fun i j => (ht.oldOrNew i j).imp h.trans' fun hnew => ⟨hnew.1, hnew.2.trans h⟩
  notBothNew := fun i j hij => (ht.notBothNew i j hij).imp h.trans' h.trans'

/-! ## Steps -/

theorem update_pair_self (y : Fin n → Fin n → ℚ) (i j : Fin n) (v : ℚ) :
    Function.update y i (Function.update (y i) j v) i j = v := by
  rw [Function.update_self, Function.update_self]

theorem update_pair_of_ne (y : Fin n → Fin n → ℚ) {i j k l : Fin n} (v : ℚ)
    (h : k ≠ i ∨ l ≠ j) : Function.update y i (Function.update (y i) j v) k l = y k l := by
  by_cases hk : k = i
  · subst hk
    rw [Function.update_self, Function.update_of_ne (h.resolve_left (fun hne => hne rfl))]
  · rw [Function.update_of_ne hk]

section Steps

variable {slack : ℚ} {x : Fin n → ℚ} {net : Network n} {y : Fin n → Fin n → ℚ} {i : Fin n}

/-- Reading one's own time starts the samples. -/
theorem Tracks.read (ht : Tracks slack x net y) :
    Tracks slack x (net.setPhase i (.asking (net.skews i) [net.skews i] (allOthers i))) y := by
  refine ⟨ht.own, ht.before, fun j own samples todo hc hp => ?_, ht.after, ht.oldOrNew,
    ht.notBothNew⟩
  rw [Network.setPhase_phase] at hp
  by_cases hj : j = i
  · subst hj
    rw [Function.update_self] at hp
    obtain ⟨-, rfl, rfl⟩ := Phase.asking.inj hp
    exact ⟨[], rfl, by rw [ht.before j hc]; rfl⟩
  · rw [Function.update_of_ne hj] at hp
    exact ht.samples j own samples todo hc hp

/-- An answer in a later cycle is not one of the readings. -/
theorem Tracks.answered_later (ht : Tracks slack x net y) {phase : Phase n}
    (hc : net.cycles i ≠ 0) : Tracks slack x (net.setPhase i phase) y := by
  refine ⟨ht.own, ht.before, fun j own samples todo hcj hp => ?_, ht.after, ht.oldOrNew,
    ht.notBothNew⟩
  have hj : j ≠ i := by
    rintro rfl
    exact hc hcj
  rw [Network.setPhase_phase, Function.update_of_ne hj] at hp
  exact ht.samples j own samples todo hcj hp

/-- A node answers with its old skew in its first cycle and with its new one after it. -/
theorem Tracks.skew_read (ht : Tracks slack x net y) (hle : ∀ j, net.cycles j ≤ 1)
    (peer : Fin n) : net.skews peer = x peer ∨ net.cycles peer = 1 := by
  rcases Nat.lt_or_ge (net.cycles peer) 1 with h | h
  · exact Or.inl (ht.before peer (by omega))
  · exact Or.inr (Nat.le_antisymm (hle peer) h)

/-- Nobody has read the new skew of a node that is in its first cycle. -/
theorem Tracks.unread (ht : Tracks slack x net y) (hc : net.cycles i = 0) (k : Fin n) :
    Near slack (x i) (y k i) := by
  rcases ht.oldOrNew k i with h | ⟨h, -⟩
  · exact h
  · omega

/-! In the next lemmas `y'` is `y` with the one reading that `i` takes of `peer`. -/

section Reading

variable {y' : Fin n → Fin n → ℚ} {peer : Fin n} {sample : ℚ}
  (hother : ∀ k j, k ≠ i ∨ j ≠ peer → y' k j = y k j) (hnew : y' i peer = sample)

include hother

section Sample

include hnew

theorem Tracks.samples_answered (ht : Tracks slack x net y) {own : ℚ} {samples : List ℚ}
    {todo : List (Fin n)} (hc : net.cycles i = 0)
    (hp : net.phase i = .asking own samples (peer :: todo))
    (k : Fin n) (own' : ℚ) (samples' : List ℚ) (todo' : List (Fin n)) (hck : net.cycles k = 0)
    (hk : (net.setPhase i (.asking own (samples ++ [sample]) todo)).phase k =
      .asking own' samples' todo') :
    ∃ asked, allOthers k = asked ++ todo' ∧ samples' = x k :: asked.map (y' k) := by
  rw [Network.setPhase_phase] at hk
  by_cases hki : k = i
  · subst hki
    obtain ⟨asked, hsplit, hsamples⟩ := ht.samples k own samples (peer :: todo) hc hp
    obtain ⟨-, hnot⟩ := peer_of_split hsplit
    rw [Function.update_self] at hk
    obtain ⟨-, rfl, rfl⟩ := Phase.asking.inj hk
    refine ⟨asked ++ [peer], by rw [hsplit]; simp, ?_⟩
    have hsame : asked.map (y' k) = asked.map (y k) :=
      List.map_congr_left fun j hj => hother k j (Or.inr fun he => hnot (he ▸ hj))
    rw [hsamples, List.map_append, hsame, List.map_singleton, hnew, List.cons_append]
  · rw [Function.update_of_ne hki] at hk
    obtain ⟨asked, hsplit, hsamples⟩ := ht.samples k own' samples' todo' hck hk
    refine ⟨asked, hsplit, ?_⟩
    rw [hsamples]
    exact congrArg _ (List.map_congr_left fun j _ => (hother k j (Or.inl hki)).symm)

theorem Tracks.oldOrNew_answered (ht : Tracks slack x net y) (hle : ∀ j, net.cycles j ≤ 1)
    (hnear : Near slack (net.skews peer) sample) (k j : Fin n) :
    Near slack (x j) (y' k j) ∨ (net.cycles j = 1 ∧ Near slack (net.skews j) (y' k j)) := by
  by_cases hkj : k = i ∧ j = peer
  · obtain ⟨rfl, rfl⟩ := hkj
    rw [hnew]
    rcases ht.skew_read hle j with h | h
    · exact Or.inl (h ▸ hnear)
    · exact Or.inr ⟨h, hnear⟩
  · rw [hother k j (by tauto)]
    exact ht.oldOrNew k j

end Sample

/-- `i` has not finished its first cycle, so the peer cannot have read its new skew. -/
theorem Tracks.notBothNew_answered (ht : Tracks slack x net y) (hc : net.cycles i = 0)
    (k j : Fin n) (hkj : k ≠ j) : Near slack (x j) (y' k j) ∨ Near slack (x k) (y' j k) := by
  by_cases h1 : k = i ∧ j = peer
  · obtain ⟨rfl, rfl⟩ := h1
    rw [hother j k (Or.inl hkj.symm)]
    exact Or.inr (ht.unread hc j)
  · by_cases h2 : j = i ∧ k = peer
    · obtain ⟨rfl, rfl⟩ := h2
      rw [hother k j (Or.inl hkj)]
      exact Or.inl (ht.unread hc k)
    · rw [hother k j (by tauto), hother j k (by tauto)]
      exact ht.notBothNew k j hkj

end Reading

/-- An answer in the first cycle of `i` is the reading of the peer that answered. -/
theorem Tracks.answered (ht : Tracks slack x net y) (hle : ∀ j, net.cycles j ≤ 1)
    {peer : Fin n} {own sample : ℚ} {samples : List ℚ} {todo : List (Fin n)}
    (hc : net.cycles i = 0) (hp : net.phase i = .asking own samples (peer :: todo))
    (hnear : Near slack (net.skews peer) sample) :
    Tracks slack x (net.setPhase i (.asking own (samples ++ [sample]) todo))
      (Function.update y i (Function.update (y i) peer sample)) := by
  obtain ⟨asked, hsplit, -⟩ := ht.samples i own samples (peer :: todo) hc hp
  obtain ⟨hpi, -⟩ := peer_of_split hsplit
  have hother : ∀ k j, k ≠ i ∨ j ≠ peer →
      Function.update y i (Function.update (y i) peer sample) k j = y k j :=
    fun k j => update_pair_of_ne y sample
  have hnew : Function.update y i (Function.update (y i) peer sample) i peer = sample :=
    update_pair_self y i peer sample
  generalize Function.update y i (Function.update (y i) peer sample) = y' at *
  have hreadings : ∀ k j, Near slack (x j) (y' k j) ∨
      (net.cycles j = 1 ∧ Near slack (net.skews j) (y' k j)) :=
    ht.oldOrNew_answered hother hnew hle hnear
  refine ⟨fun k => ?_, ht.before, ht.samples_answered hother hnew hc hp, fun k hck => ?_,
    hreadings, ht.notBothNew_answered hother hc⟩
  · rw [hother k k ?_]
    · exact ht.own k
    · by_cases hk : k = i
      · exact Or.inr (hk ▸ hpi.symm)
      · exact Or.inl hk
  · -- `i` itself has not finished a cycle
    have hki : k ≠ i := by
      rintro rfl
      rw [Network.setPhase_cycles] at hck
      omega
    rw [Finset.sum_congr rfl (fun j _ => hother k j (Or.inl hki))]
    exact ht.after k hck

/-- Once every peer has answered, the samples are those of all `n` nodes, and the adjustment
moves the node to the average of its readings. -/
theorem Tracks.average (ht : Tracks slack x net y) (hn : 2 ≤ n) {own : ℚ} {samples : List ℚ}
    (hc : net.cycles i = 0) (hp : net.phase i = .asking own samples [])
    (hown : own = net.skews i) :
    (n : ℚ) * (net.skews i +
      (if samples.length = 1 then 0 else samples.sum / samples.length - own)) = ∑ j, y i j := by
  obtain ⟨asked, hsplit, hsamples⟩ := ht.samples i own samples [] hc hp
  rw [List.append_nil] at hsplit
  have hlen : samples.length = n := by
    rw [hsamples, ← hsplit, List.length_cons, List.length_map, allOthers_length]
  have hsum : samples.sum = ∑ j, y i j := by
    rw [hsamples, ← hsplit, List.sum_cons, ← ht.own i]
    exact allOthers_sum (y i) i
  have hpos : (0 : ℚ) < n := by exact_mod_cast (by omega : 0 < n)
  rw [if_neg (by omega), hlen, hsum, hown]
  field_simp
  ring

/-- At the end of its first cycle the node moves to the average of its readings. -/
theorem Tracks.adjust (ht : Tracks slack x net y) (hn : 2 ≤ n) {own : ℚ} {samples : List ℚ}
    {node : Node} (hc : net.cycles i = 0) (hp : net.phase i = .asking own samples [])
    (hown : own = net.skews i)
    (hnode : node.skew = net.skews i +
      (if samples.length = 1 then 0 else samples.sum / samples.length - own)) :
    Tracks slack x (net.endCycle i node) y := by
  have hnew : (n : ℚ) * node.skew = ∑ j, y i j := by
    rw [hnode]
    exact ht.average hn hc hp hown
  have hskews : ∀ j, j ≠ i → (net.endCycle i node).skews j = net.skews j := by
    intro j hj
    rw [Network.endCycle_skews, Function.update_of_ne hj]
  have hcycles : ∀ j, j ≠ i → (net.endCycle i node).cycles j = net.cycles j := by
    intro j hj
    rw [Network.endCycle_cycles, Function.update_of_ne hj]
  have hcyclei : (net.endCycle i node).cycles i = 1 := by
    rw [Network.endCycle_cycles, Function.update_self, hc]
  refine ⟨ht.own, fun j hcj => ?_, fun j own' samples' todo' hcj hj => ?_, fun j hcj => ?_,
    fun k j => ?_, ht.notBothNew⟩
  · have hj : j ≠ i := by
      rintro rfl
      omega
    rw [hskews j hj]
    rw [hcycles j hj] at hcj
    exact ht.before j hcj
  · have hji : j ≠ i := by
      rintro rfl
      omega
    rw [Network.endCycle_phase, Function.update_of_ne hji] at hj
    rw [hcycles j hji] at hcj
    exact ht.samples j own' samples' todo' hcj hj
  · by_cases hji : j = i
    · subst hji
      rw [Network.endCycle_skews, Function.update_self]
      exact hnew
    · rw [hskews j hji]
      rw [hcycles j hji] at hcj
      exact ht.after j hcj
  · rcases ht.oldOrNew k j with h | ⟨h1, h2⟩
    · exact Or.inl h
    · have hji : j ≠ i := by
        rintro rfl
        omega
      rw [hcycles j hji, hskews j hji]
      exact Or.inr ⟨h1, h2⟩

end Steps

/-- **One answered step keeps the readings**, as long as nobody completes a second cycle. -/
theorem step_tracks (hn : 2 ≤ n) {slack : ℚ} {x : Fin n → ℚ} {lo hi : ℚ} {net net' : Network n}
    {act : Act n} (hact : ∀ i, act ≠ .unanswered i) (hstep : Step allOthers slack net net' act)
    (hh : InHull slack lo hi net) (hle' : ∀ i, net'.cycles i ≤ 1)
    (ht : (∀ i, net.cycles i ≤ 1) → ∃ y, Tracks slack x net y) :
    ∃ y, Tracks slack x net' y := by
  -- no step lowers a cycle count
  have hle : ∀ i, net.cycles i ≤ 1 := by
    intro j
    have hj := hle' j
    cases hstep with
    | read i hp hs => rwa [hs] at hj
    | answered i peer own samples todo sample hp hnear hs => rwa [hs] at hj
    | unanswered i peer own samples todo hp hs => rwa [hs] at hj
    | adjust i own samples node hp hnode hs =>
        rw [hs, Network.endCycle_cycles] at hj
        by_cases hji : j = i
        · rw [hji, Function.update_self] at hj
          rw [hji]
          omega
        · rwa [Function.update_of_ne hji] at hj
  obtain ⟨y, ht⟩ := ht hle
  cases hstep with
  | read i hp hs => exact ⟨y, hs ▸ ht.read⟩
  | answered i peer own samples todo sample hp hnear hs =>
      by_cases hc : net.cycles i = 0
      · exact ⟨_, hs ▸ ht.answered hle hc hp hnear⟩
      · exact ⟨y, hs ▸ ht.answered_later hc⟩
  | unanswered i peer own samples todo hp hs => exact absurd rfl (hact i)
  | adjust i own samples node hp hnode hs =>
      have hc : net.cycles i = 0 := by
        have hi := hle' i
        rw [hs, Network.endCycle_cycles, Function.update_self] at hi
        omega
      obtain ⟨hown, hne, -⟩ := hh.samples i own samples [] hp
      exact ⟨y, hs ▸ ht.adjust hn hc hp hown (hnode hne)⟩

/-- Once every node has moved to the average of its readings, the spread has contracted. -/
theorem Tracks.spread_le [NeZero n] {slack : ℚ} {start net : Network n} {width lo hi : ℚ}
    {y : Fin n → Fin n → ℚ} (ht : Tracks slack start.skews net y)
    (hstart : InHull slack lo hi start) (hend : InHull slack lo hi net)
    (hone : ∀ i, net.cycles i = 1) (hwidth : hi - lo + slack ≤ width) :
    spread net.skews ≤ (((n : ℚ) - 1) / n) ^ 2 * width + 2 * slack := by
  have hreadings : Readings slack start.skews net.skews y := by
    refine ⟨ht.own, fun i j => ?_, ht.notBothNew, fun i => ?_⟩
    · exact (ht.oldOrNew i j).imp_right And.right
    · rw [Fintype.card_fin]
      exact ht.after i (hone i)
  have hbound : ∀ i j k, |y i k - start.skews j| ≤ width := by
    intro i j k
    have hj := hstart.skews j
    have hk : lo - slack ≤ y i k ∧ y i k ≤ hi + slack := by
      rcases hreadings.oldOrNew i k with h | h
      · obtain ⟨hlow, hhigh⟩ := abs_le.mp h
        exact ⟨by linarith [(hstart.skews k).1], by linarith [(hstart.skews k).2]⟩
      · obtain ⟨hlow, hhigh⟩ := abs_le.mp h
        exact ⟨by linarith [(hend.skews k).1], by linarith [(hend.skews k).2]⟩
    rw [abs_le]
    constructor <;> linarith [hj.1, hj.2, hk.1, hk.2]
  refine Averaging.spread_le fun p q => ?_
  have h := hreadings.contraction hbound p q
  rwa [Fintype.card_fin] at h

/-- **Peer clock averaging contracts geometrically.** Start with no node in mid-cycle; let
every request be answered and every node complete exactly one cycle, in any interleaving of
the steps. The spread of the skews afterwards is at most `((n - 1) / n) ^ 2` times the spread
before. -/
theorem spread_contracts [NeZero n] (hn : 2 ≤ n) (now : ℚ) (net net' : Network n)
    (acts : List (Act n)) (hidle : ∀ i, net.phase i = .idle) (hzero : ∀ i, net.cycles i = 0)
    (hanswered : ∀ i, .unanswered i ∉ acts)
    (hrun : run allOthers now net acts = some net') (hone : ∀ i, net'.cycles i = 1) :
    spread net'.skews ≤ (((n : ℚ) - 1) / n) ^ 2 * spread net.skews := by
  set lo := Finset.univ.inf' Finset.univ_nonempty net.skews with hlo
  set hi := Finset.univ.sup' Finset.univ_nonempty net.skews with hhi
  have hspread : hi - lo = spread net.skews := rfl
  have hidle' := Network.relative_idle (fun _ => now) hidle
  have hstart : InHull 0 lo hi (net.relative fun _ => now) := idle_inHull 0 hidle'
  -- the hull needs no bound on the cycles; the readings do, and the bound holds at the end
  have hend := run_invariant
    (fun m => InHull 0 lo hi (m.relative fun _ => now) ∧ ((∀ i, m.cycles i ≤ 1) →
      ∃ y, Tracks 0 net.skews (m.relative fun _ => now) y))
    (fun m m' act hmem hstep hm => ⟨step_inHull_exact hstep hm.1, fun hle =>
      step_tracks hn (fun i he => hanswered i (he ▸ hmem)) hstep hm.1 hle hm.2⟩)
    hrun ⟨hstart, fun _ => ⟨_, init_tracks le_rfl hidle' hzero⟩⟩
  obtain ⟨hhull, hy⟩ := hend
  obtain ⟨y, ht⟩ := hy (fun i => Nat.le_of_eq (hone i))
  have htracks : Tracks 0 (net.relative fun _ => now).skews (net'.relative fun _ => now) y := ht
  have h := htracks.spread_le hstart hhull hone
    (add_zero (hi - lo)).le
  rwa [hspread, mul_zero, add_zero] at h

/-- Two nodes one second apart, which ask each other before either adjusts. -/
theorem spread_contracts_two :
    let net : Network 2 := ⟨fun i => ⟨i.val, 0⟩, fun _ => .idle, fun _ => 0⟩
    ∃ net', run allOthers 1000 net
        [.read 0, .read 1, .answered 0, .answered 1, .adjust 0, .adjust 1] = some net' ∧
      spread net'.skews ≤ ((((2 : ℕ) : ℚ) - 1) / (2 : ℕ)) ^ 2 * spread net.skews := by
  intro net
  have hcycles : (run allOthers 1000 net
      [.read 0, .read 1, .answered 0, .answered 1, .adjust 0, .adjust 1]).map
        (fun net' => (net'.cycles 0, net'.cycles 1)) = some (1, 1) := by decide +kernel
  obtain ⟨net', hrun, hpair⟩ := Option.map_eq_some_iff.mp hcycles
  have hone : ∀ i, net'.cycles i = 1 :=
    Fin.forall_fin_two.mpr ⟨congrArg Prod.fst hpair, congrArg Prod.snd hpair⟩
  exact ⟨net', hrun, spread_contracts (by decide) 1000 net net' _ (fun _ => rfl) (fun _ => rfl)
    (by decide) hrun hone⟩

end Peers
