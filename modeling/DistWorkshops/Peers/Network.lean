import Mathlib.Logic.Function.Basic
import Mathlib.Data.List.FinRange
import DistWorkshops.Lib.Averaging
import DistWorkshops.Peers.Node

/-!
# A network of peers

The nodes of `run_peers.py`, each in a thread of its own. A cycle of a node is several steps:
it reads its own time, asks its peers one by one and adjusts its clock; the steps of different
nodes interleave in any order. Requests take no time here, so the time of the operating system
is a constant and a sample is the current time of the peer that answers.

A node that adjusts moves to the average of samples it has taken earlier, when other nodes may
have had other skews. All of these skews lie in the hull of the first ones, so no interleaving
spreads the clocks further (`skews_stay_in_hull`).

What a step does is stated from the time at which a node has read its own clock on (`Step`), with
samples that may be off by some `slack`: none here, and what the requests take in `Drift`.
-/

set_option autoImplicit false

namespace Peers

open Averaging

variable {n : ℕ}

/-- Where a node is in its cycle. -/
inductive Phase (n : ℕ) where
  | idle
  | asking (ownTime : ℚ) (samples : List ℚ) (todo : List (Fin n))

structure Network (n : ℕ) where
  nodes : Fin n → Node
  phase : Fin n → Phase n
  /-- The number of cycles each node has completed. -/
  cycles : Fin n → ℕ

/-- The skews of the nodes. -/
def Network.skews (net : Network n) (i : Fin n) : ℚ := (net.nodes i).skew

def Network.setPhase (net : Network n) (i : Fin n) (phase : Phase n) : Network n :=
  { net with phase := Function.update net.phase i phase }

/-- The end of a cycle of the node `i`, whose clock is now `node`. -/
def Network.endCycle (net : Network n) (i : Fin n) (node : Node) : Network n where
  nodes := Function.update net.nodes i node
  phase := Function.update net.phase i .idle
  cycles := Function.update net.cycles i (net.cycles i + 1)

/-- The peers `build_nodes` gives to a node: all the others, by port. -/
def allOthers (i : Fin n) : List (Fin n) := (List.finRange n).filter (fun j => j ≠ i)

/-- The steps of a node. A request is answered and passes the checks, or it is not used. -/
inductive Act (n : ℕ) where
  | read (i : Fin n)
  | answered (i : Fin n)
  | unanswered (i : Fin n)
  | adjust (i : Fin n)
  deriving DecidableEq, Repr

/-- One step at the time `now`; `none` when the node is not at such a step. -/
def step (peers : Fin n → List (Fin n)) (now : ℚ) (net : Network n) :
    Act n → Option (Network n)
  | .read i =>
      match net.phase i with
      | .idle =>
          let ownTime := (net.nodes i).localTime now
          some (net.setPhase i (.asking ownTime [ownTime] (peers i)))
      | .asking _ _ _ => none
  | .answered i =>
      match net.phase i with
      | .asking ownTime samples (peer :: todo) =>
          match (askPeer (net.nodes i) now (.answer 0 (net.nodes peer))).1 with
          | some peerTime =>
              some (net.setPhase i (.asking ownTime (samples ++ [peerTime]) todo))
          | none => none
      | _ => none
  | .unanswered i =>
      match net.phase i with
      | .asking ownTime samples (_ :: todo) =>
          some (net.setPhase i (.asking ownTime samples todo))
      | _ => none
  | .adjust i =>
      match net.phase i with
      | .asking ownTime samples [] =>
          let node := match correction ownTime samples with
            | none => net.nodes i
            | some delta => (net.nodes i).adjust delta
          some (net.endCycle i node)
      | _ => none

/-- An interleaving: the steps of all nodes in the order in which they happen. -/
def run (peers : Fin n → List (Fin n)) (now : ℚ) (net : Network n) (acts : List (Act n)) :
    Option (Network n) :=
  acts.foldlM (step peers now) net

/-! ## What a step does -/

namespace Network

@[simp] theorem setPhase_skews (net : Network n) (i : Fin n) (phase : Phase n) :
    (net.setPhase i phase).skews = net.skews := rfl

@[simp] theorem setPhase_cycles (net : Network n) (i : Fin n) (phase : Phase n) :
    (net.setPhase i phase).cycles = net.cycles := rfl

theorem setPhase_phase (net : Network n) (i : Fin n) (phase : Phase n) :
    (net.setPhase i phase).phase = Function.update net.phase i phase := rfl

theorem endCycle_skews (net : Network n) (i : Fin n) (node : Node) :
    (net.endCycle i node).skews = Function.update net.skews i node.skew := by
  funext j
  by_cases hj : j = i
  · subst hj
    simp [skews, endCycle]
  · simp [skews, endCycle, hj]

theorem endCycle_phase (net : Network n) (i : Fin n) (node : Node) :
    (net.endCycle i node).phase = Function.update net.phase i .idle := rfl

theorem endCycle_cycles (net : Network n) (i : Fin n) (node : Node) :
    (net.endCycle i node).cycles = Function.update net.cycles i (net.cycles i + 1) := rfl

end Network

/-- An accepted answer that takes no time is the peer's current time. -/
theorem askPeer_instant {node peer : Node} {now t : ℚ}
    (h : (askPeer node now (.answer 0 peer)).1 = some t) : t = now + peer.skew := by
  rw [askPeer_answer] at h
  have hsample := received_eq h
  rw [zero_div, add_zero, sub_self, zero_div, add_zero] at hsample
  exact hsample.trans (Node.localTime_eq peer now)

/-! ## Readings from the time of the own reading on -/

/-- The readings of a cycle, counted from the time `base` on. -/
def Phase.relative (base : ℚ) : Phase n → Phase n
  | .idle => .idle
  | .asking ownTime samples todo => .asking (ownTime - base) (samples.map (· - base)) todo

/-- The network with the readings of each node counted from a time of its own on. -/
def Network.relative (net : Network n) (base : Fin n → ℚ) : Network n :=
  { net with phase := fun i => (net.phase i).relative (base i) }

/-- The time at which each node has read its own clock, after an act at the time `t`. -/
def readAfter (base : Fin n → ℚ) (t : ℚ) : Act n → Fin n → ℚ
  | .read i => Function.update base i t
  | _ => base

section Relative

variable (net : Network n) (base : Fin n → ℚ)

@[simp] theorem Network.relative_skews : (net.relative base).skews = net.skews := rfl

theorem Network.relative_phase (i : Fin n) :
    (net.relative base).phase i = (net.phase i).relative (base i) := rfl

theorem Network.relative_setPhase (i : Fin n) (t : ℚ) (phase : Phase n) :
    (net.setPhase i phase).relative (Function.update base i t)
      = (net.relative base).setPhase i (phase.relative t) := by
  refine congrArg (fun p => Network.mk net.nodes p net.cycles) (funext fun j => ?_)
  by_cases hj : j = i
  · subst hj
    simp [setPhase_phase]
  · simp [setPhase_phase, relative_phase, hj]

/-- A node that goes on asking has the same own reading. -/
theorem Network.relative_setPhase_self (i : Fin n) (phase : Phase n) :
    (net.setPhase i phase).relative base
      = (net.relative base).setPhase i (phase.relative (base i)) := by
  have h := net.relative_setPhase base i (base i) phase
  rwa [Function.update_eq_self] at h

theorem Network.relative_endCycle (i : Fin n) (node : Node) :
    (net.endCycle i node).relative base = (net.relative base).endCycle i node := by
  refine congrArg (fun p => Network.mk _ p _) (funext fun j => ?_)
  by_cases hj : j = i
  · subst hj
    simp [endCycle_phase, Phase.relative]
  · simp [endCycle_phase, relative_phase, hj]

end Relative

/-- The average moves with the time from which the readings are counted. -/
theorem average_relative {samples : List ℚ} (hne : samples ≠ []) (base : ℚ) :
    (samples.map (· - base)).sum / samples.length = samples.sum / samples.length - base := by
  have hlen : (samples.length : ℚ) ≠ 0 := by
    exact_mod_cast (List.length_pos_iff.mpr hne).ne'
  have hsum : (samples.map (· - base)).sum = samples.sum - samples.length * base := by
    clear hne hlen
    induction samples with
    | nil => simp
    | cons t samples ih =>
        simp only [List.map_cons, List.sum_cons, ih, List.length_cons]
        push_cast
        ring
  rw [hsum]
  field_simp

/-- The transitions of the network: what each step may do. The readings of a node are counted from
the time at which it has read its own clock on, and a sample is off by at most `slack`. -/
inductive Step (peers : Fin n → List (Fin n)) (slack : ℚ) (net net' : Network n) :
    Act n → Prop where
  | read (i : Fin n) (hp : net.phase i = .idle)
      (hs : net' = net.setPhase i (.asking (net.skews i) [net.skews i] (peers i))) :
      Step peers slack net net' (.read i)
  | answered (i peer : Fin n) (own : ℚ) (samples : List ℚ) (todo : List (Fin n)) (sample : ℚ)
      (hp : net.phase i = .asking own samples (peer :: todo))
      (hnear : Near slack (net.skews peer) sample)
      (hs : net' = net.setPhase i (.asking own (samples ++ [sample]) todo)) :
      Step peers slack net net' (.answered i)
  | unanswered (i peer : Fin n) (own : ℚ) (samples : List ℚ) (todo : List (Fin n))
      (hp : net.phase i = .asking own samples (peer :: todo))
      (hs : net' = net.setPhase i (.asking own samples todo)) :
      Step peers slack net net' (.unanswered i)
  | adjust (i : Fin n) (own : ℚ) (samples : List ℚ) (node : Node)
      (hp : net.phase i = .asking own samples [])
      (hnode : samples ≠ [] → node.skew = net.skews i +
        (if samples.length = 1 then 0 else samples.sum / samples.length - own))
      (hs : net' = net.endCycle i node) :
      Step peers slack net net' (.adjust i)

section StepCases

variable {peers : Fin n → List (Fin n)} {slack t : ℚ} {net net' : Network n}

/-- An answer, whatever is made of it, is a step with the error that its sample has. -/
theorem Step.of_answered {base : Fin n → ℚ} {i peer : Fin n} {own sample : ℚ} {samples : List ℚ}
    {todo : List (Fin n)} (hp : net.phase i = .asking own samples (peer :: todo))
    (hnear : Near slack (net.skews peer) (sample - base i)) :
    Step peers slack (net.relative base)
      ((net.setPhase i (.asking own (samples ++ [sample]) todo)).relative base) (.answered i) := by
  refine .answered i peer (own - base i) (samples.map (· - base i)) todo (sample - base i) ?_
    hnear ?_
  · rw [Network.relative_phase, hp]
    rfl
  · rw [Network.relative_setPhase_self, Phase.relative, List.map_append]
    rfl

/-- The other acts of a node do not depend on the time that requests take. -/
theorem step_relative {act : Act n} (base : Fin n → ℚ) (hact : ∀ i, act ≠ .answered i)
    (h : step peers t net act = some net') :
    Step peers slack (net.relative base) (net'.relative (readAfter base t act)) act := by
  cases act with
  | read i =>
      cases hp : net.phase i with
      | idle =>
          simp only [step, hp, Node.localTime_eq] at h
          obtain rfl := Option.some.inj h
          refine .read i (by rw [Network.relative_phase, hp]; rfl) ?_
          have hskew : t + (net.nodes i).skew - t = net.skews i := add_sub_cancel_left _ _
          rw [readAfter, Network.relative_setPhase, Phase.relative, List.map_singleton, hskew]
          rfl
      | asking own samples todo => simp [step, hp] at h
  | answered i => exact absurd rfl (hact i)
  | unanswered i =>
      cases hp : net.phase i with
      | idle => simp [step, hp] at h
      | asking own samples todo =>
          cases todo with
          | nil => simp [step, hp] at h
          | cons peer todo =>
              simp only [step, hp] at h
              obtain rfl := Option.some.inj h
              refine .unanswered i peer (own - base i) (samples.map (· - base i)) todo ?_
                (Network.relative_setPhase_self net base i _)
              rw [Network.relative_phase, hp]
              rfl
  | adjust i =>
      cases hp : net.phase i with
      | idle => simp [step, hp] at h
      | asking own samples todo =>
          cases todo with
          | cons peer todo => simp [step, hp] at h
          | nil =>
              simp only [step, hp] at h
              obtain rfl := Option.some.inj h
              refine .adjust i (own - base i) (samples.map (· - base i)) _ ?_ (fun hne => ?_)
                (Network.relative_endCycle net base i _)
              · rw [Network.relative_phase, hp]
                rfl
              -- no correction and a correction of the average are one formula for the new skew
              · have hnonempty : samples ≠ [] := fun hnil => hne (by rw [hnil, List.map_nil])
                rw [List.length_map, average_relative hnonempty]
                unfold correction
                split_ifs with hlen
                · simp [Network.skews, Network.relative]
                · simp [Network.skews, Network.relative]

/-- When requests take no time, samples are exact. -/
theorem step_cases {act : Act n} (h : step peers t net act = some net') :
    Step peers 0 (net.relative fun _ => t) (net'.relative fun _ => t) act := by
  have hread : readAfter (fun _ => t) t act = fun _ => t := by
    cases act with
    | read i => exact Function.update_eq_self i fun _ => t
    | answered i => rfl
    | unanswered i => rfl
    | adjust i => rfl
  have hother (hact : ∀ i, act ≠ .answered i) :
      Step peers 0 (net.relative fun _ => t) (net'.relative fun _ => t) act := by
    have hstep : Step peers 0 (net.relative fun _ => t)
        (net'.relative (readAfter (fun _ => t) t act)) act := step_relative _ hact h
    rwa [hread] at hstep
  cases act with
  | answered i =>
      cases hp : net.phase i with
      | idle => simp [step, hp] at h
      | asking own samples todo =>
          cases todo with
          | nil => simp [step, hp] at h
          | cons peer todo =>
              cases ha : (askPeer (net.nodes i) t (.answer 0 (net.nodes peer))).1 with
              | none => simp [step, hp, ha] at h
              | some sample =>
                  simp only [step, hp, ha] at h
                  obtain rfl := Option.some.inj h
                  refine Step.of_answered hp ?_
                  rw [askPeer_instant ha, add_sub_cancel_left]
                  exact (abs_nonpos_iff.mpr (sub_self _))
  | read i => exact hother fun j hj => by cases hj
  | unanswered i => exact hother fun j hj => by cases hj
  | adjust i => exact hother fun j hj => by cases hj

end StepCases

/-! ## Induction along an interleaving -/

/-- **The invariant rule.** What every step of a run keeps holds at its end. The rule hands
the induction step the fact that the act is one of the run. -/
theorem run_invariant {peers : Fin n → List (Fin n)} {now : ℚ} (P : Network n → Prop)
    {acts : List (Act n)}
    (hstep : ∀ net net' act, act ∈ acts → Step peers 0 (net.relative fun _ => now)
      (net'.relative fun _ => now) act → P net → P net')
    {net net' : Network n} (hrun : run peers now net acts = some net') (h : P net) : P net' := by
  induction acts generalizing net with
  | nil =>
      obtain rfl : net = net' := Option.some.inj hrun
      exact h
  | cons act acts ih =>
      simp only [run, List.foldlM_cons] at hrun
      obtain ⟨mid, hmid, hrest⟩ := Option.bind_eq_some_iff.mp hrun
      refine ih (fun a b c hc => hstep a b c (List.mem_cons_of_mem _ hc)) hrest ?_
      exact hstep net mid act (by simp) (step_cases hmid) h

/-! ## The hull of the skews -/

/-- All skews lie between `lo` and `hi`, and so do the samples of the nodes in mid-cycle, but for
their errors; a node's own sample is still its skew. -/
structure InHull (slack lo hi : ℚ) (net : Network n) : Prop where
  skews : ∀ i, lo ≤ net.skews i ∧ net.skews i ≤ hi
  samples : ∀ i own samples todo, net.phase i = .asking own samples todo →
    own = net.skews i ∧ samples ≠ [] ∧ ∀ t ∈ samples, lo - slack ≤ t ∧ t ≤ hi + slack

section Hull

variable {slack lo hi : ℚ} {net : Network n}

theorem InHull.mono {slack' lo' hi' : ℚ} (h : InHull slack lo hi net) (hslack : slack ≤ slack')
    (hlo : lo' ≤ lo) (hhi : hi ≤ hi') : InHull slack' lo' hi' net := by
  refine ⟨fun i => ⟨hlo.trans (h.skews i).1, (h.skews i).2.trans hhi⟩,
    fun i own samples todo hp => ?_⟩
  obtain ⟨hown, hne, hin⟩ := h.samples i own samples todo hp
  exact ⟨hown, hne, fun t ht => ⟨by linarith [(hin t ht).1], by linarith [(hin t ht).2]⟩⟩

/-- The average of readings in an interval lies in the interval. -/
theorem average_mem {lo hi : ℚ} {samples : List ℚ} (hne : samples ≠ [])
    (h : ∀ t ∈ samples, lo ≤ t ∧ t ≤ hi) :
    lo ≤ samples.sum / samples.length ∧ samples.sum / samples.length ≤ hi := by
  have hpos : (0 : ℚ) < samples.length := by
    exact_mod_cast List.length_pos_iff.mpr hne
  have hsum : samples.length * lo ≤ samples.sum ∧ samples.sum ≤ samples.length * hi := by
    clear hne hpos
    induction samples with
    | nil => simp
    | cons t samples ih =>
        have hhead := h t (by simp)
        have htail := ih (fun x hx => h x (List.mem_cons_of_mem _ hx))
        simp only [List.sum_cons, List.length_cons]
        push_cast
        constructor <;> linarith [htail.1, htail.2, hhead.1, hhead.2]
  constructor
  · rw [le_div_iff₀ hpos, mul_comm]
    exact hsum.1
  · rw [div_le_iff₀ hpos, mul_comm]
    exact hsum.2

theorem InHull.setPhase (hh : InHull slack lo hi net)
    (i : Fin n) (samples : List ℚ) (todo : List (Fin n)) (hne : samples ≠ [])
    (hin : ∀ t ∈ samples, lo - slack ≤ t ∧ t ≤ hi + slack) :
    InHull slack lo hi (net.setPhase i (.asking (net.skews i) samples todo)) := by
  refine ⟨hh.skews, fun j own samples' todo' hj => ?_⟩
  rw [Network.setPhase_phase] at hj
  by_cases hji : j = i
  · subst hji
    rw [Function.update_self] at hj
    obtain ⟨rfl, rfl, rfl⟩ := Phase.asking.inj hj
    exact ⟨rfl, hne, hin⟩
  · rw [Function.update_of_ne hji] at hj
    exact hh.samples j own samples' todo' hj

/-- The number of cycles that an act ends. -/
def Act.ends : Act n → ℕ
  | .adjust _ => 1
  | _ => 0

/-- **One step stays inside the hull**, whether requests are answered or not: only a node that
ends its cycle can leave it, and by no more than the error of a sample. -/
theorem step_inHull {peers : Fin n → List (Fin n)} {net' : Network n} {act : Act n}
    (hstep : Step peers slack net net' act) (hslack : 0 ≤ slack) (hh : InHull slack lo hi net) :
    InHull slack (lo - slack * act.ends) (hi + slack * act.ends) net' := by
  cases hstep with
  | read i hp hs =>
      rw [hs]
      refine (hh.setPhase i _ _ (by simp) fun t ht => ?_).mono le_rfl (by simp [Act.ends])
        (by simp [Act.ends])
      rw [List.mem_singleton.mp ht]
      exact ⟨by linarith [(hh.skews i).1], by linarith [(hh.skews i).2]⟩
  | answered i peer own samples todo sample hp hnear hs =>
      obtain ⟨rfl, hne, hin⟩ := hh.samples i own samples (peer :: todo) hp
      rw [hs]
      refine (hh.setPhase i _ _ (by simp) fun t ht => ?_).mono le_rfl (by simp [Act.ends])
        (by simp [Act.ends])
      rcases List.mem_append.mp ht with ht | ht
      · exact hin t ht
      · obtain ⟨hlow, hhigh⟩ := abs_le.mp hnear
        rw [List.mem_singleton.mp ht]
        exact ⟨by linarith [(hh.skews peer).1], by linarith [(hh.skews peer).2]⟩
  | unanswered i peer own samples todo hp hs =>
      obtain ⟨rfl, hne, hin⟩ := hh.samples i own samples (peer :: todo) hp
      rw [hs]
      exact (hh.setPhase i _ _ hne hin).mono le_rfl (by simp [Act.ends]) (by simp [Act.ends])
  | adjust i own samples node hp hnode hs =>
      obtain ⟨hown, hne, hin⟩ := hh.samples i own samples [] hp
      have hwide : InHull slack (lo - slack * (1 : ℕ)) (hi + slack * (1 : ℕ)) net :=
        hh.mono le_rfl (by push_cast; linarith) (by push_cast; linarith)
      -- the new skew is the average of the samples
      have hnew : lo - slack * (1 : ℕ) ≤ node.skew ∧ node.skew ≤ hi + slack * (1 : ℕ) := by
        rw [hnode hne]
        split_ifs with hlen
        · rw [add_zero]
          exact hwide.skews i
        · have havg := average_mem hne hin
          rw [hown]
          push_cast
          constructor <;> linarith [havg.1, havg.2]
      rw [hs]
      refine ⟨fun j => ?_, fun j own' samples' todo' hj => ?_⟩
      · rw [Network.endCycle_skews]
        by_cases hji : j = i
        · rw [hji, Function.update_self]
          exact hnew
        · rw [Function.update_of_ne hji]
          exact hwide.skews j
      · rw [Network.endCycle_phase] at hj
        have hji : j ≠ i := by
          rintro rfl
          rw [Function.update_self] at hj
          cases hj
        rw [Function.update_of_ne hji] at hj
        rw [Network.endCycle_skews, Function.update_of_ne hji]
        exact hwide.samples j own' samples' todo' hj

/-- Exact samples keep the hull. -/
theorem step_inHull_exact {peers : Fin n → List (Fin n)} {net' : Network n} {act : Act n}
    (hstep : Step peers 0 net net' act) (hh : InHull 0 lo hi net) : InHull 0 lo hi net' :=
  (step_inHull hstep le_rfl hh).mono le_rfl (by simp) (by simp)

end Hull

/-- Nobody in mid-cycle holds samples, so the skews are in their own hull. -/
theorem idle_inHull [NeZero n] {net : Network n} (slack : ℚ) (hidle : ∀ i, net.phase i = .idle) :
    InHull slack (Finset.univ.inf' Finset.univ_nonempty net.skews)
      (Finset.univ.sup' Finset.univ_nonempty net.skews) net := by
  constructor
  · intro i
    exact ⟨Finset.inf'_le _ (Finset.mem_univ i), Finset.le_sup' _ (Finset.mem_univ i)⟩
  · intro i own samples todo hp
    rw [hidle i] at hp
    cases hp

theorem Network.relative_idle {net : Network n} (base : Fin n → ℚ)
    (hidle : ∀ i, net.phase i = .idle) (i : Fin n) : (net.relative base).phase i = .idle := by
  rw [relative_phase, hidle i]
  rfl

/-- **Averaging stays inside the hull.** Start with no node in mid-cycle. After any interleaving
of any number of steps, whichever requests are answered, every skew lies between the least and
the greatest of the first skews, and the spread is at most the first one. -/
theorem skews_stay_in_hull [NeZero n] (peers : Fin n → List (Fin n)) (now : ℚ)
    (net net' : Network n) (acts : List (Act n)) (hidle : ∀ i, net.phase i = .idle)
    (hrun : run peers now net acts = some net') :
    (∀ i, Finset.univ.inf' Finset.univ_nonempty net.skews ≤ net'.skews i ∧
        net'.skews i ≤ Finset.univ.sup' Finset.univ_nonempty net.skews) ∧
      spread net'.skews ≤ spread net.skews := by
  have hend := run_invariant (fun m => InHull 0 (Finset.univ.inf' Finset.univ_nonempty net.skews)
      (Finset.univ.sup' Finset.univ_nonempty net.skews) (m.relative fun _ => now))
    (fun _ _ _ _ hstep hh => step_inHull_exact hstep hh) hrun
    (idle_inHull 0 (Network.relative_idle _ hidle))
  refine ⟨hend.skews, ?_⟩
  apply spread_le
  intro i j
  have hi := (hend.skews i).2
  have hj := (hend.skews j).1
  show net'.skews i - net'.skews j ≤ Finset.univ.sup' Finset.univ_nonempty net.skews
    - Finset.univ.inf' Finset.univ_nonempty net.skews
  rw [Network.relative_skews] at hi hj
  linarith

/-- Two nodes one second apart: node 0 samples node 1, which adjusts on its own samples before
node 0 does; the second request of node 1 fails. -/
theorem skews_stay_in_hull_two :
    let net : Network 2 := ⟨fun i => ⟨i.val, 0⟩, fun _ => .idle, fun _ => 0⟩
    ∃ net', run allOthers 1000 net
        [.read 0, .answered 0, .read 1, .answered 1, .adjust 1, .adjust 0, .read 1,
          .unanswered 1, .adjust 1] = some net' ∧
      (∀ i, Finset.univ.inf' Finset.univ_nonempty net.skews ≤ net'.skews i ∧
        net'.skews i ≤ Finset.univ.sup' Finset.univ_nonempty net.skews) ∧
      spread net'.skews ≤ spread net.skews := by
  intro net
  have hsome : (run allOthers 1000 net
      [.read 0, .answered 0, .read 1, .answered 1, .adjust 1, .adjust 0, .read 1,
        .unanswered 1, .adjust 1]).isSome = true := by decide +kernel
  obtain ⟨net', hrun⟩ := Option.isSome_iff_exists.mp hsome
  exact ⟨net', hrun, skews_stay_in_hull allOthers 1000 net net' _ (fun _ => rfl) hrun⟩

end Peers
