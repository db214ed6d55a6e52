import DistWorkshops.Lib.Decimal
import DistWorkshops.Lib.OneChange
import DistWorkshops.Lib.Run
import DistWorkshops.Peers.Network

/-!
# Peers whose clocks drift, in time that passes

The cycles of `run` with step 1: before a node reads its own time, it puts random drift into its
clock if the number of the cycle is a multiple of `k`. Every act of a node has a time and takes
time, by the clock of the operating system that all nodes read, and a peer shows its time with six
decimals, so a sample is off: by the time since the node has read its own clock, by half the round
trip and by the decimals left out. The greatest such error so far is the `slack` of a run.

The drift of one node reaches the others through the averages, but it widens the hull of the skews
only once, and so does the error of the samples of one cycle: whatever the order of the steps, the
skews lie in the first hull widened by the drift of the cycles begun and by the slack for each
completed cycle (`skews_with_drift`).
-/

set_option autoImplicit false

namespace Peers

open Averaging

variable {n : ℕ}

/-! ## Cycles with drift -/

/-- The arguments that rule the cycles of a node, in the ranges the constructor checks. -/
structure Settings where
  /-- The number of cycles, or 0 for no limit. -/
  cycles : ℕ
  k : ℕ
  driftMax : ℚ
  cycles_le : cycles ≤ 10000
  k_pos : 1 ≤ k
  k_le : k ≤ 1000
  driftMax_nonneg : 0 ≤ driftMax
  driftMax_le : driftMax ≤ 3600

namespace Settings

variable (settings : Settings) (completed : ℕ)

/-- Drift is due in the cycle after the completed ones. -/
def Due : Prop := (completed + 1) % settings.k = 0 ∧ 0 < settings.driftMax

/-- The loop has left with the last of the completed cycles. -/
def Finished : Prop := settings.cycles ≠ 0 ∧ settings.cycles ≤ completed

instance : Decidable (settings.Due completed) := inferInstanceAs (Decidable (_ ∧ _))

instance : Decidable (settings.Finished completed) := inferInstanceAs (Decidable (_ ∧ _))

end Settings

/-- The node that makes the act. -/
def Act.node : Act n → Fin n
  | .read i => i
  | .answered i => i
  | .unanswered i => i
  | .adjust i => i

/-- A network whose nodes drift, with the times that rule its next steps. -/
structure Drifting (n : ℕ) where
  net : Network n
  /-- The nodes that have put drift into their clock in the cycle they begin. -/
  injected : Fin n → Bool
  /-- The time of the last event. -/
  now : ℚ
  /-- When each node has last read its own clock for a cycle. -/
  readAt : Fin n → ℚ
  /-- Until when each node is busy with its last act. -/
  free : Fin n → ℚ
  /-- The greatest error of the samples so far. -/
  slack : ℚ

/-- A network before its first event. -/
def Network.begin (net : Network n) (now : ℚ) : Drifting n where
  net := net
  injected := fun _ => false
  now := now
  readAt := fun _ => now
  free := fun _ => now
  slack := 0

/-- An act begins `there` before the time of its event and ends `back` after it. The event of a
request that is answered is the moment when the peer reads its clock. -/
inductive DriftAct (n : ℕ) where
  | inject (i : Fin n) (delta : ℚ)
  | sync (act : Act n) (there back : ℚ)
  deriving DecidableEq, Repr

def Network.injectDrift (net : Network n) (i : Fin n) (delta : ℚ) : Network n :=
  { net with nodes := Function.update net.nodes i ((net.nodes i).injectDrift delta) }

/-- Only the end of a cycle counts. -/
def cyclesAfter (cycles : Fin n → ℕ) : Act n → Fin n → ℕ
  | .adjust i => Function.update cycles i (cycles i + 1)
  | _ => cycles

/-- The end of a cycle forgets that drift was injected in it. -/
def injectedAfter (injected : Fin n → Bool) : Act n → Fin n → Bool
  | .adjust i => Function.update injected i false
  | _ => injected

/-- Half of the last decimal that an answer shows. -/
def resolution : ℚ := 1 / 2 / 10 ^ 6

namespace Drifting

variable (settings : Fin n → Settings) (d : Drifting n)

/-- A cycle begins while the limit is not reached, and after the drift that is due in it. -/
def Allows : Act n → Prop
  | .read i => ¬ (settings i).Finished (d.net.cycles i) ∧
      ((settings i).Due (d.net.cycles i) → d.injected i = true)
  | _ => True

instance (act : Act n) : Decidable (d.Allows settings act) :=
  match act with
  | .read _ => inferInstanceAs (Decidable (_ ∧ _))
  | .answered _ => isTrue trivial
  | .unanswered _ => isTrue trivial
  | .adjust _ => isTrue trivial

/-- Events happen in the order of their times, and a node makes one act after the other. -/
def Timely (i : Fin n) (t there back : ℚ) : Prop :=
  d.now ≤ t ∧ d.free i ≤ t - there ∧ 0 ≤ there ∧ 0 ≤ back

instance (i : Fin n) (t there back : ℚ) : Decidable (d.Timely i t there back) :=
  inferInstanceAs (Decidable (_ ∧ _))

/-- An answer of the time `t` is late by the time since the node read its own clock. -/
def slackAfter (t there back : ℚ) : Act n → ℚ
  | .answered i => max d.slack (|t - d.readAt i| + (there + back) / 2 + resolution)
  | _ => d.slack

/-- The cycles in which the drift has been dealt with. -/
def begun (i : Fin n) : ℕ := d.net.cycles i + if d.injected i then 1 else 0

/-- The cycles that all nodes together have completed. -/
def completed : ℕ := ∑ i, d.net.cycles i

/-- The errors that the cycles after the first `c` ones may have put into the skews. -/
def error (c : ℕ) : ℚ := d.slack * ((d.completed - c : ℕ) : ℚ)

/-- Every node has completed `c` cycles and has not begun another. -/
structure AtRest (c : ℕ) : Prop where
  idle : ∀ i, d.net.phase i = .idle
  cycles : ∀ i, d.net.cycles i = c
  clean : ∀ i, d.injected i = false
  slack_nonneg : 0 ≤ d.slack

instance (phase : Phase n) : Decidable (phase = .idle) :=
  match phase with
  | .idle => isTrue rfl
  | .asking _ _ _ => isFalse fun h => by cases h

instance (c : ℕ) : Decidable (d.AtRest c) :=
  decidable_of_iff ((∀ i, d.net.phase i = .idle ∧ d.net.cycles i = c ∧ d.injected i = false) ∧
      0 ≤ d.slack)
    ⟨fun h => ⟨fun i => (h.1 i).1, fun i => (h.1 i).2.1, fun i => (h.1 i).2.2, h.2⟩,
      fun h => ⟨fun i => ⟨h.idle i, h.cycles i, h.clean i⟩, h.slack_nonneg⟩⟩

/-- The network with the readings of a node counted from its own reading on. -/
def relative : Network n := d.net.relative d.readAt

end Drifting

/-- An act at the time `t`. The peer shows its time of that moment with six decimals; the other
acts do not depend on how long they take. -/
def stepAt (peers : Fin n → List (Fin n)) (t there back : ℚ) (net : Network n) :
    Act n → Option (Network n)
  | .answered i =>
      match net.phase i with
      | .asking ownTime samples (peer :: todo) =>
          let stamp := Decimal.roundTo 6 ((net.nodes peer).localTime t)
          match received (net.nodes i) stamp (t - there) (t + back) with
          | some peerTime =>
              some (net.setPhase i (.asking ownTime (samples ++ [peerTime]) todo))
          | none => none
      | _ => none
  | act => step peers t net act

/-- The event of an act at a time. Drift is injected once in a cycle, before it reads the time. -/
def stepDrift (settings : Fin n → Settings) (peers : Fin n → List (Fin n)) (d : Drifting n) :
    ℚ × DriftAct n → Option (Drifting n)
  | (t, .inject i delta) =>
      match d.net.phase i with
      | .idle =>
          if d.Timely i t 0 0 ∧ ¬ (settings i).Finished (d.net.cycles i) ∧
              (settings i).Due (d.net.cycles i) ∧ d.injected i = false ∧
              |delta| ≤ (settings i).driftMax then
            some { d with
              net := d.net.injectDrift i delta
              injected := Function.update d.injected i true
              now := t
              free := Function.update d.free i t }
          else none
      | .asking _ _ _ => none
  | (t, .sync act there back) =>
      if d.Timely act.node t there back ∧ d.Allows settings act then
        (stepAt peers t there back d.net act).map fun net =>
          { net := net
            injected := injectedAfter d.injected act
            now := t
            readAt := readAfter d.readAt t act
            free := Function.update d.free act.node (t + back)
            slack := d.slackAfter t there back act }
      else none

def runDrift (settings : Fin n → Settings) (peers : Fin n → List (Fin n)) (d : Drifting n)
    (events : List (ℚ × DriftAct n)) : Option (Drifting n) :=
  events.foldlM (stepDrift settings peers) d

/-! ## What a step does -/

/-- The transitions of the network with drift. -/
inductive DriftStep (settings : Fin n → Settings) (peers : Fin n → List (Fin n))
    (d d' : Drifting n) : DriftAct n → Prop where
  | inject (i : Fin n) (delta : ℚ) (hp : d.net.phase i = .idle)
      (hgoing : ¬ (settings i).Finished (d.net.cycles i))
      (hdue : (settings i).Due (d.net.cycles i)) (hnot : d.injected i = false)
      (hdelta : |delta| ≤ (settings i).driftMax)
      (hnet : d'.relative = d.relative.injectDrift i delta)
      (hinjected : d'.injected = Function.update d.injected i true) (hslack : d.slack = d'.slack) :
      DriftStep settings peers d d' (.inject i delta)
  | sync (act : Act n) (there back : ℚ) (hallows : d.Allows settings act)
      (hstep : Step peers d'.slack d.relative d'.relative act)
      (hinjected : d'.injected = injectedAfter d.injected act) (hslack : d.slack ≤ d'.slack) :
      DriftStep settings peers d d' (.sync act there back)

section Steps

variable {settings : Fin n → Settings} {peers : Fin n → List (Fin n)} {d d' : Drifting n}

/-- The error of a sample: what the peer shows is within the resolution of its time. -/
theorem received_near {node peer : Node} {t there back base sample : ℚ} (hthere : 0 ≤ there)
    (hback : 0 ≤ back) (h : received node (Decimal.roundTo 6 (peer.localTime t)) (t - there)
      (t + back) = some sample) :
    Near (|t - base| + (there + back) / 2 + resolution) peer.skew (sample - base) := by
  have hround := Decimal.abs_roundTo_sub_le 6 (peer.localTime t)
  have hsample := received_eq h
  have hsplit : sample - base - peer.skew
      = (Decimal.roundTo 6 (peer.localTime t) - peer.localTime t) + (t - base)
        + (there + back) / 2 := by
    rw [hsample, Node.localTime_eq]
    ring
  have hhalf : |(there + back) / 2| = (there + back) / 2 := abs_of_nonneg (by linarith)
  rw [Near, hsplit]
  refine (abs_add_three _ _ _).trans ?_
  rw [hhalf, resolution]
  linarith

theorem stepAt_relative {t there back : ℚ} {net net' : Network n} {act : Act n}
    (hthere : 0 ≤ there) (hback : 0 ≤ back) (hnet : d.net = net)
    (h : stepAt peers t there back net act = some net') :
    Step peers (d.slackAfter t there back act) d.relative
      (net'.relative (readAfter d.readAt t act)) act := by
  subst hnet
  cases act with
  | answered i =>
      cases hp : d.net.phase i with
      | idle => simp [stepAt, hp] at h
      | asking own samples todo =>
          cases todo with
          | nil => simp [stepAt, hp] at h
          | cons peer todo =>
              cases hr : received (d.net.nodes i)
                  (Decimal.roundTo 6 ((d.net.nodes peer).localTime t)) (t - there) (t + back) with
              | none => simp [stepAt, hp, hr] at h
              | some sample =>
                  simp only [stepAt, hp, hr] at h
                  obtain rfl := Option.some.inj h
                  exact .of_answered hp ((received_near hthere hback hr).trans (le_max_right _ _))
  | read i => exact step_relative d.readAt (fun j hj => by cases hj) h
  | unanswered i => exact step_relative d.readAt (fun j hj => by cases hj) h
  | adjust i => exact step_relative d.readAt (fun j hj => by cases hj) h

theorem Drifting.slack_le_after (d : Drifting n) (t there back : ℚ) (act : Act n) :
    d.slack ≤ d.slackAfter t there back act := by
  cases act with
  | answered i => exact le_max_left _ _
  | read i => exact le_rfl
  | unanswered i => exact le_rfl
  | adjust i => exact le_rfl

theorem driftStep_cases {t : ℚ} {act : DriftAct n}
    (h : stepDrift settings peers d (t, act) = some d') : DriftStep settings peers d d' act := by
  cases act with
  | inject i delta =>
      cases hp : d.net.phase i with
      | idle =>
          simp only [stepDrift, hp] at h
          split_ifs at h with hguard
          obtain ⟨-, hgoing, hdue, hnot, hdelta⟩ := hguard
          obtain rfl := Option.some.inj h
          exact .inject i delta hp hgoing hdue hnot hdelta rfl rfl rfl
      | asking own samples todo => simp [stepDrift, hp] at h
  | sync act there back =>
      simp only [stepDrift] at h
      split_ifs at h with hguard
      obtain ⟨⟨-, -, hthere, hback⟩, hallows⟩ := hguard
      obtain ⟨net, hnet, rfl⟩ := Option.map_eq_some_iff.mp h
      exact .sync act there back hallows (stepAt_relative hthere hback rfl hnet) rfl
        (d.slack_le_after t there back act)

/-- **The invariant rule.** The rule hands the induction step the fact that the act is one of the
run. -/
theorem runDrift_invariant (P : Drifting n → Prop) {events : List (ℚ × DriftAct n)}
    (hstep : ∀ d d' t act, (t, act) ∈ events → DriftStep settings peers d d' act → P d → P d')
    (hrun : runDrift settings peers d events = some d') (h : P d) : P d' :=
  Run.invariant_foldlM h
    (fun d d' event hmem hd hone => hstep d d' event.1 event.2 hmem (driftStep_cases hone) hd) hrun

theorem Drifting.cycles_of_relative {net : Network n} (h : d.relative = net) :
    d.net.cycles = net.cycles := by
  rw [← h]
  rfl

/-- Injecting drift moves the skew of one node. -/
theorem Network.injectDrift_skews (net : Network n) (i : Fin n) (delta : ℚ) :
    (net.injectDrift i delta).skews = Function.update net.skews i (net.skews i + delta) := by
  funext j
  by_cases hj : j = i
  · subst hj
    simp [skews, injectDrift]
  · simp [skews, injectDrift, hj]

theorem Step.cycles {slack : ℚ} {net net' : Network n} {act : Act n}
    (h : Step peers slack net net' act) : net'.cycles = cyclesAfter net.cycles act := by
  cases h with
  | read i hp hs => subst hs; rfl
  | answered i peer own samples todo sample hp hnear hs => subst hs; rfl
  | unanswered i peer own samples todo hp hs => subst hs; rfl
  | adjust i own samples node hp hnode hs => subst hs; rfl

/-- The cycles begun only grow. -/
theorem DriftStep.begun_le {act : DriftAct n} (h : DriftStep settings peers d d' act)
    (j : Fin n) : d.begun j ≤ d'.begun j := by
  cases h with
  | inject i delta hp hgoing hdue hnot hdelta hnet hinjected hslack =>
      have hcycles : d'.net.cycles = d.net.cycles := (Drifting.cycles_of_relative hnet :)
      rw [Drifting.begun, Drifting.begun, hcycles, hinjected]
      by_cases hj : j = i
      · subst hj
        simp [hnot]
      · simp [hj]
  | sync act there back hallows hstep hinjected hslack =>
      have hcycles : d'.net.cycles = cyclesAfter d.net.cycles act := hstep.cycles
      rw [Drifting.begun, Drifting.begun, hinjected, hcycles]
      cases act with
      | adjust i =>
          by_cases hj : j = i
          · subst hj
            simp only [injectedAfter, cyclesAfter, Function.update_self]
            split_ifs <;> omega
          · simp [injectedAfter, cyclesAfter, hj]
      | read i => exact le_rfl
      | answered i => exact le_rfl
      | unanswered i => exact le_rfl

theorem DriftStep.slack_le {act : DriftAct n} (h : DriftStep settings peers d d' act) :
    d.slack ≤ d'.slack := by
  cases h with
  | inject i delta hp hgoing hdue hnot hdelta hnet hinjected hslack => exact hslack.le
  | sync act there back hallows hstep hinjected hslack => exact hslack

theorem runDrift_slack_le {events : List (ℚ × DriftAct n)}
    (hrun : runDrift settings peers d events = some d') : d.slack ≤ d'.slack :=
  runDrift_invariant (fun e => d.slack ≤ e.slack)
    (fun _ _ _ _ _ hstep he => he.trans hstep.slack_le) hrun le_rfl

/-! ## The limit of the cycles -/

/-- A node with a limit is within it, and its next cycle begins only below the limit. -/
def WithinLimit (settings : Fin n → Settings) (d : Drifting n) : Prop :=
  ∀ i, (settings i).cycles ≠ 0 → d.net.cycles i ≤ (settings i).cycles ∧
    (d.injected i = true ∨ d.relative.phase i ≠ .idle → d.net.cycles i < (settings i).cycles)

/-- A node that is asking is below its limit. -/
theorem WithinLimit.asking (hw : WithinLimit settings d) {i : Fin n} {own : ℚ} {samples : List ℚ}
    {todo : List (Fin n)} (hp : d.relative.phase i = .asking own samples todo)
    (hi : (settings i).cycles ≠ 0) : d.net.cycles i < (settings i).cycles := by
  refine (hw i hi).2 (Or.inr fun hidle => ?_)
  rw [hp] at hidle
  cases hidle

/-- A node below its limit may move on in its cycle. -/
theorem WithinLimit.setPhase (hw : WithinLimit settings d) {i : Fin n} {phase : Phase n}
    (hbelow : (settings i).cycles ≠ 0 → d.net.cycles i < (settings i).cycles)
    (hnet : d'.relative = d.relative.setPhase i phase) (hinjected : d'.injected = d.injected) :
    WithinLimit settings d' := by
  intro j hj
  obtain ⟨hle, hlt⟩ := hw j hj
  have hcycles : d'.net.cycles = d.net.cycles := (Drifting.cycles_of_relative hnet :)
  rw [hnet, hinjected, hcycles]
  refine ⟨hle, fun hor => ?_⟩
  by_cases hji : j = i
  · subst hji
    exact hbelow hj
  · refine hlt (hor.imp_right fun hphase => ?_)
    rwa [Network.setPhase_phase, Function.update_of_ne hji] at hphase

theorem step_withinLimit {act : DriftAct n} (h : DriftStep settings peers d d' act)
    (hw : WithinLimit settings d) : WithinLimit settings d' := by
  cases h with
  | inject i delta hp hgoing hdue hnot hdelta hnet hinjected hslack =>
      intro j hj
      obtain ⟨hle, hlt⟩ := hw j hj
      have hcycles : d'.net.cycles = d.net.cycles := (Drifting.cycles_of_relative hnet :)
      have hphase : d'.relative.phase = d.relative.phase := by
        rw [hnet]
        rfl
      rw [hcycles, hphase, hinjected]
      refine ⟨hle, fun hor => ?_⟩
      by_cases hji : j = i
      · subst hji
        exact Nat.lt_of_not_le fun hfin => hgoing ⟨hj, hfin⟩
      · refine hlt (hor.imp_left fun hin => ?_)
        rwa [Function.update_of_ne hji] at hin
  | sync act there back hallows hstep hinjected hslack =>
      cases hstep with
      | read i hp hs =>
          exact hw.setPhase (fun hi => Nat.lt_of_not_le fun hfin => hallows.1 ⟨hi, hfin⟩) hs
            hinjected
      | answered i peer own samples todo sample hp hnear hs =>
          exact hw.setPhase (hw.asking hp) hs hinjected
      | unanswered i peer own samples todo hp hs => exact hw.setPhase (hw.asking hp) hs hinjected
      | adjust i own samples node hp hnode hs =>
          intro j hj
          obtain ⟨hle, hlt⟩ := hw j hj
          have hcycles : d'.net.cycles = Function.update d.net.cycles i (d.net.cycles i + 1) :=
            congrArg Network.cycles hs
          rw [hinjected, hcycles, hs, Network.endCycle_phase]
          by_cases hji : j = i
          · subst hji
            simp only [injectedAfter, Function.update_self]
            refine ⟨hw.asking hp hj, fun hor => ?_⟩
            rcases hor with hin | hphase
            · cases hin
            · exact absurd rfl hphase
          · simp only [injectedAfter, Function.update_of_ne hji]
            exact ⟨hle, hlt⟩

theorem WithinLimit.begun_le (hw : WithinLimit settings d) (i : Fin n)
    (hi : (settings i).cycles ≠ 0) : d.begun i ≤ (settings i).cycles := by
  obtain ⟨hle, hlt⟩ := hw i hi
  unfold Drifting.begun
  split_ifs with hin
  · exact hlt (Or.inl hin)
  · exact hle

theorem Drifting.AtRest.withinLimit (hrest : d.AtRest 0) : WithinLimit settings d := fun i _ => by
  rw [hrest.cycles i, hrest.clean i]
  refine ⟨Nat.zero_le _, fun hor => ?_⟩
  rcases hor with hin | hphase
  · cases hin
  · exact absurd (Network.relative_idle d.readAt hrest.idle i) hphase

theorem runDrift_withinLimit {events : List (ℚ × DriftAct n)} (hrest : d.AtRest 0)
    (hrun : runDrift settings peers d events = some d') : WithinLimit settings d' :=
  runDrift_invariant (WithinLimit settings) (fun _ _ _ _ _ hstep hw => step_withinLimit hstep hw)
    hrun hrest.withinLimit

/-! ## The hull -/

/-- The drift of the cycles begun, all of it to one side. -/
def driftTotal (settings : Fin n → Settings) (d : Drifting n) : ℚ :=
  ∑ i, (settings i).driftMax * ((d.begun i / (settings i).k : ℕ) : ℚ)

theorem driftTotal_mono (settings : Fin n → Settings) (h : ∀ i, d.begun i ≤ d'.begun i) :
    driftTotal settings d ≤ driftTotal settings d' := by
  refine Finset.sum_le_sum fun i _ => ?_
  refine mul_le_mul_of_nonneg_left ?_ (settings i).driftMax_nonneg
  exact_mod_cast Nat.div_le_div_right (h i)

/-- Injecting drift is paid for by the cycle that begins. -/
theorem driftTotal_inject {i : Fin n} (hdue : (settings i).Due (d.net.cycles i))
    (hnot : d.injected i = false) (hcycles : d'.net.cycles = d.net.cycles)
    (hinjected : d'.injected = Function.update d.injected i true) :
    driftTotal settings d + (settings i).driftMax ≤ driftTotal settings d' := by
  have hsum : driftTotal settings d + (settings i).driftMax
      = ∑ j, ((settings j).driftMax * ((d.begun j / (settings j).k : ℕ) : ℚ)
          + if j = i then (settings i).driftMax else 0) := by
    rw [Finset.sum_add_distrib, Finset.sum_ite_eq' Finset.univ i, if_pos (Finset.mem_univ i)]
    rfl
  rw [hsum]
  refine Finset.sum_le_sum fun j _ => ?_
  by_cases hj : j = i
  · subst hj
    have hdvd : (settings j).k ∣ d.net.cycles j + 1 := Nat.dvd_of_mod_eq_zero hdue.1
    have hdiv : (d.net.cycles j + 1) / (settings j).k
        = d.net.cycles j / (settings j).k + 1 := Nat.succ_div_of_dvd hdvd
    simp only [Drifting.begun, hcycles, hinjected, hnot, Function.update_self, if_true,
      Bool.false_eq_true, if_false, Nat.add_zero, hdiv]
    push_cast
    linarith
  · simp [Drifting.begun, hcycles, hinjected, hj]

/-- An act that ends a cycle adds it to the completed ones. -/
theorem sum_cyclesAfter (cycles : Fin n → ℕ) (act : Act n) :
    ∑ i, cyclesAfter cycles act i = (∑ i, cycles i) + act.ends := by
  cases act with
  | adjust i =>
      have hsum := OneChange.sum_update_add cycles i (cycles i + 1)
      rw [cyclesAfter, Act.ends]
      omega
  | read i => rfl
  | answered i => rfl
  | unanswered i => rfl

/-- A node between two cycles may drift inside the hull. -/
theorem InHull.injectDrift {slack lo hi delta : ℚ} {net : Network n} (h : InHull slack lo hi net)
    {i : Fin n} (hp : net.phase i = .idle)
    (hnew : lo ≤ net.skews i + delta ∧ net.skews i + delta ≤ hi) :
    InHull slack lo hi (net.injectDrift i delta) := by
  refine ⟨fun j => ?_, fun j own samples todo hj => ?_⟩
  · rw [Network.injectDrift_skews]
    by_cases hji : j = i
    · rw [hji, Function.update_self]
      exact hnew
    · rw [Function.update_of_ne hji]
      exact h.skews j
  · have hji : j ≠ i := by
      rintro rfl
      have hasking : net.phase j = .asking own samples todo := hj
      rw [hp] at hasking
      cases hasking
    rw [Network.injectDrift_skews, Function.update_of_ne hji]
    exact h.samples j own samples todo hj

/-- A node that ends its cycle may widen the hull by the error of a sample. -/
theorem sync_inHull {lo hi : ℚ} {c : ℕ} {act : Act n}
    (hstep : Step peers d'.slack d.relative d'.relative act) (hslack : d.slack ≤ d'.slack)
    (hnonneg : 0 ≤ d.slack) (hc : c ≤ d.completed)
    (hh : InHull d.slack (lo - d.error c) (hi + d.error c) d.relative) :
    InHull d'.slack (lo - d'.error c) (hi + d'.error c) d'.relative := by
  have hcycles : d'.net.cycles = cyclesAfter d.net.cycles act := hstep.cycles
  have hcompleted : d'.completed - c = d.completed - c + act.ends := by
    rw [Drifting.completed, hcycles, sum_cyclesAfter]
    exact Nat.sub_add_comm hc
  have hlarger : d.error c ≤ d'.slack * ((d.completed - c : ℕ) : ℚ) :=
    mul_le_mul_of_nonneg_right hslack (Nat.cast_nonneg _)
  have hnext := step_inHull hstep (hnonneg.trans hslack) (hh.mono hslack le_rfl le_rfl)
  have herror : d'.error c = d'.slack * ((d.completed - c : ℕ) : ℚ) + d'.slack * act.ends := by
    rw [Drifting.error, hcompleted, Nat.cast_add, mul_add]
  refine hnext.mono le_rfl ?_ ?_ <;> linarith

/-- The network is in the hull that the drift and the samples so far allow. -/
structure InWidened (settings : Fin n → Settings) (lo hi : ℚ) (d : Drifting n) : Prop where
  slack_nonneg : 0 ≤ d.slack
  hull : InHull d.slack (lo - driftTotal settings d - d.error 0)
    (hi + driftTotal settings d + d.error 0) d.relative

/-- **One step stays inside the widened hull.** -/
theorem step_inWidened {lo hi : ℚ} {act : DriftAct n} (h : DriftStep settings peers d d' act)
    (hd : InWidened settings lo hi d) : InWidened settings lo hi d' := by
  have hmono := driftTotal_mono settings h.begun_le
  refine ⟨hd.slack_nonneg.trans h.slack_le, ?_⟩
  have hh := hd.hull
  cases h with
  | inject i delta hp hgoing hdue hnot hdelta hnet hinjected hslack =>
      have hcycles : d'.net.cycles = d.net.cycles := (Drifting.cycles_of_relative hnet :)
      have hpaid := driftTotal_inject hdue hnot hcycles hinjected
      have herror : d'.error 0 = d.error 0 := by
        unfold Drifting.error Drifting.completed
        rw [hcycles, hslack]
      obtain ⟨hlow, hhigh⟩ := abs_le.mp hdelta
      obtain ⟨hl, hu⟩ := hh.skews i
      rw [hnet, herror, ← hslack]
      have hidle : d.relative.phase i = .idle := by
        rw [Drifting.relative, Network.relative_phase, hp]
        rfl
      refine (hh.mono le_rfl ?_ ?_).injectDrift hidle ⟨?_, ?_⟩ <;> linarith
  | sync act there back hallows hstep hinjected hslack =>
      have hnext := sync_inHull hstep hslack hd.slack_nonneg (Nat.zero_le _) hh
      refine hnext.mono le_rfl ?_ ?_ <;> linarith

/-- A run from a network at rest. -/
theorem runDrift_inWidened {lo hi : ℚ} {events : List (ℚ × DriftAct n)} (hrest : d.AtRest 0)
    (hh : InHull d.slack lo hi d.relative)
    (hrun : runDrift settings peers d events = some d') : InWidened settings lo hi d' := by
  have hdrift : driftTotal settings d = 0 := by
    refine Finset.sum_eq_zero fun i _ => ?_
    simp [Drifting.begun, hrest.cycles i, hrest.clean i]
  have hcompleted : d.completed = 0 := Finset.sum_eq_zero fun i _ => hrest.cycles i
  refine runDrift_invariant (InWidened settings lo hi)
    (fun _ _ _ _ _ hstep hd => step_inWidened hstep hd) hrun ⟨hrest.slack_nonneg, ?_⟩
  rwa [Drifting.error, hdrift, hcompleted, Nat.sub_zero, Nat.cast_zero, mul_zero, sub_zero,
    sub_zero, add_zero, add_zero]

/-- The drift that fits into the limits. -/
theorem WithinLimit.driftTotal_le (hw : WithinLimit settings d)
    (hlimit : ∀ i, (settings i).cycles ≠ 0) : driftTotal settings d
      ≤ ∑ i, (settings i).driftMax * (((settings i).cycles / (settings i).k : ℕ) : ℚ) := by
  refine Finset.sum_le_sum fun i _ => ?_
  refine mul_le_mul_of_nonneg_left ?_ (settings i).driftMax_nonneg
  exact_mod_cast Nat.div_le_div_right (hw.begun_le i (hlimit i))

theorem WithinLimit.completed_le (hw : WithinLimit settings d)
    (hlimit : ∀ i, (settings i).cycles ≠ 0) : d.completed ≤ ∑ i, (settings i).cycles :=
  Finset.sum_le_sum fun i _ => (hw i (hlimit i)).1

end Steps

/-- **Averaging spreads the drift of a node, and adds to it only the errors of the samples.** Start
with no cycle begun. After any interleaving of the acts of all nodes, whatever they take and
whichever requests are answered, every skew lies in the first hull widened by the greatest drift
that the cycles begun can have put in and by the slack for each completed cycle; with a limit for
every node, both stay within what fits into the limits. -/
theorem skews_with_drift [NeZero n] (settings : Fin n → Settings) (peers : Fin n → List (Fin n))
    (d d' : Drifting n) (events : List (ℚ × DriftAct n)) (hrest : d.AtRest 0)
    (hrun : runDrift settings peers d events = some d') :
    (∀ i, Finset.univ.inf' Finset.univ_nonempty d.net.skews
            - (driftTotal settings d' + d'.slack * d'.completed) ≤ d'.net.skews i ∧
        d'.net.skews i ≤ Finset.univ.sup' Finset.univ_nonempty d.net.skews
          + (driftTotal settings d' + d'.slack * d'.completed)) ∧
      spread d'.net.skews ≤ spread d.net.skews
        + 2 * (driftTotal settings d' + d'.slack * d'.completed) ∧
      ((∀ i, (settings i).cycles ≠ 0) →
        driftTotal settings d'
          ≤ ∑ i, (settings i).driftMax * (((settings i).cycles / (settings i).k : ℕ) : ℚ) ∧
        d'.completed ≤ ∑ i, (settings i).cycles) := by
  have hstart := idle_inHull d.slack (Network.relative_idle d.readAt hrest.idle)
  have hend := (runDrift_inWidened hrest hstart hrun).hull
  have hwithin := runDrift_withinLimit hrest hrun
  have hskews : ∀ i, Finset.univ.inf' Finset.univ_nonempty d.net.skews
        - (driftTotal settings d' + d'.error 0) ≤ d'.net.skews i ∧
      d'.net.skews i ≤ Finset.univ.sup' Finset.univ_nonempty d.net.skews
        + (driftTotal settings d' + d'.error 0) := fun i => by
    rw [← sub_sub, ← add_assoc]
    exact hend.skews i
  refine ⟨hskews, spread_le fun i j => ?_, fun hlimit =>
    ⟨hwithin.driftTotal_le hlimit, hwithin.completed_le hlimit⟩⟩
  have hi := (hskews i).2
  have hj := (hskews j).1
  show d'.net.skews i - d'.net.skews j ≤ Finset.univ.sup' Finset.univ_nonempty d.net.skews
    - Finset.univ.inf' Finset.univ_nonempty d.net.skews
    + 2 * (driftTotal settings d' + d'.error 0)
  linarith

/-- The settings of a launch with drift in every second cycle. -/
def everySecond : Settings where
  cycles := 2
  k := 2
  driftMax := 3 / 2
  cycles_le := by decide
  k_pos := by decide
  k_le := by decide
  driftMax_nonneg := by norm_num
  driftMax_le := by norm_num

/-- Two nodes one second apart. -/
def twoNodes : Drifting 2 :=
  Network.begin ⟨fun i => ⟨i.val, 0⟩, fun _ => .idle, fun _ => 0⟩ 1000

theorem twoNodes_atRest : twoNodes.AtRest 0 := ⟨fun _ => rfl, fun _ => rfl, fun _ => rfl, le_rfl⟩

/-- Node 0 puts drift into its second cycle while node 1 is in its first, which asks for a tenth of
a second. -/
theorem skews_with_drift_two :
    ∃ d', runDrift (fun _ => everySecond) allOthers twoNodes
        [(1000, .sync (.read 0) 0 0), (1001, .sync (.answered 0) (1 / 20) (1 / 20)),
          (1001, .sync (.read 1) 0 0), (1002, .sync (.adjust 0) 0 0), (1003, .inject 0 1),
          (1003, .sync (.answered 1) (1 / 10) 0), (1004, .sync (.read 0) 0 0),
          (1004, .sync (.adjust 1) 0 0)] = some d' ∧
      spread d'.net.skews ≤ spread twoNodes.net.skews
        + 2 * (driftTotal (fun _ => everySecond) d' + d'.slack * d'.completed) := by
  have hsome : (runDrift (fun _ => everySecond) allOthers twoNodes
      [(1000, .sync (.read 0) 0 0), (1001, .sync (.answered 0) (1 / 20) (1 / 20)),
        (1001, .sync (.read 1) 0 0), (1002, .sync (.adjust 0) 0 0), (1003, .inject 0 1),
        (1003, .sync (.answered 1) (1 / 10) 0), (1004, .sync (.read 0) 0 0),
        (1004, .sync (.adjust 1) 0 0)]).isSome = true := by
    decide +kernel
  obtain ⟨d', hrun⟩ := Option.isSome_iff_exists.mp hsome
  exact ⟨d', hrun, (skews_with_drift (fun _ => everySecond) allOthers twoNodes d' _
    twoNodes_atRest hrun).2.1⟩

end Peers
