import DistWorkshops.Lib.OneChange
import DistWorkshops.Lib.Run
import DistWorkshops.Peers.Contraction
import DistWorkshops.Peers.Launcher

/-!
# Every node completes its cycles

A node with a limit of cycles goes on to it whatever the others do: a request that is not answered
is given up, so no node waits for ever, and the steps left are counted down by every step of a run
(`run_completes`). For the launcher this gives the whole run, from the command line to the table
at the end (`launch_run`).
-/

set_option autoImplicit false

namespace Peers

open Text

variable {n : ℕ}

/-! ## The steps that are left -/

/-- The steps left in a cycle of a node with `m` peers: drift, the own time, the requests, and the
end. -/
def leftInCycle (m : ℕ) (injected : Bool) : Phase n → ℕ
  | .idle => if injected then m + 2 else m + 3
  | .asking _ _ todo => todo.length + 1

/-- The steps left to a node with a limit of cycles. -/
def left (m limit cycles : ℕ) (injected : Bool) (phase : Phase n) : ℕ :=
  if limit ≤ cycles then 0 else (limit - (cycles + 1)) * (m + 3) + leftInCycle m injected phase

theorem left_of_lt {m limit cycles : ℕ} (h : cycles < limit) (injected : Bool) (phase : Phase n) :
    left m limit cycles injected phase
      = (limit - (cycles + 1)) * (m + 3) + leftInCycle m injected phase :=
  if_neg (Nat.not_le_of_lt h)

/-- What is left between two cycles. -/
theorem left_idle (m limit cycles : ℕ) :
    left m limit cycles false (.idle : Phase n) = (limit - cycles) * (m + 3) := by
  unfold left
  split
  · rw [Nat.sub_eq_zero_of_le ‹_›, Nat.zero_mul]
  · have hone : limit - cycles = limit - (cycles + 1) + 1 := by omega
    rw [hone, Nat.succ_mul]
    rfl

namespace Drifting

variable (settings : Fin n → Settings) (peers : Fin n → List (Fin n)) (d : Drifting n)

/-- The steps left to the node `i`. -/
def left (i : Fin n) : ℕ :=
  Peers.left (peers i).length (settings i).cycles (d.net.cycles i) (d.injected i)
    (d.relative.phase i)

/-- The node `i` has made all its cycles. -/
def Completed (i : Fin n) : Prop :=
  d.net.phase i = .idle ∧ d.net.cycles i = (settings i).cycles

end Drifting

section Completion

variable {settings : Fin n → Settings} {peers : Fin n → List (Fin n)} {d d' : Drifting n}

/-! ## Every step counts down -/

/-- A step takes one from what is left to its node, and changes nothing for the others. -/
structure CountsDown (settings : Fin n → Settings) (peers : Fin n → List (Fin n))
    (d d' : Drifting n) (i : Fin n) : Prop where
  self : d'.left settings peers i + 1 ≤ d.left settings peers i
  others : ∀ j, j ≠ i → d'.left settings peers j = d.left settings peers j

/-- A node that moves on in its cycle. -/
theorem countsDown_setPhase {i : Fin n} {phase : Phase n}
    (hbelow : d.net.cycles i < (settings i).cycles)
    (hnet : d'.relative = d.relative.setPhase i phase) (hinjected : d'.injected = d.injected)
    (hphase : leftInCycle (peers i).length (d.injected i) phase + 1
      ≤ leftInCycle (peers i).length (d.injected i) (d.relative.phase i)) :
    CountsDown settings peers d d' i := by
  have hcycles : d'.net.cycles = d.net.cycles := (Drifting.cycles_of_relative hnet :)
  constructor
  · rw [Drifting.left, Drifting.left, hnet, hinjected, hcycles, Network.setPhase_phase,
      Function.update_self, left_of_lt hbelow, left_of_lt hbelow]
    omega
  · intro j hj
    rw [Drifting.left, Drifting.left, hnet, hinjected, hcycles, Network.setPhase_phase,
      Function.update_of_ne hj]

theorem driftStep_countsDown {act : DriftAct n} (hlimit : ∀ i, (settings i).cycles ≠ 0)
    (hw : WithinLimit settings d) (h : DriftStep settings peers d d' act) :
    ∃ i, CountsDown settings peers d d' i := by
  cases h with
  | inject i delta hp hgoing hdue hnot hdelta hnet hinjected hslack =>
      have hbelow : d.net.cycles i < (settings i).cycles :=
        Nat.lt_of_not_le fun hfin => hgoing ⟨hlimit i, hfin⟩
      have hcycles : d'.net.cycles = d.net.cycles := (Drifting.cycles_of_relative hnet :)
      have hphase : d'.relative.phase = d.relative.phase := by
        rw [hnet]
        rfl
      have hidle : d.relative.phase i = .idle := by
        rw [Drifting.relative, Network.relative_phase, hp]
        rfl
      refine ⟨i, ?_, fun j hj => ?_⟩
      · rw [Drifting.left, Drifting.left, hcycles, hphase, hinjected, Function.update_self, hnot,
          hidle, left_of_lt hbelow, left_of_lt hbelow]
        exact Nat.le_refl _
      · rw [Drifting.left, Drifting.left, hcycles, hphase, hinjected, Function.update_of_ne hj]
  | sync act there back hallows hstep hinjected hslack =>
      cases hstep with
      | read i hp hs =>
          have hbelow : d.net.cycles i < (settings i).cycles :=
            Nat.lt_of_not_le fun hfin => hallows.1 ⟨hlimit i, hfin⟩
          refine ⟨i, countsDown_setPhase hbelow hs hinjected ?_⟩
          rw [hp, leftInCycle, leftInCycle]
          split <;> omega
      | answered i peer own samples todo sample hp hnear hs =>
          refine ⟨i, countsDown_setPhase (hw.asking hp (hlimit i)) hs hinjected ?_⟩
          rw [hp]
          exact Nat.le_refl _
      | unanswered i peer own samples todo hp hs =>
          refine ⟨i, countsDown_setPhase (hw.asking hp (hlimit i)) hs hinjected ?_⟩
          rw [hp]
          exact Nat.le_refl _
      | adjust i own samples node hp hnode hs =>
          have hbelow := hw.asking hp (hlimit i)
          have hcycles : d'.net.cycles = Function.update d.net.cycles i (d.net.cycles i + 1) :=
            (Drifting.cycles_of_relative hs :)
          refine ⟨i, ?_, fun j hj => ?_⟩
          · -- one step was left in the cycle, and the next one is whole
            rw [Drifting.left, Drifting.left, hinjected, hcycles, hs, hp, Network.endCycle_phase,
              left_of_lt hbelow]
            simp only [injectedAfter, Function.update_self]
            rw [left_idle]
            exact Nat.le_refl _
          · rw [Drifting.left, Drifting.left, hinjected, hcycles, hs, Network.endCycle_phase,
              Function.update_of_ne hj, Function.update_of_ne hj]
            simp only [injectedAfter, Function.update_of_ne hj]

/-- The steps left to all nodes. -/
theorem CountsDown.sum {i : Fin n} (h : CountsDown settings peers d d' i) :
    (∑ j, d'.left settings peers j) + 1 ≤ ∑ j, d.left settings peers j :=
  OneChange.sum_succ_le h.self h.others

/-! ## A node that has not completed can go on -/

/-- The node can act at once when it has ended its last act. -/
theorem Drifting.timely (d : Drifting n) (i : Fin n) :
    d.Timely i (max d.now (d.free i)) 0 0 := by
  refine ⟨le_max_left _ _, ?_, le_rfl, le_rfl⟩
  rw [sub_zero]
  exact le_max_right _ _

theorem exists_step {i : Fin n} (hlimit : (settings i).cycles ≠ 0) (hw : WithinLimit settings d)
    (hnot : ¬ d.Completed settings i) :
    ∃ event, (stepDrift settings peers d event).isSome = true := by
  have htimely := d.timely i
  cases hp : d.net.phase i with
  | idle =>
      have hgoing : ¬ (settings i).Finished (d.net.cycles i) := fun hfin =>
        hnot ⟨hp, le_antisymm (hw i hlimit).1 hfin.2⟩
      by_cases hdue : (settings i).Due (d.net.cycles i) ∧ d.injected i = false
      · have hzero : |(0 : ℚ)| ≤ (settings i).driftMax := by
          rw [abs_zero]
          exact (settings i).driftMax_nonneg
        refine ⟨(max d.now (d.free i), .inject i 0), ?_⟩
        simp only [stepDrift, hp]
        rw [if_pos ⟨htimely, hgoing, hdue.1, hdue.2, hzero⟩]
        rfl
      · have hallows : d.Allows settings (.read i) := by
          refine ⟨hgoing, fun h => ?_⟩
          rw [← Bool.not_eq_false]
          exact fun hinjected => hdue ⟨h, hinjected⟩
        refine ⟨(max d.now (d.free i), .sync (.read i) 0 0), ?_⟩
        simp only [stepDrift]
        rw [if_pos ⟨htimely, hallows⟩, stepAt, step, hp]
        · rfl
        · exact fun j hj => by cases hj
  | asking own samples todo =>
      cases todo with
      | nil =>
          have hallows : d.Allows settings (.adjust i) := trivial
          refine ⟨(max d.now (d.free i), .sync (.adjust i) 0 0), ?_⟩
          simp only [stepDrift]
          rw [if_pos ⟨htimely, hallows⟩, stepAt, step, hp]
          · rfl
          · exact fun j hj => by cases hj
      | cons peer todo =>
          have hallows : d.Allows settings (.unanswered i) := trivial
          refine ⟨(max d.now (d.free i), .sync (.unanswered i) 0 0), ?_⟩
          simp only [stepDrift]
          rw [if_pos ⟨htimely, hallows⟩, stepAt, step, hp]
          · rfl
          · exact fun j hj => by cases hj

theorem no_step_of_completed (hlimit : ∀ i, (settings i).cycles ≠ 0)
    (h : ∀ i, d.Completed settings i) (event : ℚ × DriftAct n) :
    stepDrift settings peers d event = none := by
  obtain ⟨t, act⟩ := event
  by_contra hne
  obtain ⟨d', hstep⟩ := Option.ne_none_iff_exists'.mp hne
  have hfin : ∀ i, (settings i).Finished (d.net.cycles i) := fun i =>
    ⟨hlimit i, (h i).2.ge⟩
  have hidle : ∀ i own samples todo, d.relative.phase i ≠ .asking own samples todo :=
    fun i own samples todo hp => by
      rw [Drifting.relative, Network.relative_phase, (h i).1] at hp
      cases hp
  cases driftStep_cases hstep with
  | inject i delta hp hgoing hdue hnot hdelta hnet hinjected hslack => exact hgoing (hfin i)
  | sync act there back hallows hsync hinjected hslack =>
      cases hsync with
      | read i hp hs => exact hallows.1 (hfin i)
      | answered i peer own samples todo sample hp hnear hs => exact hidle i _ _ _ hp
      | unanswered i peer own samples todo hp hs => exact hidle i _ _ _ hp
      | adjust i own samples node hp hnode hs => exact hidle i _ _ _ hp

/-! ## A whole run -/

theorem Drifting.AtRest.left_eq (hrest : d.AtRest 0) (i : Fin n) :
    d.left settings peers i = (settings i).cycles * ((peers i).length + 3) := by
  rw [Drifting.left, Drifting.relative, Network.relative_idle d.readAt hrest.idle i,
    hrest.clean i, hrest.cycles i, left_idle, Nat.sub_zero]

/-- A run goes on until all nodes have completed, and it has no more steps than were left. -/
theorem runDrift_completes {events : List (ℚ × DriftAct n)}
    (hlimit : ∀ i, (settings i).cycles ≠ 0) (hrest : d.AtRest 0)
    (hrun : runDrift settings peers d events = some d') :
    events.length ≤ ∑ i, (settings i).cycles * ((peers i).length + 3) ∧
      ((∀ event, stepDrift settings peers d' event = none) ↔
        ∀ i, d'.Completed settings i) := by
  have hwithin := runDrift_withinLimit hrest hrun
  constructor
  · have hcount := Run.length_foldlM (fun e => ∑ i, e.left settings peers i)
      hrest.withinLimit (fun e e' event hw hstep => by
        obtain ⟨i, hdown⟩ := driftStep_countsDown hlimit hw (driftStep_cases hstep)
        exact ⟨step_withinLimit (driftStep_cases hstep) hw, hdown.sum⟩) hrun
    have hall : ∑ i, d.left settings peers i
        = ∑ i, (settings i).cycles * ((peers i).length + 3) :=
      Finset.sum_congr rfl fun i _ => hrest.left_eq i
    rw [← hall]
    exact Nat.le_of_add_right_le hcount
  · constructor
    · intro hstuck i
      by_contra hnot
      obtain ⟨event, hstep⟩ := exists_step (hlimit i) hwithin hnot
      rw [hstuck event] at hstep
      cases hstep
    · exact fun hall event => no_step_of_completed hlimit hall event

end Completion

/-- **No node waits for ever.** When every node has a limit of cycles, a run of all nodes has at
most as many steps as the cycles take: each injects drift at most once, reads its time, makes one
request for each peer, answered or not, and ends. It can always be continued, until every node has
made exactly its cycles. -/
theorem run_completes (settings : Fin n → Settings) (peers : Fin n → List (Fin n))
    (d d' : Drifting n) (events : List (ℚ × DriftAct n)) (hlimit : ∀ i, (settings i).cycles ≠ 0)
    (hrest : d.AtRest 0) (hrun : runDrift settings peers d events = some d') :
    events.length ≤ ∑ i, (settings i).cycles * ((peers i).length + 3) ∧
      ((∀ event, stepDrift settings peers d' event = none) ↔
        ∀ i, d'.net.phase i = .idle ∧ d'.net.cycles i = (settings i).cycles) :=
  runDrift_completes hlimit hrest hrun

/-! ## The nodes of the launcher -/

/-- The network of the launcher before its first step. -/
def LaunchOptions.start (o : LaunchOptions) (draw : ℕ → Fraction) (now : ℚ) : Drifting o.peers :=
  Network.begin ⟨o.clock draw, fun _ => .idle, fun _ => 0⟩ now

theorem LaunchOptions.start_atRest (o : LaunchOptions) (draw : ℕ → Fraction) (now : ℚ) :
    (o.start draw now).AtRest 0 :=
  ⟨fun _ => rfl, fun _ => rfl, fun _ => rfl, le_rfl⟩

theorem LaunchOptions.InRange.start_inHull {o : LaunchOptions} (hrange : o.InRange)
    (draw : ℕ → Fraction) (now : ℚ) :
    InHull 0 (-(o.spread / 2)) (o.spread / 2) (o.start draw now).relative := by
  refine ⟨fun i => ?_, fun i own samples todo hp => by cases hp⟩
  have hskew : (o.start draw now).net.skews i = uniform (-o.spread / 2) (o.spread / 2) (draw i) :=
    o.clock_skew draw i
  show _ ≤ (o.start draw now).net.skews i ∧ (o.start draw now).net.skews i ≤ _
  rw [hskew]
  exact abs_le.mp (abs_uniform_le hrange.spread_ge (draw i))

/-- **A launch from the command line to the table at the end.** With options that are read, every
run of the nodes ends after at most so many steps, with all cycles of all nodes made, and whatever
the order of the steps and the time they take no clock is ever off by more than half the spread,
all the drift that the cycles put in, and the slack for each cycle. -/
theorem launch_run (unicode : Unicode) (lower : List Char → List Char) (argv : List (List Char))
    (o : LaunchOptions) (ho : launchOptions unicode lower argv = .ok o) (draw : ℕ → Fraction)
    (now : ℚ) (d : Drifting o.peers) (events : List (ℚ × DriftAct o.peers))
    (hrun : runDrift (fun _ => o.settings (launchOptions_inRange ho)) allOthers
      (o.start draw now) events = some d) :
    events.length ≤ o.peers * (o.cycles * (o.peers + 2)) ∧
      ((∀ event, stepDrift (fun _ => o.settings (launchOptions_inRange ho)) allOthers d event
          = none) ↔ ∀ i, d.net.phase i = .idle ∧ d.net.cycles i = o.cycles) ∧
      ∀ i, |d.net.skews i| ≤ o.spread / 2 + o.peers * (o.drift * (o.cycles / o.k : ℕ))
        + d.slack * (o.peers * o.cycles) := by
  have hrange := launchOptions_inRange ho
  have hlimit : o.cycles ≠ 0 := Nat.ne_of_gt hrange.cycles_ge
  have hrest := o.start_atRest draw now
  obtain ⟨hlength, hstuck⟩ := runDrift_completes (fun _ => hlimit) hrest hrun
  refine ⟨?_, hstuck, fun i => ?_⟩
  · have hsum : ∑ i : Fin o.peers, o.cycles * ((allOthers i).length + 3)
        = o.peers * (o.cycles * (o.peers + 2)) := by
      have hone : ∀ i : Fin o.peers, (allOthers i).length + 3 = o.peers + 2 := fun i => by
        have hothers := allOthers_length i
        omega
      simp only [hone, Finset.sum_const, Finset.card_univ, Fintype.card_fin, nsmul_eq_mul,
        Nat.cast_id]
    exact hlength.trans_eq hsum
  · have hwithin := runDrift_withinLimit hrest hrun
    have hwidened := runDrift_inWidened hrest (hrange.start_inHull draw now) hrun
    have hdrift := hwithin.driftTotal_le fun _ => hlimit
    have hsum : ∑ _i : Fin o.peers, o.drift * ((o.cycles / o.k : ℕ) : ℚ)
        = o.peers * (o.drift * (o.cycles / o.k : ℕ)) := by
      simp only [Finset.sum_const, Finset.card_univ, Fintype.card_fin, nsmul_eq_mul]
    have htotal := hdrift.trans_eq hsum
    have hcompleted : (d.completed : ℚ) ≤ o.peers * o.cycles := by
      have hcount := hwithin.completed_le fun _ => hlimit
      rw [Finset.sum_const, Finset.card_univ, Fintype.card_fin, nsmul_eq_mul, Nat.cast_id] at hcount
      exact_mod_cast hcount
    have herror : d.error 0 ≤ d.slack * (o.peers * o.cycles) :=
      mul_le_mul_of_nonneg_left hcompleted hwidened.slack_nonneg
    have hskew : -(o.spread / 2) - driftTotal _ d - d.error 0 ≤ d.net.skews i ∧
      d.net.skews i ≤ o.spread / 2 + driftTotal _ d + d.error 0 := hwidened.hull.skews i
    obtain ⟨hlow, hhigh⟩ := hskew
    rw [abs_le]
    constructor <;> linarith

/-! ## Two peers -/

/-- Node 1 makes its cycles alone, its requests unanswered, and then node 0 does. -/
theorem run_completes_two :
    ∃ d', runDrift (fun _ => everySecond) allOthers twoNodes
        [(1000, .sync (.read 1) 0 0), (1000, .sync (.unanswered 1) 0 (3 / 2)),
          (1002, .sync (.adjust 1) 0 0), (1003, .inject 1 (-1)), (1004, .sync (.read 1) 0 0),
          (1005, .sync (.unanswered 1) 0 (3 / 2)), (1007, .sync (.adjust 1) 0 0),
          (1008, .sync (.read 0) 0 0), (1009, .sync (.answered 0) (1 / 20) (1 / 20)),
          (1010, .sync (.adjust 0) 0 0), (1011, .inject 0 1), (1012, .sync (.read 0) 0 0),
          (1013, .sync (.answered 0) (1 / 20) (1 / 20)), (1014, .sync (.adjust 0) 0 0)]
        = some d' ∧
      ((∀ event, stepDrift (fun _ => everySecond) allOthers d' event = none) ↔
        ∀ i, d'.net.phase i = .idle ∧ d'.net.cycles i = 2) := by
  have hsome : (runDrift (fun _ => everySecond) allOthers twoNodes
      [(1000, .sync (.read 1) 0 0), (1000, .sync (.unanswered 1) 0 (3 / 2)),
        (1002, .sync (.adjust 1) 0 0), (1003, .inject 1 (-1)), (1004, .sync (.read 1) 0 0),
        (1005, .sync (.unanswered 1) 0 (3 / 2)), (1007, .sync (.adjust 1) 0 0),
        (1008, .sync (.read 0) 0 0), (1009, .sync (.answered 0) (1 / 20) (1 / 20)),
        (1010, .sync (.adjust 0) 0 0), (1011, .inject 0 1), (1012, .sync (.read 0) 0 0),
        (1013, .sync (.answered 0) (1 / 20) (1 / 20)), (1014, .sync (.adjust 0) 0 0)]).isSome
      = true := by
    decide +kernel
  obtain ⟨d', hrun⟩ := Option.isSome_iff_exists.mp hsome
  exact ⟨d', hrun, (run_completes (fun _ => everySecond) allOthers twoNodes d' _
    (fun _ => by decide) twoNodes_atRest hrun).2⟩

theorem launch_run_two :
    let settings := twoPeersOptions.settings (launchOptions_inRange launchOptions_twoPeers)
    ∃ draw d, runDrift (fun _ => settings) allOthers (twoPeersOptions.start draw 1000)
        [(1000, .sync (.read ⟨0, by decide⟩) 0 0),
          (1001, .sync (.answered ⟨0, by decide⟩) (1 / 20) (1 / 20)),
          (1002, .sync (.adjust ⟨0, by decide⟩) 0 0)] = some d ∧
      ∀ i, |d.net.skews i| ≤ 6 / 2 + 2 * (3 / 2 * ((8 / 5 : ℕ) : ℚ)) + d.slack * (2 * 8) := by
  intro settings
  let draw : ℕ → Fraction := fun i => if i = 0 then ⟨0, by decide⟩ else ⟨1, by decide⟩
  have hsome : (runDrift (fun _ => settings) allOthers (twoPeersOptions.start draw 1000)
      [(1000, .sync (.read ⟨0, by decide⟩) 0 0),
        (1001, .sync (.answered ⟨0, by decide⟩) (1 / 20) (1 / 20)),
        (1002, .sync (.adjust ⟨0, by decide⟩) 0 0)]).isSome = true := by
    decide +kernel
  obtain ⟨d, hrun⟩ := Option.isSome_iff_exists.mp hsome
  exact ⟨draw, d, hrun, (launch_run .ascii (List.map Char.toLower) twoPeers twoPeersOptions
    launchOptions_twoPeers draw 1000 d _ hrun).2.2⟩

end Peers
