import DistWorkshops.Lib.RoundRobin
import DistWorkshops.Python
import DistWorkshops.VectorClock.Clock

/-!
# The vector clock simulation

The loops of `simulation.py`: in every round each of the `n` processes takes one turn, in
the order of the process ids. A turn consumes the oldest message of the inbox if there is
one, and is otherwise a local event or the sending of a message. A message is the sender and
a copy of its clock; it waits in the inbox of the target.

Random choices are inputs: `Draw` holds the numbers behind the two calls of `random.choice` a
turn may make (`randomChoice`).
-/

set_option autoImplicit false

namespace VectorClock

variable {n : ℕ}

inductive Action where
  | recv
  | send
  | local
  deriving DecidableEq, Repr

/-- The last component of a history entry: `from P{sender}`, `to P{target}` or empty. -/
inductive Detail (n : ℕ) where
  | sender (pid : Fin n)
  | target (pid : Fin n)
  | empty
  deriving DecidableEq, Repr

structure Entry (n : ℕ) where
  action : Action
  clock : Clock n
  msgClock : Option (Clock n)
  detail : Detail n

structure Sim (n : ℕ) where
  clocks : Fin n → Clock n
  inboxes : Fin n → List (Fin n × Clock n)
  turnCount : Fin n → ℕ
  history : Fin n → List (Entry n)

def init (n : ℕ) : Sim n where
  clocks := fun _ => newClock n
  inboxes := fun _ => []
  turnCount := fun _ => 0
  history := fun _ => []

/-- The draws of one turn. -/
structure Draw where
  action : ℕ
  target : ℕ
  deriving Repr

def decideAction (pid : Fin n) (seq : ℕ) (hasIncoming : Bool) (draw : Draw) :
    Except PyError Action :=
  -- a waiting message is consumed before anything else
  if hasIncoming then .ok .recv
  else if seq = 0 then .ok .local
  else if (pid : ℕ) = 0 ∧ seq = 1 then .ok .send
  else randomChoice [.local, .send] draw.action

/-- The processes a message of `pid` may go to. -/
def targets (pid : Fin n) : List (Fin n) := (List.finRange n).filter (fun j => j ≠ pid)

def recvEvent (s : Sim n) (pid : Fin n) : Except PyError (Sim n) :=
  match s.inboxes pid with
  | [] => .error .indexError
  | (sender, msgClock) :: inbox =>
      let clock := tick (merge (s.clocks pid) msgClock) pid
      .ok { s with
        clocks := Function.update s.clocks pid clock
        inboxes := Function.update s.inboxes pid inbox
        history := Function.update s.history pid
          (s.history pid ++ [⟨.recv, clock, some msgClock, .sender sender⟩]) }

def sendEvent (s : Sim n) (pid : Fin n) (draw : Draw) : Except PyError (Sim n) :=
  let clock := tick (s.clocks pid) pid
  match randomChoice (targets pid) draw.target with
  | .error e => .error e
  | .ok target =>
      .ok { s with
        clocks := Function.update s.clocks pid clock
        inboxes := Function.update s.inboxes target (s.inboxes target ++ [(pid, clock)])
        history := Function.update s.history pid
          (s.history pid ++ [⟨.send, clock, none, .target target⟩]) }

def localEvent (s : Sim n) (pid : Fin n) : Sim n :=
  let clock := tick (s.clocks pid) pid
  { s with
    clocks := Function.update s.clocks pid clock
    history := Function.update s.history pid
      (s.history pid ++ [⟨.local, clock, none, .empty⟩]) }

/-- The body of the inner loop of `main`. -/
def turn (draw : Draw) (pid : Fin n) (s : Sim n) : Except PyError (Sim n) := do
  let action ← decideAction pid (s.turnCount pid) (!(s.inboxes pid).isEmpty) draw
  let s ← match action with
    | .recv => recvEvent s pid
    | .send => sendEvent s pid draw
    | .local => .ok (localEvent s pid)
  return { s with turnCount := Function.update s.turnCount pid (s.turnCount pid + 1) }

/-- The draws of a whole run, by round and process. -/
abbrev Draws (n : ℕ) := ℕ → Fin n → Draw

/-- The two nested loops of `main`: the state after `rounds` rounds. -/
def simulate (draws : Draws n) (rounds : ℕ) : Except PyError (Sim n) :=
  RoundRobin.rounds (RoundRobin.lift fun r p => turn (draws r p) p) (.ok (init n)) rounds

/-- The state of the run after `r` rounds and the first `j` turns of the next one. -/
def stateAfter (draws : Draws n) (r j : ℕ) : Except PyError (Sim n) :=
  RoundRobin.after (RoundRobin.lift fun r p => turn (draws r p) p) (.ok (init n)) r j

theorem stateAfter_zero (draws : Draws n) (r : ℕ) : stateAfter draws r 0 = simulate draws r :=
  RoundRobin.after_start _ _ r

/-! ## What a turn does -/

/-- The transitions of the simulation: what the turn of `pid` may do. -/
inductive Turn (pid : Fin n) (s s' : Sim n) : Prop where
  | recv (sender : Fin n) (msgClock : Clock n) (inbox : List (Fin n × Clock n))
      (hbox : s.inboxes pid = (sender, msgClock) :: inbox)
      (hs : s' =
        { clocks := Function.update s.clocks pid (tick (merge (s.clocks pid) msgClock) pid)
          inboxes := Function.update s.inboxes pid inbox
          turnCount := Function.update s.turnCount pid (s.turnCount pid + 1)
          history := Function.update s.history pid (s.history pid ++
            [⟨.recv, tick (merge (s.clocks pid) msgClock) pid, some msgClock,
              .sender sender⟩]) })
  | send (target : Fin n) (hbox : s.inboxes pid = []) (hne : target ≠ pid)
      (hs : s' =
        { clocks := Function.update s.clocks pid (tick (s.clocks pid) pid)
          inboxes := Function.update s.inboxes target
            (s.inboxes target ++ [(pid, tick (s.clocks pid) pid)])
          turnCount := Function.update s.turnCount pid (s.turnCount pid + 1)
          history := Function.update s.history pid (s.history pid ++
            [⟨.send, tick (s.clocks pid) pid, none, .target target⟩]) })
  | quiet (hbox : s.inboxes pid = [])
      (hs : s' =
        { clocks := Function.update s.clocks pid (tick (s.clocks pid) pid)
          inboxes := s.inboxes
          turnCount := Function.update s.turnCount pid (s.turnCount pid + 1)
          history := Function.update s.history pid (s.history pid ++
            [⟨.local, tick (s.clocks pid) pid, none, .empty⟩]) })

theorem decideAction_incoming (pid : Fin n) (seq : ℕ) (draw : Draw) :
    decideAction pid seq true draw = .ok .recv := rfl

theorem decideAction_quiet (pid : Fin n) (seq : ℕ) (draw : Draw) :
    decideAction pid seq false draw = .ok .local ∨
      decideAction pid seq false draw = .ok .send := by
  unfold decideAction
  rw [if_neg (by decide)]
  by_cases h0 : seq = 0
  · exact Or.inl (by rw [if_pos h0])
  · rw [if_neg h0]
    by_cases h1 : (pid : ℕ) = 0 ∧ seq = 1
    · exact Or.inr (by rw [if_pos h1])
    · rw [if_neg h1]
      -- a drawn action is one of the two that `random.choice` has to choose from
      have hne : [Action.local, Action.send] ≠ [] := by decide
      obtain ⟨x, hx, he⟩ := randomChoice_mem hne draw.action
      simp only [List.mem_cons, List.not_mem_nil, or_false] at hx
      rcases hx with rfl | rfl
      · exact Or.inl he
      · exact Or.inr he

theorem targets_ne_nil (hn : 2 ≤ n) (pid : Fin n) : targets pid ≠ [] := by
  have hother : ∃ j : Fin n, j ≠ pid := by
    by_cases h0 : (pid : ℕ) = 0
    · refine ⟨⟨1, by omega⟩, fun he => ?_⟩
      have := congrArg Fin.val he
      simp only at this
      omega
    · refine ⟨⟨0, by omega⟩, fun he => h0 ?_⟩
      exact (congrArg Fin.val he).symm
  obtain ⟨j, hj⟩ := hother
  exact List.ne_nil_of_mem (List.mem_filter.mpr ⟨List.mem_finRange j, by simpa using hj⟩)

/-! What a turn computes, by the action it takes. -/

section Actions

variable {s : Sim n} {pid : Fin n} (draw : Draw)

theorem turn_recv {sender : Fin n} {msgClock : Clock n} {inbox : List (Fin n × Clock n)}
    (hbox : s.inboxes pid = (sender, msgClock) :: inbox) :
    ∃ s', turn draw pid s = .ok s' ∧ s' =
      { clocks := Function.update s.clocks pid (tick (merge (s.clocks pid) msgClock) pid)
        inboxes := Function.update s.inboxes pid inbox
        turnCount := Function.update s.turnCount pid (s.turnCount pid + 1)
        history := Function.update s.history pid (s.history pid ++
          [⟨.recv, tick (merge (s.clocks pid) msgClock) pid, some msgClock,
            .sender sender⟩]) } := by
  refine ⟨_, ?_, rfl⟩
  simp only [turn, hbox, List.isEmpty_cons, Bool.not_false, decideAction_incoming,
    recvEvent, bind, Except.bind, pure, Except.pure]

theorem turn_local (hbox : s.inboxes pid = [])
    (hact : decideAction pid (s.turnCount pid) false draw = .ok .local) :
    ∃ s', turn draw pid s = .ok s' ∧ s' =
      { clocks := Function.update s.clocks pid (tick (s.clocks pid) pid)
        inboxes := s.inboxes
        turnCount := Function.update s.turnCount pid (s.turnCount pid + 1)
        history := Function.update s.history pid (s.history pid ++
          [⟨.local, tick (s.clocks pid) pid, none, .empty⟩]) } := by
  refine ⟨_, ?_, rfl⟩
  simp only [turn, hbox, List.isEmpty_nil, Bool.not_true, hact, localEvent, bind,
    Except.bind, pure, Except.pure]

theorem turn_send (hn : 2 ≤ n) (hbox : s.inboxes pid = [])
    (hact : decideAction pid (s.turnCount pid) false draw = .ok .send) :
    ∃ s' target, turn draw pid s = .ok s' ∧ target ≠ pid ∧ s' =
      { clocks := Function.update s.clocks pid (tick (s.clocks pid) pid)
        inboxes := Function.update s.inboxes target
          (s.inboxes target ++ [(pid, tick (s.clocks pid) pid)])
        turnCount := Function.update s.turnCount pid (s.turnCount pid + 1)
        history := Function.update s.history pid (s.history pid ++
          [⟨.send, tick (s.clocks pid) pid, none, .target target⟩]) } := by
  obtain ⟨target, hmem, hchoice⟩ := randomChoice_mem (targets_ne_nil hn pid) draw.target
  have hne : target ≠ pid := by simpa using (List.mem_filter.mp hmem).2
  refine ⟨_, target, ?_, hne, rfl⟩
  simp only [turn, hbox, List.isEmpty_nil, Bool.not_true, hact, sendEvent, hchoice, bind,
    Except.bind, pure, Except.pure]

end Actions

/-- With at least two processes every turn succeeds, and is one of the listed transitions. -/
theorem turn_cases (hn : 2 ≤ n) (draw : Draw) (pid : Fin n) (s : Sim n) :
    ∃ s', turn draw pid s = .ok s' ∧ Turn pid s s' := by
  cases hbox : s.inboxes pid with
  | cons msg inbox =>
      obtain ⟨sender, msgClock⟩ := msg
      obtain ⟨s', hturn, hs⟩ := turn_recv draw hbox
      exact ⟨s', hturn, Turn.recv sender msgClock inbox hbox hs⟩
  | nil =>
      rcases decideAction_quiet pid (s.turnCount pid) draw with hact | hact
      · obtain ⟨s', hturn, hs⟩ := turn_local draw hbox hact
        exact ⟨s', hturn, Turn.quiet hbox hs⟩
      · obtain ⟨s', target, hturn, hne, hs⟩ := turn_send draw hn hbox hact
        exact ⟨s', hturn, Turn.send target hbox hne hs⟩

/-- What every turn does to the histories. -/
structure Extends (pid : Fin n) (s s' : Sim n) (entry : Entry n) : Prop where
  turnCount : s'.turnCount = Function.update s.turnCount pid (s.turnCount pid + 1)
  history : s'.history = Function.update s.history pid (s.history pid ++ [entry])
  clocks : ∀ q, q ≠ pid → s'.clocks q = s.clocks q

theorem Turn.extends {pid : Fin n} {s s' : Sim n} (h : Turn pid s s') :
    ∃ entry, Extends pid s s' entry := by
  cases h with
  | recv sender msgClock inbox hbox hs =>
      subst hs
      exact ⟨_, rfl, rfl, fun q hq => Function.update_of_ne hq _ _⟩
  | send target hbox hne hs =>
      subst hs
      exact ⟨_, rfl, rfl, fun q hq => Function.update_of_ne hq _ _⟩
  | quiet hbox hs =>
      subst hs
      exact ⟨_, rfl, rfl, fun q hq => Function.update_of_ne hq _ _⟩

end VectorClock
