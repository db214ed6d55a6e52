import Mathlib.Logic.Function.Basic
import DistWorkshops.Lib.RoundRobin

/-!
# Mutual exclusion through a central server

The simulation `central_server.py`: `n` processes compete for one resource through a server
that grants it at once when it is free and queues the request (FIFO) otherwise. In every
round each process takes one turn, in the order of the process ids.

What the script prints is kept as data (`Line`), since the order of the printed REQUESTs and
GRANTs is part of what the simulation shows. Random choices are inputs: `Draw` is what
`random.random() < 0.4` and `random.randint(1, 3)` return at one turn.
-/

set_option autoImplicit false

namespace Mutex

/-! ## The server -/

/-- The lines printed by the server and by the processes. -/
inductive Line (π : Type) where
  | request (pid : π)
  | grant (pid : π)
  | queue (pid : π) (holder : π) (queue : List π)
  | release (pid : π)
  | idle (pid : π)
  | waiting (pid : π)
  | inUse (pid : π) (left : ℤ)
  deriving DecidableEq, Repr

structure CentralServer (π : Type) where
  holder : Option π
  queue : List π
  deriving DecidableEq, Repr

namespace CentralServer

variable {π : Type}

def init : CentralServer π := ⟨none, []⟩

/-- `request`: the server afterwards, whether the resource was granted, the printed line. -/
def request (server : CentralServer π) (pid : π) : CentralServer π × Bool × List (Line π) :=
  match server.holder with
  | none => ({ server with holder := some pid }, true, [.grant pid])
  | some holder =>
      let queue := server.queue ++ [pid]
      ({ server with queue }, false, [.queue pid holder queue])

/-- `release`: the server afterwards, the process the resource goes to, the printed lines. -/
def release (server : CentralServer π) (pid : π) :
    CentralServer π × Option π × List (Line π) :=
  match server.queue with
  | [] => ({ server with holder := none }, none, [.release pid])
  | nextPid :: queue => (⟨some nextPid, queue⟩, some nextPid, [.release pid, .grant nextPid])

end CentralServer

/-! ## The simulation -/

inductive PState where
  | idle
  | waiting
  | holding
  deriving DecidableEq, Repr

structure Stats where
  requests : ℕ
  grants : ℕ
  deriving DecidableEq, Repr

structure Sim (n : ℕ) where
  server : CentralServer (Fin n)
  state : Fin n → PState
  holdLeft : Fin n → ℤ
  stats : Stats
  log : List (Line (Fin n))

/-- What `random.randint(1, 3)` may return. -/
abbrev HoldTime := { k : ℤ // 1 ≤ k ∧ k ≤ 3 }

/-- The random draws of one turn. A turn draws at most one hold time. -/
structure Draw where
  wants : Bool
  hold : HoldTime

variable {n : ℕ}

def init (n : ℕ) : Sim n where
  server := .init
  state := fun _ => .idle
  holdLeft := fun _ => 0
  stats := ⟨0, 0⟩
  log := []

def Sim.print (s : Sim n) (lines : List (Line (Fin n))) : Sim n :=
  { s with log := s.log ++ lines }

/-- The process `pid` gets the resource: it holds it for a drawn number of rounds. -/
def Sim.hold (s : Sim n) (pid : Fin n) (hold : HoldTime) : Sim n :=
  { s with
    state := Function.update s.state pid .holding
    holdLeft := Function.update s.holdLeft pid hold.val
    stats := { s.stats with grants := s.stats.grants + 1 } }

/-- The turn of an idle process. -/
def idleTurn (s : Sim n) (pid : Fin n) (draw : Draw) : Sim n :=
  -- `wants` is the outcome of `random.random() < 0.4`
  if draw.wants then
    let s := { s with stats := { s.stats with requests := s.stats.requests + 1 } }
    let s := s.print [.request pid]
    let (server, granted, lines) := s.server.request pid
    let s := { s with server }.print lines
    if granted then s.hold pid draw.hold
    else { s with state := Function.update s.state pid .waiting }
  else s.print [.idle pid]

/-- The turn of the process that holds the resource. -/
def holdingTurn (s : Sim n) (pid : Fin n) (draw : Draw) : Sim n :=
  let s := s.print [.inUse pid (s.holdLeft pid)]
  let s := { s with holdLeft := Function.update s.holdLeft pid (s.holdLeft pid - 1) }
  -- the last round of the hold: the resource goes to the head of the queue, if there is one
  if s.holdLeft pid = 0 then
    let (server, nextHolder, lines) := s.server.release pid
    let s := { s with server }.print lines
    let s := { s with state := Function.update s.state pid .idle }
    match nextHolder with
    | none => s
    | some nextHolder => s.hold nextHolder draw.hold
  else s

/-- The body of the inner loop of `main`. -/
def turn (draw : Draw) (pid : Fin n) (s : Sim n) : Sim n :=
  match s.state pid with
  | .idle => idleTurn s pid draw
  | .waiting => s.print [.waiting pid]
  | .holding => holdingTurn s pid draw

/-- The draws of a whole run, by round and process. -/
abbrev Draws (n : ℕ) := ℕ → Fin n → Draw

/-- The two nested loops of `main`: the state after `rounds` rounds. -/
def simulate (draws : Draws n) (rounds : ℕ) : Sim n :=
  RoundRobin.rounds (fun r p => turn (draws r p) p) (init n) rounds

/-- The state of the run after `r` rounds and the first `j` turns of the next one. -/
def stateAfter (draws : Draws n) (r j : ℕ) : Sim n :=
  RoundRobin.after (fun r p => turn (draws r p) p) (init n) r j

theorem stateAfter_zero (draws : Draws n) (r : ℕ) : stateAfter draws r 0 = simulate draws r :=
  RoundRobin.after_start _ _ r

theorem stateAfter_turn (draws : Draws n) (r : ℕ) (p : Fin n) :
    stateAfter draws r (p + 1) = turn (draws r p) p (stateAfter draws r p) :=
  RoundRobin.after_turn _ _ r p

theorem stateAfter_last (draws : Draws n) (r : ℕ) :
    stateAfter draws r n = stateAfter draws (r + 1) 0 :=
  RoundRobin.after_last _ _ r

/-! ## What a turn does -/

/-- The transitions of the simulation. `Turn draw pid s s'` lists what the turn of `pid` may
do to the state, with the condition under which it does so. -/
inductive Turn (draw : Draw) (pid : Fin n) (s : Sim n) : Sim n → Prop where
  | rest (h : s.state pid = .idle) (hw : draw.wants = false) :
      Turn draw pid s (s.print [.idle pid])
  | grant (h : s.state pid = .idle) (hw : draw.wants = true) (hh : s.server.holder = none) :
      Turn draw pid s
        { server := { s.server with holder := some pid }
          state := Function.update s.state pid .holding
          holdLeft := Function.update s.holdLeft pid draw.hold.val
          stats := ⟨s.stats.requests + 1, s.stats.grants + 1⟩
          log := s.log ++ [.request pid, .grant pid] }
  | enqueue (holder : Fin n) (h : s.state pid = .idle) (hw : draw.wants = true)
      (hh : s.server.holder = some holder) :
      Turn draw pid s
        { server := { s.server with queue := s.server.queue ++ [pid] }
          state := Function.update s.state pid .waiting
          holdLeft := s.holdLeft
          stats := ⟨s.stats.requests + 1, s.stats.grants⟩
          log := s.log ++ [.request pid, .queue pid holder (s.server.queue ++ [pid])] }
  | wait (h : s.state pid = .waiting) : Turn draw pid s (s.print [.waiting pid])
  | use (h : s.state pid = .holding) (hl : s.holdLeft pid ≠ 1) :
      Turn draw pid s
        { s with
          holdLeft := Function.update s.holdLeft pid (s.holdLeft pid - 1)
          log := s.log ++ [.inUse pid (s.holdLeft pid)] }
  | release (h : s.state pid = .holding) (hl : s.holdLeft pid = 1)
      (hq : s.server.queue = []) :
      Turn draw pid s
        { server := ⟨none, []⟩
          state := Function.update s.state pid .idle
          holdLeft := Function.update s.holdLeft pid 0
          stats := s.stats
          log := s.log ++ [.inUse pid 1, .release pid] }
  | handOver (next : Fin n) (queue : List (Fin n)) (h : s.state pid = .holding)
      (hl : s.holdLeft pid = 1) (hq : s.server.queue = next :: queue) :
      Turn draw pid s
        { server := ⟨some next, queue⟩
          state := Function.update (Function.update s.state pid .idle) next .holding
          holdLeft :=
            Function.update (Function.update s.holdLeft pid 0) next draw.hold.val
          stats := ⟨s.stats.requests, s.stats.grants + 1⟩
          log := s.log ++ [.inUse pid 1, .release pid, .grant next] }

/-- Every turn is one of the listed transitions. -/
theorem turn_cases (draw : Draw) (pid : Fin n) (s : Sim n) :
    Turn draw pid s (turn draw pid s) := by
  cases h : s.state pid with
  | idle =>
      cases hw : draw.wants with
      | false =>
          have he : turn draw pid s = s.print [.idle pid] := by simp [turn, h, idleTurn, hw]
          exact he ▸ Turn.rest h hw
      | true =>
          cases hh : s.server.holder with
          | none =>
              have he := Turn.grant h hw hh
              convert he using 1
              simp [turn, h, idleTurn, hw, CentralServer.request, hh, Sim.print, Sim.hold]
          | some holder =>
              have he := Turn.enqueue holder h hw hh
              convert he using 1
              simp [turn, h, idleTurn, hw, CentralServer.request, hh, Sim.print]
  | waiting =>
      have he : turn draw pid s = s.print [.waiting pid] := by simp [turn, h]
      exact he ▸ Turn.wait h
  | holding =>
      -- the branch depends on the value before the decrement
      by_cases hl : s.holdLeft pid = 1
      · cases hq : s.server.queue with
        | nil =>
            have he : Turn draw pid s _ := Turn.release h hl hq
            convert he using 1
            simp [turn, h, holdingTurn, hl, CentralServer.release, hq, Sim.print]
        | cons next queue =>
            have he : Turn draw pid s _ := Turn.handOver next queue h hl hq
            convert he using 1
            simp [turn, h, holdingTurn, hl, CentralServer.release, hq, Sim.print, Sim.hold]
      · have hl' : s.holdLeft pid - 1 ≠ 0 := by omega
        have he : Turn draw pid s _ := Turn.use h hl
        convert he using 1
        simp [turn, h, holdingTurn, hl', Sim.print]

end Mutex
