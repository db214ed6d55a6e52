import Mathlib.Algebra.BigOperators.Fin
import DistWorkshops.Lib.OneChange
import DistWorkshops.Lib.Run
import DistWorkshops.Peers.Wire
import DistWorkshops.Utc.TimeServer

/-!
# The UTC server with its clients

The loop of `utc_time_server` and any number of threads `utc_time_client`, each with a request of
its own: the client sends `Time request`, and another program may send anything. A request waits for
the server, which takes them in any order and answers each before the next; a thread waits for its
answer until it gives up, and then the answer is dropped. It closes its socket with a linger of 0,
so a request that has not left by then, as when there is no server, is thrown away. `now` is the
clock of the server in whole seconds, which is not set back.

A thread that has a time has the one at which its request was answered, so it lies between the
moments of asking and of reading (`times_current`). The server is never stuck, on an error either:
once nothing moves, every thread has its answer or has given up, after four steps a thread, or three
if its request was thrown away (`every_thread_ends`).
-/

set_option autoImplicit false

namespace Utc

open Text
open Peers (RepSocket)

variable {n : ℕ}

/-- Where a thread stands, with the times at which it asked and read. -/
inductive Phase where
  | ready
  | waiting (asked : ℕ)
  | finished (result : Except ReplyError (List Char)) (asked read : ℕ)
  | timedOut

structure Session (n : ℕ) where
  now : ℕ
  phase : Fin n → Phase
  /-- The request is on its way to the server. -/
  pending : Fin n → Bool
  socket : RepSocket
  /-- Whose request the server has taken. -/
  handling : Option (Fin n)
  /-- What is on its way back. -/
  reply : Fin n → Option Bytes

def start (n now : ℕ) : Session n where
  now := now
  phase _ := .ready
  pending _ := false
  socket := ⟨false, []⟩
  handling := none
  reply _ := none

inductive Act (n : ℕ) where
  | tick (seconds : ℕ)
  | send (i : Fin n)
  | recv (i : Fin n)
  | answer
  | read (i : Fin n)
  | timeout (i : Fin n)
  | discard (i : Fin n)

section Steps

variable (unicode : Unicode) (request : Fin n → Bytes)

/-- One step; `none` when the thread or the server is not at it, or the socket raises an error. -/
def step (s : Session n) : Act n → Option (Session n)
  | .tick seconds => some { s with now := s.now + seconds }
  | .send i =>
      match s.phase i with
      | .ready => some { s with
          phase := Function.update s.phase i (.waiting s.now)
          pending := Function.update s.pending i true }
      | _ => none
  | .recv i =>
      if s.handling = none ∧ s.pending i = true then
        (s.socket.recv (request i)).map fun socket => { s with
          socket := socket
          handling := some i
          pending := Function.update s.pending i false }
      else none
  | .answer =>
      match s.handling with
      | none => none
      | some i =>
          (s.socket.sendString (answer unicode (request i) s.now)).map fun socket => { s with
            socket := socket
            handling := none
            reply := Function.update s.reply i
              (some (Utf8.encode (answer unicode (request i) s.now))) }
  | .read i =>
      match s.phase i, s.reply i with
      | .waiting asked, some raw => some { s with
          phase := Function.update s.phase i
            (.finished (validateReply unicode raw) asked s.now)
          reply := Function.update s.reply i none }
      | _, _ => none
  | .timeout i =>
      match s.phase i with
      | .waiting _ => some { s with phase := Function.update s.phase i .timedOut }
      | _ => none
  -- `close(linger=0)` throws away what was not sent, or the server loses it with the connection
  | .discard i =>
      match s.phase i, s.pending i with
      | .timedOut, true => some { s with pending := Function.update s.pending i false }
      | _, _ => none

def run (s : Session n) (acts : List (Act n)) : Option (Session n) :=
  acts.foldlM (step unicode request) s

end Steps

/-! ## One thread -/

/-- What a session has of one thread: where it stands, and where its request and its answer are. -/
structure Place where
  phase : Phase
  pending : Bool
  handled : Bool
  reply : Option Bytes

def Session.place (s : Session n) (i : Fin n) : Place where
  phase := s.phase i
  pending := s.pending i
  handled := s.handling = some i
  reply := s.reply i

def Act.isTick : Act n → Bool
  | .tick _ => true
  | _ => false

def Act.isDiscard : Act n → Bool
  | .discard _ => true
  | _ => false

/-- The steps that are still to come of a thread, if its request is not thrown away. -/
def Place.rank (x : Place) : ℕ :=
  (match x.phase with
    | .ready => 4
    | .waiting _ => 1
    | _ => 0) + (if x.pending then 2 else 0) + if x.handled then 1 else 0

section Threads

variable (unicode : Unicode) (request : Bytes) (now : ℕ)

/-- What a step does to the thread that it is about, and whether it throws its request away. -/
inductive Move : Bool → Place → Place → Prop where
  | send {pending handled : Bool} {reply : Option Bytes} :
      Move false ⟨.ready, pending, handled, reply⟩ ⟨.waiting now, true, handled, reply⟩
  | recv {phase : Phase} {reply : Option Bytes} :
      Move false ⟨phase, true, false, reply⟩ ⟨phase, false, true, reply⟩
  | answer {phase : Phase} {pending : Bool} {reply : Option Bytes} :
      Move false ⟨phase, pending, true, reply⟩
        ⟨phase, pending, false, some (Utf8.encode (answer unicode request now))⟩
  | read {asked : ℕ} {raw : Bytes} {pending handled : Bool} :
      Move false ⟨.waiting asked, pending, handled, some raw⟩
        ⟨.finished (validateReply unicode raw) asked now, pending, handled, none⟩
  | timeout {asked : ℕ} {pending handled : Bool} {reply : Option Bytes} :
      Move false ⟨.waiting asked, pending, handled, reply⟩ ⟨.timedOut, pending, handled, reply⟩
  | discard {handled : Bool} {reply : Option Bytes} :
      Move true ⟨.timedOut, true, handled, reply⟩ ⟨.timedOut, false, handled, reply⟩

/-- The request of a waiting thread is in one place, its answer is that of a moment after the
asking, and so is what it has read. -/
structure Place.Sound (x : Place) : Prop where
  ready : x.phase = .ready → x.pending = false ∧ x.handled = false ∧ x.reply = none
  waiting : ∀ asked, x.phase = .waiting asked →
    asked ≤ now ∧ (x.pending = true ∨ x.handled = true ∨ x.reply ≠ none)
  replied : ∀ raw, x.reply = some raw → ∃ served ≤ now,
    raw = Utf8.encode (answer unicode request served) ∧
      ∀ asked, x.phase = .waiting asked → asked ≤ served
  finished : ∀ result asked read, x.phase = .finished result asked read →
    read ≤ now ∧ ∃ served, asked ≤ served ∧ served ≤ read ∧
      result = validateReply unicode (Utf8.encode (answer unicode request served))

variable {unicode request now} {discarded : Bool} {x y : Place}

theorem Place.Sound.later {now' : ℕ} (hx : x.Sound unicode request now) (hle : now ≤ now') :
    x.Sound unicode request now' := by
  refine ⟨hx.ready, fun asked h => ?_, fun raw h => ?_, fun result asked read h => ?_⟩
  · obtain ⟨hasked, hplace⟩ := hx.waiting asked h
    exact ⟨hasked.trans hle, hplace⟩
  · obtain ⟨served, hserved, hraw⟩ := hx.replied raw h
    exact ⟨served, hserved.trans hle, hraw⟩
  · obtain ⟨hread, hserved⟩ := hx.finished result asked read h
    exact ⟨hread.trans hle, hserved⟩

theorem Move.sound (h : Move unicode request now discarded x y) (hx : x.Sound unicode request now) :
    y.Sound unicode request now := by
  cases h with
  | send =>
      obtain ⟨-, -, hnone⟩ := hx.ready rfl
      refine ⟨fun h => (by cases h), fun asked h => ?_, fun raw h => ?_,
        fun _ _ _ h => (by cases h)⟩
      · obtain rfl := Phase.waiting.inj h
        exact ⟨le_rfl, .inl rfl⟩
      · rw [hnone] at h
        cases h
  | recv =>
      refine ⟨fun h => ?_, fun asked h => ?_, hx.replied, hx.finished⟩
      · obtain ⟨hnot, -⟩ := hx.ready h
        cases hnot
      · exact ⟨(hx.waiting asked h).1, .inr (.inl rfl)⟩
  | answer =>
      refine ⟨fun h => ?_, fun asked h => ?_, fun raw h => ?_, hx.finished⟩
      · obtain ⟨-, hnot, -⟩ := hx.ready h
        cases hnot
      · exact ⟨(hx.waiting asked h).1, .inr (.inr (Option.some_ne_none _))⟩
      -- the answer has the time of now, which is not before the question
      · exact ⟨now, le_rfl, (Option.some.inj h).symm, fun asked h => (hx.waiting asked h).1⟩
  | @read asked raw =>
      -- the answer is read at a time not before it was made
      obtain ⟨served, hserved, rfl, hasked⟩ := hx.replied raw rfl
      refine ⟨fun h => (by cases h), fun _ h => (by cases h), fun _ h => (by cases h),
        fun result asked' read h => ?_⟩
      obtain ⟨rfl, rfl, rfl⟩ := Phase.finished.inj h
      exact ⟨le_rfl, served, hasked _ rfl, hserved, rfl⟩
  | timeout =>
      refine ⟨fun h => (by cases h), fun _ h => (by cases h), fun raw h => ?_,
        fun _ _ _ h => (by cases h)⟩
      -- an answer may come after the thread has given up; nobody reads it
      obtain ⟨served, hserved, hraw, -⟩ := hx.replied raw h
      exact ⟨served, hserved, hraw, fun _ h => (by cases h)⟩
  | discard =>
      exact ⟨fun h => (by cases h), fun _ h => (by cases h), hx.replied,
        fun _ _ _ h => (by cases h)⟩

/-- A request that is thrown away is neither taken nor answered. -/
theorem Move.rank (h : Move unicode request now discarded x y) (hx : x.Sound unicode request now) :
    y.rank + 1 + (if discarded then 1 else 0) = x.rank := by
  cases h with
  | send =>
      obtain ⟨hnot, -, -⟩ := hx.ready rfl
      obtain rfl : _ = false := hnot
      simp only [Place.rank, Bool.false_eq_true, if_true, if_false]
      omega
  | recv => rfl
  | answer => rfl
  | read =>
      simp only [Place.rank, Bool.false_eq_true, if_false]
      omega
  | timeout =>
      simp only [Place.rank, Bool.false_eq_true, if_false]
      omega
  | discard =>
      simp only [Place.rank, Bool.false_eq_true, if_true, if_false]
      omega

end Threads

/-! ## What a step does -/

section Moves

variable (unicode : Unicode) (request : Fin n → Bytes)

theorem recv_unanswered {socket socket' : RepSocket} {raw : Bytes}
    (h : socket.recv raw = some socket') : socket'.unanswered = true := by
  unfold RepSocket.recv at h
  split_ifs at h
  obtain rfl := Option.some.inj h
  rfl

theorem sendString_unanswered {socket socket' : RepSocket} {text : List Char}
    (h : socket.sendString text = some socket') : socket'.unanswered = false := by
  unfold RepSocket.sendString at h
  split_ifs at h
  obtain rfl := Option.some.inj h
  rfl

/-- The socket is asked in turn. -/
def Session.InTurn (s : Session n) : Prop := s.socket.unanswered = s.handling.isSome

/-- A step that is about one thread. -/
structure Moves (s s' : Session n) (act : Act n) (i : Fin n) : Prop where
  now : s'.now = s.now
  turn : s.InTurn → s'.InTurn
  gaveUp : (s'.place i).phase = .timedOut → (s.place i).phase = .timedOut ∨ act = .timeout i
  others : ∀ j, j ≠ i → s'.place j = s.place j
  move : Move unicode (request i) s.now act.isDiscard (s.place i) (s'.place i)

variable {unicode request} {s s' : Session n}

theorem step_moves {act : Act n} (h : step unicode request s act = some s') :
    (∃ seconds, act = .tick seconds ∧ s' = { s with now := s.now + seconds }) ∨
      (∀ seconds, act ≠ .tick seconds) ∧ ∃ i, Moves unicode request s s' act i := by
  cases act with
  | tick seconds => exact .inl ⟨seconds, rfl, (Option.some.inj h).symm⟩
  | send i =>
      refine .inr ⟨fun _ h => (by cases h), i, ?_⟩
      cases hphase : s.phase i with
      | ready =>
          simp only [step, hphase, Option.some.injEq] at h
          subst h
          refine ⟨rfl, id, by simp [Session.place], fun j hji => by simp [Session.place, hji], ?_⟩
          simp only [Session.place, hphase, Function.update_self]
          exact .send
      | _ => simp only [step, hphase, reduceCtorEq] at h
  | recv i =>
      refine .inr ⟨fun _ h => (by cases h), i, ?_⟩
      simp only [step] at h
      split_ifs at h with hturn
      -- the REP socket takes a request only when the last one is answered
      obtain ⟨socket, hsocket, rfl⟩ := Option.map_eq_some_iff.mp h
      refine ⟨rfl, fun _ => recv_unanswered hsocket, .inl, fun j hji => ?_, ?_⟩
      · have hij : ¬ i = j := fun hij => hji hij.symm
        simp [Session.place, hji, hij, hturn.1]
      · simp only [Session.place, hturn, Function.update_self, reduceCtorEq, decide_true,
          decide_false]
        exact .recv
  | answer =>
      refine .inr ⟨fun _ h => (by cases h), ?_⟩
      cases hhandling : s.handling with
      | none => simp only [step, hhandling, reduceCtorEq] at h
      | some i =>
          simp only [step, hhandling] at h
          obtain ⟨socket, hsocket, rfl⟩ := Option.map_eq_some_iff.mp h
          refine ⟨i, rfl, fun _ => sendString_unanswered hsocket, .inl, fun j hji => ?_, ?_⟩
          · have hij : ¬ i = j := fun hij => hji hij.symm
            simp [Session.place, hji, hij, hhandling]
          · simp only [Session.place, hhandling, Function.update_self, reduceCtorEq, decide_true,
              decide_false]
            exact .answer
  | read i =>
      refine .inr ⟨fun _ h => (by cases h), i, ?_⟩
      cases hphase : s.phase i with
      | waiting asked =>
          cases hreply : s.reply i with
          | none => simp only [step, hphase, hreply, reduceCtorEq] at h
          | some raw =>
              simp only [step, hphase, hreply, Option.some.injEq] at h
              subst h
              refine ⟨rfl, id, by simp [Session.place], fun j hji => by simp [Session.place, hji],
                ?_⟩
              simp only [Session.place, hphase, hreply, Function.update_self]
              exact .read
      | _ => simp only [step, hphase, reduceCtorEq] at h
  | timeout i =>
      refine .inr ⟨fun _ h => (by cases h), i, ?_⟩
      cases hphase : s.phase i with
      | waiting asked =>
          simp only [step, hphase, Option.some.injEq] at h
          subst h
          refine ⟨rfl, id, fun _ => .inr rfl, fun j hji => by simp [Session.place, hji], ?_⟩
          simp only [Session.place, hphase, Function.update_self]
          exact .timeout
      | _ => simp only [step, hphase, reduceCtorEq] at h
  | discard i =>
      refine .inr ⟨fun _ h => (by cases h), i, ?_⟩
      cases hphase : s.phase i with
      | timedOut =>
          cases hpending : s.pending i with
          | false => simp only [step, hphase, hpending, reduceCtorEq] at h
          | true =>
              simp only [step, hphase, hpending, Option.some.injEq] at h
              subst h
              refine ⟨rfl, id, .inl, fun j hji => by simp [Session.place, hji], ?_⟩
              simp only [Session.place, hphase, hpending, Function.update_self]
              exact .discard
      | _ => simp only [step, hphase, reduceCtorEq] at h

/-! ## What holds in every state -/

structure Inv (unicode : Unicode) (request : Fin n → Bytes) (s : Session n) : Prop where
  turn : s.InTurn
  sound : ∀ i, (s.place i).Sound unicode (request i) s.now

theorem inv_start (now : ℕ) : Inv unicode request (start n now) where
  turn := rfl
  sound i := ⟨fun _ => ⟨rfl, rfl, rfl⟩, fun _ h => (by cases h), fun _ h => (by cases h),
    fun _ _ _ h => (by cases h)⟩

theorem inv_step {act : Act n} (hi : Inv unicode request s)
    (h : step unicode request s act = some s') : Inv unicode request s' := by
  rcases step_moves h with ⟨seconds, -, rfl⟩ | ⟨-, i, hmoves⟩
  · exact ⟨hi.turn, fun j => (hi.sound j).later (Nat.le_add_right _ _)⟩
  · refine ⟨hmoves.turn hi.turn, fun j => ?_⟩
    rw [hmoves.now]
    by_cases hji : j = i
    · rw [hji]
      exact hmoves.move.sound (hi.sound i)
    · rw [hmoves.others j hji]
      exact hi.sound j

theorem inv_run {acts : List (Act n)} (hi : Inv unicode request s)
    (h : run unicode request s acts = some s') : Inv unicode request s' :=
  Run.invariant_foldlM hi (fun _ _ _ _ hi hstep => inv_step hi hstep) h

end Moves

/-! ## What a thread reads -/

section Sessions

variable (unicode : Unicode) (request : Fin n → Bytes)

/-- **A time is current.** Whatever the order of the steps, and as long as the clock has not passed
the year 9999: a thread that has finished with a valid request has a text that reads as a time of
the clock between the moment of asking and that of reading; with any other request it has the
error of its request. -/
theorem times_current (now : ℕ) (acts : List (Act n)) (s : Session n)
    (hrun : run unicode request (start n now) acts = some s) (hclock : s.now < lastSecond)
    (i : Fin n) (result : Except ReplyError (List Char)) (asked read : ℕ)
    (hfinished : s.phase i = .finished result asked read) :
    match validateRequest unicode (request i) with
    | .ok _ => ∃ served text, asked ≤ served ∧ served ≤ read ∧ read ≤ s.now ∧ result = .ok text ∧
        (TimeFormat.strptime? unicode text).map (Calendar.seconds 719162) = some served
    | .error exc => result = .error (.rejected (errorReply exc)) := by
  obtain ⟨hread, served, hasked, hserved, rfl⟩ :=
    ((inv_run (inv_start now) hrun).sound i).finished result asked read hfinished
  have hlast : served < lastSecond := by omega
  rw [validateReply_answer unicode (request i) hlast]
  cases validateRequest unicode (request i) with
  | ok _ =>
      refine ⟨served, utcTime served, hasked, hserved, hread, rfl, ?_⟩
      rw [strptime?_utcTime unicode hlast, Option.map_some, gmtime, Calendar.seconds_ofSeconds]
  | error exc => rfl

/-! ## How a session ends -/

/-- Neither the server nor a thread has anything to do but to wait. -/
structure Session.Resting (s : Session n) : Prop where
  send : ∀ i, step unicode request s (.send i) = none
  recv : ∀ i, step unicode request s (.recv i) = none
  answer : step unicode request s .answer = none
  read : ∀ i, step unicode request s (.read i) = none

variable {unicode request} {s s' : Session n}

theorem rank_step {act : Act n} (hi : Inv unicode request s)
    (h : step unicode request s act = some s') :
    (∑ i, (s'.place i).rank) + (if act.isTick then 0 else 1) + (if act.isDiscard then 1 else 0)
      = ∑ i, (s.place i).rank := by
  rcases step_moves h with ⟨seconds, rfl, rfl⟩ | ⟨hact, i, hmoves⟩
  · rfl
  · have hnot : act.isTick = false := by
      cases act with
      | tick seconds => exact absurd rfl (hact seconds)
      | _ => rfl
    have hsum := OneChange.sum_add_eq fun j hj => congrArg Place.rank (hmoves.others j hj)
    have hmove := hmoves.move.rank (hi.sound i)
    simp only [hnot, Bool.false_eq_true, if_false]
    omega

theorem rank_run {acts : List (Act n)} (hi : Inv unicode request s)
    (h : run unicode request s acts = some s') :
    (∑ i, (s'.place i).rank) + acts.countP (fun act => !act.isTick) + acts.countP Act.isDiscard
      = ∑ i, (s.place i).rank := by
  induction acts generalizing s with
  | nil =>
      obtain rfl := Option.some.inj h
      rfl
  | cons act acts ih =>
      obtain ⟨mid, hstep, hrest⟩ := Option.bind_eq_some_iff.mp h
      have hone := rank_step hi hstep
      have hmore := ih (inv_step hi hstep) hrest
      rw [List.countP_cons, List.countP_cons]
      cases htick : act.isTick with
      | true =>
          rw [htick, if_pos rfl] at hone
          rw [Bool.not_true, if_neg Bool.false_ne_true]
          omega
      | false =>
          rw [htick, if_neg Bool.false_ne_true] at hone
          rw [Bool.not_false, if_pos rfl]
          omega

theorem gaveUp_run {acts : List (Act n)} (h : run unicode request s acts = some s') {i : Fin n}
    (hi : s'.phase i = .timedOut) : s.phase i = .timedOut ∨ .timeout i ∈ acts := by
  induction acts generalizing s with
  | nil =>
      obtain rfl := Option.some.inj h
      exact .inl hi
  | cons act acts ih =>
      obtain ⟨mid, hstep, hrest⟩ := Option.bind_eq_some_iff.mp h
      rcases ih hrest with hmid | hlater
      · rcases step_moves hstep with ⟨seconds, -, rfl⟩ | ⟨-, j, hmoves⟩
        · exact .inl hmid
        · by_cases hij : i = j
          · subst hij
            rcases hmoves.gaveUp hmid with hbefore | rfl
            · exact .inl hbefore
            · exact .inr List.mem_cons_self
          · have hsame : mid.phase i = s.phase i := congrArg Place.phase (hmoves.others i hij)
            exact .inl (hsame ▸ hmid)
      · exact .inr (List.mem_cons_of_mem act hlater)

/-- Only a thread that has given up throws its request away. -/
theorem timeout_of_discard {now : ℕ} {acts : List (Act n)}
    (h : run unicode request (start n now) acts = some s) {i : Fin n}
    (hdiscard : .discard i ∈ acts) : .timeout i ∈ acts := by
  obtain ⟨pre, post, rfl⟩ := List.append_of_mem hdiscard
  rw [run, List.foldlM_append] at h
  obtain ⟨mid, hpre, hrest⟩ := Option.bind_eq_some_iff.mp h
  obtain ⟨next, hstep, -⟩ := Option.bind_eq_some_iff.mp hrest
  have hgave : mid.phase i = .timedOut := by
    cases hphase : mid.phase i with
    | timedOut => rfl
    | _ =>
        simp only [step, hphase] at hstep
        cases hstep
  rcases gaveUp_run hpre hgave with hstart | hmem
  · cases hstart
  · exact List.mem_append_left _ hmem

/-- A session at rest has no request or answer on its way. -/
theorem Session.Resting.place (hrest : s.Resting unicode request) (hi : Inv unicode request s)
    (i : Fin n) : (s.phase i = .timedOut ∨ ∃ result asked read,
      s.phase i = .finished result asked read) ∧ (s.place i).rank = 0 := by
  -- the server holds no request, and none is on its way
  have hfree : s.handling = none := by
    have h := hrest.answer
    cases hhandling : s.handling with
    | none => rfl
    | some j =>
        have hturn : s.socket.unanswered = true := by rw [hi.turn, hhandling, Option.isSome_some]
        simp only [step, hhandling, RepSocket.sendString, hturn, if_true, Option.map_some,
          reduceCtorEq] at h
  have hpending : s.pending i = false := by
    by_contra hpending
    have hturn : s.socket.unanswered = false := by rw [hi.turn, hfree, Option.isSome_none]
    have h := hrest.recv i
    simp [step, hfree, hpending, RepSocket.recv, hturn] at h
  have hrank : (s.phase i = .timedOut ∨ ∃ result asked read,
      s.phase i = .finished result asked read) → (s.place i).rank = 0 := by
    rintro (hphase | ⟨_, _, _, hphase⟩) <;>
      simp [Place.rank, Session.place, hphase, hpending, hfree]
  suffices h : s.phase i = .timedOut ∨ ∃ result asked read,
      s.phase i = .finished result asked read from ⟨h, hrank h⟩
  cases hphase : s.phase i with
  | ready =>
      have h := hrest.send i
      simp only [step, hphase, reduceCtorEq] at h
  | waiting asked =>
      -- its answer is there, and it would be read
      obtain ⟨-, hplace⟩ := (hi.sound i).waiting asked hphase
      have hreply : s.reply i ≠ none := by
        simpa [Session.place, hpending, hfree] using hplace
      obtain ⟨raw, hraw⟩ := Option.ne_none_iff_exists'.mp hreply
      have h := hrest.read i
      simp only [step, hphase, hraw, reduceCtorEq] at h
  | finished result asked read => exact .inr ⟨result, asked, read, rfl⟩
  | timedOut => exact .inl rfl

variable (unicode request)

/-- **Every thread comes to its end.** The REP socket is always asked in turn, whatever was asked
and whoever has given up. A run has at most four steps a thread, not counting the clock: asking,
taking the request, answering it, and reading the answer or giving up. When nothing is left to do
these steps have all been made, but for a request that was thrown away, which is a step in place of
two; and every thread that has not given up has read its answer. -/
theorem every_thread_ends (now : ℕ) (acts : List (Act n)) (s : Session n)
    (hrun : run unicode request (start n now) acts = some s) :
    s.InTurn ∧ acts.countP (fun act => !act.isTick) ≤ 4 * n ∧
      (s.Resting unicode request →
        acts.countP (fun act => !act.isTick) + acts.countP Act.isDiscard = 4 * n ∧
          ∀ i, .timeout i ∉ acts →
            .discard i ∉ acts ∧ ∃ result asked read, s.phase i = .finished result asked read) := by
  have hinv := inv_run (inv_start now) hrun
  have hcount := rank_run (inv_start now) hrun
  have hstart : ∑ i, ((start n now).place i).rank = 4 * n := by
    simp [Session.place, start, Place.rank, mul_comm]
  rw [hstart] at hcount
  refine ⟨hinv.turn, by omega, fun hrest => ⟨?_, fun i hnot => ⟨?_, ?_⟩⟩⟩
  · have hzero : ∑ i, (s.place i).rank = 0 :=
      Finset.sum_eq_zero fun i _ => (hrest.place hinv i).2
    omega
  · exact fun hmem => hnot (timeout_of_discard hrun hmem)
  · refine (hrest.place hinv i).1.resolve_left fun hgave => ?_
    rcases gaveUp_run hrun hgave with hstart | hmem
    · cases hstart
    · exact hnot hmem

end Sessions

/-- One client, and the acts of its request. -/
def oneRequest : Fin 1 → Bytes := fun _ => Utf8.encode timeRequest

def oneSession (i : Fin 1) : List (Act 1) := [.send i, .tick 1, .recv i, .answer, .tick 2, .read i]

theorem times_current_one : ∃ s : Session 1,
    run .ascii oneRequest (start 1 10) (oneSession 0) = some s ∧ ∃ served text,
      10 ≤ served ∧ served ≤ 13 ∧ s.phase 0 = .finished (.ok text) 10 13 ∧
        (TimeFormat.strptime? .ascii text).map (Calendar.seconds 719162) = some served := by
  refine ⟨_, rfl, ?_⟩
  have h := times_current .ascii oneRequest 10 (oneSession 0) _ rfl (by decide) 0 _ 10 13 rfl
  have hvalid : validateRequest .ascii (oneRequest 0) = .ok timeRequest :=
    validateRequest_timeRequest .ascii
  rw [hvalid] at h
  obtain ⟨served, text, hasked, hserved, -, hresult, htext⟩ := h
  refine ⟨served, text, hasked, hserved, ?_, htext⟩
  rw [← hresult]
  rfl

/-- A client without a server gives up, and its request is thrown away. -/
def aloneSession (i : Fin 1) : List (Act 1) := [.send i, .tick 3, .timeout i, .discard i]

theorem every_thread_ends_one : ∃ s : Session 1,
    run .ascii oneRequest (start 1 10) (aloneSession 0) = some s ∧ s.InTurn ∧
      s.Resting .ascii oneRequest ∧
      (aloneSession 0).countP (fun act => !act.isTick) + (aloneSession 0).countP Act.isDiscard
        = 4 * 1 := by
  refine ⟨_, rfl, ?_⟩
  obtain ⟨hturn, -, hends⟩ := every_thread_ends .ascii oneRequest 10 (aloneSession 0) _ rfl
  refine ⟨hturn, ?rest, (hends ?rest).1⟩
  refine ⟨?_, ?_, rfl, ?_⟩
  · exact Fin.forall_fin_one.mpr rfl
  · exact Fin.forall_fin_one.mpr rfl
  · exact Fin.forall_fin_one.mpr rfl

end Utc
