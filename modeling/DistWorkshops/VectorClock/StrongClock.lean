import DistWorkshops.Lib.Causality
import DistWorkshops.VectorClock.Simulation

/-!
# The strong clock condition of the simulation

`Traced` is the simulation with two observations added: for every message in an inbox the
SEND event that put it there, and for every RECV event the SEND whose message it popped. The
simulation itself runs unchanged (`tracedSimulate_sim`). Happens-before is read off these
observations alone (`Traced.log`), and the invariant `Inv` says that the clocks of the
history are a causal stamping of it; every turn appends one event (`turn_inv`).
-/

set_option autoImplicit false

namespace VectorClock

open Causality

variable {n : ℕ}

/-- An event: a process and a position in its history. -/
abbrev Event (n : ℕ) := Fin n × ℕ

structure Traced (n : ℕ) where
  sim : Sim n
  /-- The SEND events of the messages in the inboxes, in the order of the inboxes. -/
  pending : Fin n → List (Event n)
  /-- The pairs of a SEND and the RECV that popped its message. -/
  matched : List (Event n × Event n)

def Traced.init (n : ℕ) : Traced n := ⟨VectorClock.init n, fun _ => [], []⟩

/-- The observations after `pid` took the turn that led to `sim`, by the entry it recorded. -/
def Traced.observe (t : Traced n) (pid : Fin n) (sim : Sim n) : Traced n :=
  let event := (pid, (t.sim.history pid).length)
  match (sim.history pid).getLast?.map Entry.detail with
  | some (.target target) =>
      ⟨sim, Function.update t.pending target (t.pending target ++ [event]), t.matched⟩
  | some (.sender _) =>
      ⟨sim, Function.update t.pending pid (t.pending pid).tail,
        t.matched ++ (t.pending pid).head?.toList.map (fun m => (m, event))⟩
  | _ => ⟨sim, t.pending, t.matched⟩

def tracedTurn (draw : Draw) (pid : Fin n) (t : Traced n) : Except PyError (Traced n) :=
  (turn draw pid t.sim).map (t.observe pid)

def tracedSimulate (draws : Draws n) (rounds : ℕ) : Except PyError (Traced n) :=
  RoundRobin.rounds (RoundRobin.lift fun r p => tracedTurn (draws r p) p) (.ok (Traced.init n))
    rounds

/-- The state after `r` rounds and the first `j` turns of the next one. -/
def tracedAfter (draws : Draws n) (r j : ℕ) : Except PyError (Traced n) :=
  RoundRobin.after (RoundRobin.lift fun r p => tracedTurn (draws r p) p) (.ok (Traced.init n))
    r j

theorem Traced.observe_sim (t : Traced n) (pid : Fin n) (sim : Sim n) :
    (t.observe pid sim).sim = sim := by
  unfold Traced.observe
  split <;> rfl

theorem tracedTurn_sim (draw : Draw) (pid : Fin n) (t : Traced n) :
    (tracedTurn draw pid t).map Traced.sim = turn draw pid t.sim := by
  unfold tracedTurn
  cases turn draw pid t.sim with
  | error e => rfl
  | ok s => exact congrArg Except.ok (t.observe_sim pid s)

/-- The observations do not disturb the simulation. -/
theorem tracedAfter_sim (draws : Draws n) (r j : ℕ) :
    (tracedAfter draws r j).map Traced.sim = stateAfter draws r j := by
  have hcomm : ∀ r p (x : Except PyError (Traced n)),
      (RoundRobin.lift (fun r p => tracedTurn (draws r p) p) r p x).map Traced.sim
        = RoundRobin.lift (fun r p => turn (draws r p) p) r p (x.map Traced.sim) := by
    rintro r p (e | t)
    · rfl
    · exact tracedTurn_sim (draws r p) p t
  exact RoundRobin.after_map _ _ (Except.map Traced.sim) hcomm r j

theorem tracedAfter_zero (draws : Draws n) (r : ℕ) :
    tracedAfter draws r 0 = tracedSimulate draws r :=
  RoundRobin.after_start _ _ r

theorem tracedSimulate_sim (draws : Draws n) (rounds : ℕ) :
    (tracedSimulate draws rounds).map Traced.sim = simulate draws rounds := by
  rw [← tracedAfter_zero, tracedAfter_sim, stateAfter_zero]

/-! ## Events and happens-before -/

namespace Traced

/-- The recorded events and the message edges between them. -/
def log (t : Traced n) : EventLog (Fin n) where
  len := fun p => (t.sim.history p).length
  edge := fun e f => (e, f) ∈ t.matched

/-- Happens-before: the transitive closure of "an earlier event of the same process" and "the
SEND whose message the RECV popped". -/
def HappensBefore (t : Traced n) (e f : Event n) : Prop := t.log.HappensBefore e f

/-- The clock recorded at an event. -/
def stamp (t : Traced n) (e : Event n) : Clock n :=
  match (t.sim.history e.1)[e.2]? with
  | some entry => entry.clock
  | none => newClock n

end Traced

/-! ## The invariant -/

/-- The clocks of the history are a causal stamping; each process's clock is that of its last
event; a message in an inbox carries the clock of the SEND that put it there. -/
structure Inv (t : Traced n) : Prop where
  causal : Causal t.log t.stamp
  current : ∀ p, t.sim.clocks p
    = if 0 < t.log.len p then t.stamp (p, t.log.len p - 1) else newClock n
  inflight : ∀ p, List.Forall₂ (fun msg m => t.log.Recorded m ∧ t.stamp m = msg.2)
    (t.sim.inboxes p) (t.pending p)

theorem init_inv : Inv (Traced.init n) := by
  refine ⟨?_, fun p => rfl, fun p => List.Forall₂.nil⟩
  have hlog : (Traced.init n).log = ⟨fun _ => 0, fun _ _ => False⟩ := by
    simp only [Traced.log, Traced.init, VectorClock.init, List.length_nil, List.not_mem_nil]
  rw [hlog]
  refine Causal.init _ (fun e q => ?_)
  simp [Traced.stamp, Traced.init, VectorClock.init, newClock]

/-- What a process knows: its clock counts the causal past of its events so far. -/
theorem Inv.known_iff {t : Traced n} (hi : Inv t) (p q : Fin n) (k : ℕ) :
    (k : ℤ) < t.sim.clocks p q ↔ ∃ i < t.log.len p, t.log.Past (q, k) (p, i) := by
  rw [hi.current p]
  by_cases hlen : 0 < t.log.len p
  · have hlast : t.log.Recorded (p, t.log.len p - 1) := Nat.sub_lt hlen Nat.one_pos
    rw [if_pos hlen, ← hi.causal.past_iff _ hlast]
    constructor
    · intro h
      exact ⟨t.log.len p - 1, hlast, h⟩
    · rintro ⟨i, hlt, h⟩
      exact EventLog.Past.trans h (EventLog.past_of_le (by omega) hlast)
  · rw [if_neg hlen]
    simp only [newClock]
    constructor
    · intro h
      omega
    · rintro ⟨i, hlt, -⟩
      omega

theorem Inv.clock_nonneg {t : Traced n} (hi : Inv t) (p q : Fin n) : 0 ≤ t.sim.clocks p q := by
  rw [hi.current p]
  by_cases hlen : 0 < t.log.len p
  · rw [if_pos hlen]
    exact hi.causal.nonneg _ q
  · rw [if_neg hlen]
    exact le_refl _

/-! ## One turn appends one event -/

section Append

variable {t t' : Traced n} {p : Fin n} {entry : Entry n} {msgs : List (Event n)}

/-- The new state records one more event of `p`, with the messages `msgs` received there. -/
structure Records (t t' : Traced n) (p : Fin n) (entry : Entry n) (msgs : List (Event n)) :
    Prop where
  history : t'.sim.history = Function.update t.sim.history p (t.sim.history p ++ [entry])
  clocks : t'.sim.clocks = Function.update t.sim.clocks p entry.clock
  matched : t'.matched = t.matched ++ msgs.map (fun m => (m, t.log.next p))
  sent : ∀ m ∈ msgs, t.log.Recorded m

theorem Records.appends (hr : Records t t' p entry msgs) :
    t.log.Appends t'.log p (· ∈ msgs) := by
  refine ⟨?_, ?_, hr.sent⟩
  · funext q
    simp only [Traced.log, hr.history]
    by_cases hq : q = p
    · subst hq
      simp
    · simp [hq]
  · -- a message edge of the new log is an old one or ends in the new event
    intro e f
    simp only [Traced.log, hr.matched, List.mem_append, List.mem_map, Prod.mk.injEq]
    constructor
    · rintro (h | ⟨m, hm, rfl, rfl⟩)
      · exact Or.inl h
      · exact Or.inr ⟨rfl, hm⟩
    · rintro (h | ⟨rfl, hm⟩)
      · exact Or.inl h
      · exact Or.inr ⟨e, hm, rfl, rfl⟩

theorem stamp_next
    (hist : t'.sim.history = Function.update t.sim.history p (t.sim.history p ++ [entry])) :
    t'.stamp (t.log.next p) = entry.clock := by
  simp [Traced.stamp, EventLog.next, Traced.log, hist]

theorem Records.stamp_new (hr : Records t t' p entry msgs) :
    t'.stamp (t.log.next p) = entry.clock := stamp_next hr.history

theorem Records.stamp_old (hr : Records t t' p entry msgs) {e : Event n}
    (he : e ≠ t.log.next p) : t'.stamp e = t.stamp e := by
  obtain ⟨q, i⟩ := e
  simp only [Traced.stamp, hr.history]
  by_cases hq : q = p
  · subst hq
    have hi : i ≠ (t.sim.history q).length := fun h => he (by rw [h]; rfl)
    rw [Function.update_self]
    -- an event not yet recorded has the zero clock before and after
    rcases Nat.lt_or_ge i (t.sim.history q).length with hlt | hge
    · rw [List.getElem?_append_left hlt]
    · rw [List.getElem?_eq_none (by rw [List.length_append, List.length_singleton]; omega),
        List.getElem?_eq_none hge]
  · rw [Function.update_of_ne hq]

/-- A recorded event keeps its clock. -/
theorem Records.keeps (hr : Records t t' p entry msgs) {m : Event n} {c : Clock n}
    (hm : t.log.Recorded m ∧ t.stamp m = c) : t'.log.Recorded m ∧ t'.stamp m = c := by
  have hne : m ≠ t.log.next p := fun he => EventLog.next_not_recorded p (he ▸ hm.1)
  exact ⟨(hr.appends.recorded_iff m).mpr (Or.inl hm.1), by rw [hr.stamp_old hne]; exact hm.2⟩

/-- The new event is stamped causally when its clock is the maximum of the process's clock
and the clocks of the messages, ticked. -/
theorem Records.causal (hr : Records t t' p entry msgs) (hi : Inv t) {base : Clock n}
    (hclock : entry.clock = tick base p) (hnn : ∀ q, 0 ≤ base q)
    (hbase : ∀ q (k : ℕ), (k : ℤ) < base q ↔
      (k : ℤ) < t.sim.clocks p q ∨ ∃ m ∈ msgs, t.log.Past (q, k) m) :
    Causal t'.log t'.stamp := by
  refine hi.causal.append hr.appends hnn (fun q k => ?_) (fun e he => hr.stamp_old he) ?_
  · rw [hbase q k, hi.known_iff p q k]
  · rw [hr.stamp_new, hclock]
    rfl

theorem Records.current (hr : Records t t' p entry msgs) (hi : Inv t) (q : Fin n) :
    t'.sim.clocks q
      = if 0 < t'.log.len q then t'.stamp (q, t'.log.len q - 1) else newClock n := by
  rw [hr.clocks, hr.appends.len]
  by_cases hq : q = p
  · subst hq
    rw [Function.update_self, Function.update_self, if_pos (Nat.succ_pos _),
      Nat.add_sub_cancel]
    exact hr.stamp_new.symm
  · rw [Function.update_of_ne hq, Function.update_of_ne hq, hi.current q]
    by_cases hlen : 0 < t.log.len q
    · have hne : (q, t.log.len q - 1) ≠ t.log.next p := fun he => hq (Prod.mk.inj he).1
      rw [if_pos hlen, if_pos hlen, hr.stamp_old hne]
    · rw [if_neg hlen, if_neg hlen]

end Append

/-! ## What is observed of a turn -/

section Observe

variable {t : Traced n} {pid : Fin n} {s' : Sim n}

theorem observe_quiet (hs : s'.history = Function.update t.sim.history pid
      (t.sim.history pid ++ [⟨.local, tick (t.sim.clocks pid) pid, none, .empty⟩])) :
    t.observe pid s' = ⟨s', t.pending, t.matched⟩ := by
  simp [Traced.observe, hs]

theorem observe_send {target : Fin n} (hs : s'.history = Function.update t.sim.history pid
      (t.sim.history pid ++ [⟨.send, tick (t.sim.clocks pid) pid, none, .target target⟩])) :
    t.observe pid s' = ⟨s', Function.update t.pending target
      (t.pending target ++ [t.log.next pid]), t.matched⟩ := by
  simp [Traced.observe, hs, EventLog.next, Traced.log]

theorem observe_recv {sender : Fin n} {clock msgClock : Clock n} {m : Event n}
    {rest : List (Event n)} (hpend : t.pending pid = m :: rest)
    (hs : s'.history = Function.update t.sim.history pid
      (t.sim.history pid ++ [⟨.recv, clock, some msgClock, .sender sender⟩])) :
    t.observe pid s' = ⟨s', Function.update t.pending pid rest,
      t.matched ++ [(m, t.log.next pid)]⟩ := by
  simp [Traced.observe, hs, hpend, EventLog.next, Traced.log]

/-- The messages in the inboxes stay related to the SENDs observed for them, when the new one is
related to its SEND. -/
theorem Turn.pending (hcases : Turn pid t.sim s')
    {R : Fin n → Fin n × Clock n → Event n → Prop}
    (hold : ∀ q, List.Forall₂ (R q) (t.sim.inboxes q) (t.pending q))
    (hnew : ∀ target, s'.history = Function.update t.sim.history pid
        (t.sim.history pid ++ [⟨.send, tick (t.sim.clocks pid) pid, none, .target target⟩]) →
      R target (pid, tick (t.sim.clocks pid) pid) (t.log.next pid)) (q : Fin n) :
    List.Forall₂ (R q) (s'.inboxes q) ((t.observe pid s').pending q) := by
  cases hcases with
  | quiet hbox hs =>
      rw [observe_quiet (by rw [hs]), hs]
      exact hold q
  | send target hbox hne hs =>
      have hsent := hnew target (by rw [hs])
      rw [observe_send (by rw [hs]), hs]
      by_cases hq : q = target
      · subst hq
        simp only [Function.update_self]
        exact List.rel_append (hold q) (List.Forall₂.cons hsent List.Forall₂.nil)
      · simp only [Function.update_of_ne hq]
        exact hold q
  | recv sender msgClock inbox hbox hs =>
      -- the head of the inbox was put there by the head of the pending SENDs
      have hhead := hold pid
      rw [hbox] at hhead
      obtain ⟨m, rest, -, hrest, hpend⟩ := List.forall₂_cons_left_iff.mp hhead
      rw [observe_recv hpend (by rw [hs]), hs]
      by_cases hq : q = pid
      · subst hq
        simp only [Function.update_self]
        exact hrest
      · simp only [Function.update_of_ne hq]
        exact hold q

/-- A turn records one event, whose clock is ticked from the clocks that the process knows then:
its own, and that of the message it receives. -/
theorem Turn.records (hcases : Turn pid t.sim s') (hi : Inv t) :
    ∃ (entry : Entry n) (msgs : List (Event n)) (base : Clock n),
      Records t (t.observe pid s') pid entry msgs ∧ entry.clock = tick base pid ∧
        (∀ q, 0 ≤ base q) ∧ ∀ q (k : ℕ), (k : ℤ) < base q ↔
          (k : ℤ) < t.sim.clocks pid q ∨ ∃ m ∈ msgs, t.log.Past (q, k) m := by
  cases hcases with
  | quiet hbox hs =>
      refine ⟨⟨.local, tick (t.sim.clocks pid) pid, none, .empty⟩, [], t.sim.clocks pid, ?_, rfl,
        hi.clock_nonneg pid, by simp⟩
      rw [observe_quiet (by rw [hs])]
      exact ⟨by rw [hs], by rw [hs], by simp, by simp⟩
  | send target hbox hne hs =>
      refine ⟨⟨.send, tick (t.sim.clocks pid) pid, none, .target target⟩, [], t.sim.clocks pid,
        ?_, rfl, hi.clock_nonneg pid, by simp⟩
      rw [observe_send (by rw [hs])]
      exact ⟨by rw [hs], by rw [hs], by simp, by simp⟩
  | recv sender msgClock inbox hbox hs =>
      have hhead := hi.inflight pid
      rw [hbox] at hhead
      obtain ⟨m, rest, ⟨hm, hstamp⟩, -, hpend⟩ := List.forall₂_cons_left_iff.mp hhead
      refine ⟨⟨.recv, tick (merge (t.sim.clocks pid) msgClock) pid, some msgClock,
        .sender sender⟩, [m], merge (t.sim.clocks pid) msgClock, ?_, rfl,
        fun q => le_max_of_le_left (hi.clock_nonneg pid q), fun q k => ?_⟩
      · rw [observe_recv hpend (by rw [hs])]
        exact ⟨by rw [hs], by rw [hs], rfl, by simpa using hm⟩
      · -- the componentwise maximum counts the union of the two pasts
        simp only [merge, lt_max_iff, List.mem_singleton, exists_eq_left,
          hi.causal.past_iff m hm, hstamp]

end Observe

/-- **One turn keeps the invariant.** -/
theorem turn_inv (hn : 2 ≤ n) (draw : Draw) (pid : Fin n) {t : Traced n} (hi : Inv t) :
    ∃ t', tracedTurn draw pid t = .ok t' ∧ Inv t' := by
  obtain ⟨s', hturn, hcases⟩ := turn_cases hn draw pid t.sim
  obtain ⟨entry, msgs, base, hr, hclock, hnn, hbase⟩ := hcases.records hi
  have hsim := t.observe_sim pid s'
  refine ⟨t.observe pid s', by rw [tracedTurn, hturn]; rfl, hr.causal hi hclock hnn hbase,
    hr.current hi, ?_⟩
  rw [hsim]
  apply hcases.pending
  · exact fun q => (hi.inflight q).imp fun _ _ h => hr.keeps h
  · -- the new message carries the clock of the event that sends it
    intro target hs
    refine ⟨(hr.appends.recorded_iff _).mpr (Or.inr rfl), ?_⟩
    rw [← hsim] at hs
    exact stamp_next hs

/-- The invariant holds after every turn of every run. -/
theorem tracedAfter_inv (hn : 2 ≤ n) (draws : Draws n) (r j : ℕ) :
    ∃ t, tracedAfter draws r j = .ok t ∧ Inv t :=
  RoundRobin.lift_invariant Inv init_inv (fun r p _ hi => turn_inv hn (draws r p) p hi) r j

/-! ## The strong clock condition -/

/-- The comparison of any two recorded clocks is the causal relation of their events. -/
def Traced.DecidesCausality (t : Traced n) : Prop :=
  ∀ e f : Event n, ∀ x y : Entry n,
    (t.sim.history e.1)[e.2]? = some x → (t.sim.history f.1)[f.2]? = some y →
    (compareClocks x.clock y.clock = .before ↔ t.HappensBefore e f) ∧
    (compareClocks x.clock y.clock = .after ↔ t.HappensBefore f e) ∧
    (compareClocks x.clock y.clock = .equal ↔ e = f) ∧
    (compareClocks x.clock y.clock = .concurrent ↔
      ¬ t.HappensBefore e f ∧ ¬ t.HappensBefore f e ∧ e ≠ f)

/-- **The strong clock condition.** A run of at least two processes never fails, and in its
history the comparison of two clocks is exactly the causal relation of their events. -/
theorem strong_clock_condition (hn : 2 ≤ n) (draws : Draws n) (rounds : ℕ) :
    ∃ t, tracedSimulate draws rounds = .ok t ∧ simulate draws rounds = .ok t.sim ∧
      t.DecidesCausality := by
  obtain ⟨t, hrun, hi⟩ := tracedAfter_inv hn draws rounds 0
  have htraced : tracedSimulate draws rounds = .ok t := by
    rw [← hrun, tracedAfter_zero]
  refine ⟨t, htraced, by rw [← tracedSimulate_sim, htraced]; rfl, ?_⟩
  intro e f x y hx hy
  have he : t.log.Recorded e := (List.getElem?_eq_some_iff.mp hx).1
  have hf : t.log.Recorded f := (List.getElem?_eq_some_iff.mp hy).1
  have hxs : t.stamp e = x.clock := by simp [Traced.stamp, hx]
  have hys : t.stamp f = y.clock := by simp [Traced.stamp, hy]
  have hbefore := hi.causal.before_iff he hf
  have hafter := hi.causal.before_iff hf he
  have heq := hi.causal.eq_iff he hf
  have hle := hi.causal.le_iff he hf
  have hge := hi.causal.le_iff hf he
  rw [hxs, hys] at hbefore heq hle
  rw [hxs, hys] at hafter hge
  refine ⟨?_, ?_, ?_, ?_⟩
  · rw [compareClocks_eq_before, hbefore]
    rfl
  · rw [compareClocks_eq_after, hafter]
    rfl
  · rw [compareClocks_eq_equal, heq]
  · rw [compareClocks_eq_concurrent, hle, hge]
    unfold EventLog.Past Traced.HappensBefore
    constructor
    · rintro ⟨h1, h2⟩
      exact ⟨fun h => h1 (Or.inr h), fun h => h2 (Or.inr h), fun h => h1 (Or.inl h)⟩
    · rintro ⟨h1, h2, h3⟩
      exact ⟨fun h => h.elim h3 h1, fun h => h.elim (fun h => h3 h.symm) h2⟩

/-- Two rounds of two processes: the first message of `P0` is sent and received. -/
theorem strong_clock_condition_two :
    ∃ t, tracedSimulate (fun _ _ => ⟨0, 0⟩ : Draws 2) 2 = .ok t ∧
      simulate (fun _ _ => ⟨0, 0⟩ : Draws 2) 2 = .ok t.sim ∧ t.DecidesCausality :=
  strong_clock_condition (by decide) _ 2

end VectorClock
