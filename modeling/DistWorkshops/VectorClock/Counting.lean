import DistWorkshops.VectorClock.StrongClock

/-!
# A clock component counts causal history

The invariant `Inv` of the traced simulation says which clocks are causal stamps; `Ledger` adds
what it leaves open: how long the histories are, and that the events traced for the messages in
the inboxes are the SENDs that put them there. Together they make every component of every
clock in a state, of a process, of a message or of a history entry, a number of events
(`clocks_count_history`).
-/

set_option autoImplicit false

namespace VectorClock

open Causality

variable {n : ℕ}

/-! ## The ledger of turns and messages -/

/-- The event `m` is the SEND that put the message `msg` into the inbox of `p`. -/
def Traced.Sent (t : Traced n) (p : Fin n) (msg : Fin n × Clock n) (m : Event n) : Prop :=
  ∃ entry, (t.sim.history m.1)[m.2]? = some entry ∧ entry.action = .send ∧
    entry.detail = .target p ∧ msg = (m.1, entry.clock)

structure Ledger (t : Traced n) : Prop where
  turns : ∀ p, t.sim.turnCount p = (t.sim.history p).length
  sends : ∀ p, List.Forall₂ (t.Sent p) (t.sim.inboxes p) (t.pending p)

theorem init_ledger : Ledger (Traced.init n) := ⟨fun _ => rfl, fun _ => List.Forall₂.nil⟩

/-- A SEND stays where it is in the history. -/
theorem Traced.Sent.mono {t u : Traced n} {pid p : Fin n} {entry : Entry n}
    {msg : Fin n × Clock n} {m : Event n} (h : t.Sent p msg m)
    (hist : u.sim.history = Function.update t.sim.history pid (t.sim.history pid ++ [entry])) :
    u.Sent p msg m := by
  obtain ⟨sent, hsent, hrest⟩ := h
  refine ⟨sent, ?_, hrest⟩
  rw [hist]
  by_cases hp : m.1 = pid
  · have hlt : m.2 < (t.sim.history pid).length := hp ▸ (List.getElem?_eq_some_iff.mp hsent).1
    rw [hp, Function.update_self, List.getElem?_append_left hlt, ← hp]
    exact hsent
  · rw [Function.update_of_ne hp]
    exact hsent

/-- Every turn adds one to the turn count and one entry to the history. -/
theorem turns_update {s s' : Sim n} {pid : Fin n} {entry : Entry n}
    (hturns : ∀ p, s.turnCount p = (s.history p).length)
    (hcount : s'.turnCount = Function.update s.turnCount pid (s.turnCount pid + 1))
    (hist : s'.history = Function.update s.history pid (s.history pid ++ [entry])) (p : Fin n) :
    s'.turnCount p = (s'.history p).length := by
  rw [hcount, hist]
  by_cases hp : p = pid
  · rw [hp, Function.update_self, Function.update_self, List.length_append, hturns pid]
    rfl
  · rw [Function.update_of_ne hp, Function.update_of_ne hp]
    exact hturns p

/-- **One turn keeps the ledger.** -/
theorem turn_ledger (hn : 2 ≤ n) (draw : Draw) (pid : Fin n) {t t' : Traced n} (hl : Ledger t)
    (h : tracedTurn draw pid t = .ok t') : Ledger t' := by
  obtain ⟨s', hturn, hcases⟩ := turn_cases hn draw pid t.sim
  rw [tracedTurn, hturn] at h
  obtain rfl : t.observe pid s' = t' := Except.ok.inj h
  obtain ⟨entry, hext⟩ := hcases.extends
  have hsim := t.observe_sim pid s'
  refine ⟨turns_update hl.turns (by rw [hsim, hext.turnCount]) (by rw [hsim, hext.history]), ?_⟩
  rw [hsim]
  apply hcases.pending
  · exact fun q => (hl.sends q).imp fun _ _ hm => hm.mono (by rw [hsim, hext.history])
  · -- the message in the target's inbox is sent by the new entry
    intro target hs
    refine ⟨⟨.send, tick (t.sim.clocks pid) pid, none, .target target⟩, ?_, rfl, rfl, rfl⟩
    simp [hsim, hs, EventLog.next, Traced.log]

theorem tracedAfter_ledger (hn : 2 ≤ n) (draws : Draws n) (r j : ℕ) :
    ∃ t, tracedAfter draws r j = .ok t ∧ Inv t ∧ Ledger t := by
  refine RoundRobin.lift_invariant (fun t => Inv t ∧ Ledger t) ⟨init_inv, init_ledger⟩ ?_ r j
  rintro r p t ⟨hi, hl⟩
  obtain ⟨t', hturn, hi'⟩ := turn_inv hn (draws r p) p hi
  exact ⟨t', hturn, hi', turn_ledger hn (draws r p) p hl hturn⟩

/-! ## The components of the clocks -/

/-- Every component of every clock in the state is a number of events. -/
structure Traced.CountsHistory (t : Traced n) : Prop where
  /-- A process's clock counts the causal past of its latest event. -/
  clocks : ∀ i q, t.sim.clocks i q
    = if 0 < t.log.len i then (t.log.countPast q (i, t.log.len i - 1) : ℤ) else 0
  /-- A message's clock counts the causal past of the SEND that put it into the inbox. -/
  messages : ∀ p, List.Forall₂
    (fun msg m => t.Sent p msg m ∧ ∀ q, msg.2 q = t.log.countPast q m)
    (t.sim.inboxes p) (t.pending p)
  /-- The clock of a history entry counts the causal past of its event. -/
  history : ∀ (e : Event n) (x : Entry n), (t.sim.history e.1)[e.2]? = some x →
    ∀ q, x.clock q = t.log.countPast q e
  le_own : ∀ i q, t.sim.clocks i q ≤ t.sim.clocks q q
  own : ∀ i, t.sim.clocks i i = t.sim.turnCount i
  turns : ∀ i, t.sim.turnCount i = (t.sim.history i).length

/-- No process knows of more events of `q` than `q` has performed, which `q` knows itself. -/
theorem Inv.clock_bounds {t : Traced n} (hi : Inv t) (q : Fin n) :
    t.sim.clocks q q = t.log.len q ∧ ∀ i, t.sim.clocks i q ≤ t.log.len q := by
  have hnn : (0 : ℤ) ≤ t.log.len q := Int.natCast_nonneg _
  constructor
  · rw [hi.current q]
    by_cases hlen : 0 < t.log.len q
    · rw [if_pos hlen]
      exact hi.causal.own_eq_len hlen
    · rw [if_neg hlen]
      show (0 : ℤ) = t.log.len q
      omega
  · intro i
    rw [hi.current i]
    by_cases hlen : 0 < t.log.len i
    · have hlast : t.log.Recorded (i, t.log.len i - 1) := Nat.sub_lt hlen Nat.one_pos
      rw [if_pos hlen]
      exact hi.causal.le_len hlast q
    · rw [if_neg hlen]
      exact hnn

theorem Inv.countsHistory {t : Traced n} (hi : Inv t) (hl : Ledger t) : t.CountsHistory := by
  refine ⟨fun i q => ?_, fun p => ?_, fun e x hx q => ?_, fun i q => ?_, fun i => ?_, hl.turns⟩
  · rw [hi.current i]
    by_cases hlen : 0 < t.log.len i
    · have hlast : t.log.Recorded (i, t.log.len i - 1) := Nat.sub_lt hlen Nat.one_pos
      rw [if_pos hlen, if_pos hlen, hi.causal.count_past hlast q]
    · rw [if_neg hlen, if_neg hlen]
      rfl
  · refine List.Forall₂.mp ?_ (hi.inflight p) (hl.sends p)
    rintro msg m ⟨hrec, hstamp⟩ hsent
    refine ⟨hsent, fun q => ?_⟩
    rw [hi.causal.count_past hrec q, hstamp]
  · have hrec : t.log.Recorded e := (List.getElem?_eq_some_iff.mp hx).1
    have hstamp : t.stamp e = x.clock := by simp [Traced.stamp, hx]
    rw [hi.causal.count_past hrec q, hstamp]
  · obtain ⟨hown, hle⟩ := hi.clock_bounds q
    rw [hown]
    exact hle i
  · obtain ⟨hown, -⟩ := hi.clock_bounds i
    rw [hown, hl.turns i]
    rfl

/-- **A clock component counts causal history.** After every turn of every run of at least two
processes, each component of each clock, of a process, of a message in an inbox or of a history
entry, is the number of events of a process in the causal past of the event it belongs to. -/
theorem clocks_count_history (hn : 2 ≤ n) (draws : Draws n) (r j : ℕ) :
    ∃ t, tracedAfter draws r j = .ok t ∧ stateAfter draws r j = .ok t.sim ∧
      t.CountsHistory := by
  obtain ⟨t, hrun, hi, hl⟩ := tracedAfter_ledger hn draws r j
  refine ⟨t, hrun, ?_, hi.countsHistory hl⟩
  rw [← tracedAfter_sim, hrun]
  rfl

/-- Two rounds of two processes: `P1` has received a message of `P0`. -/
theorem clocks_count_history_two :
    ∃ t, tracedAfter (fun _ _ => ⟨0, 0⟩ : Draws 2) 2 0 = .ok t ∧
      stateAfter (fun _ _ => ⟨0, 0⟩ : Draws 2) 2 0 = .ok t.sim ∧ t.CountsHistory :=
  clocks_count_history (by decide) _ 2 0

end VectorClock
