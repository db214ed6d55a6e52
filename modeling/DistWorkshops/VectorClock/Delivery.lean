import DistWorkshops.VectorClock.Simulation

/-!
# Message delivery in the simulation

`Mailed` is the simulation with one observation added: the messages sent to each process so far,
in the order of the run. What a process has consumed is read off the RECV entries of its
history. For one process a turn of the simulation is one of three things (`MailStep`): it
consumes the head of its inbox, it finds its inbox empty, or another process takes the turn and
may add to the inbox. So the messages sent are those consumed followed by the inbox, and since
an inbox that is not empty is served at every turn of its owner, a message waits for as many
turns as there are messages ahead of it (`delivery`).
-/

set_option autoImplicit false

namespace VectorClock

variable {n : ℕ}

/-! ## What was sent and what was consumed -/

/-- The message that a history entry consumed. -/
def Entry.consumed? : Entry n → Option (Fin n × Clock n)
  | ⟨.recv, _, some msgClock, .sender sender⟩ => some (sender, msgClock)
  | _ => none

/-- The messages `p` has consumed, in order. -/
def Sim.consumed (s : Sim n) (p : Fin n) : List (Fin n × Clock n) :=
  (s.history p).filterMap Entry.consumed?

structure Mailed (n : ℕ) where
  sim : Sim n
  /-- The messages sent to each process, in the order in which they were sent. -/
  sent : Fin n → List (Fin n × Clock n)

def Mailed.init (n : ℕ) : Mailed n := ⟨VectorClock.init n, fun _ => []⟩

/-- The observation after `pid` took the turn that led to `sim`, by the entry it recorded. -/
def Mailed.observe (m : Mailed n) (pid : Fin n) (sim : Sim n) : Mailed n :=
  match (sim.history pid).getLast? with
  | some ⟨.send, clock, _, .target target⟩ =>
      ⟨sim, Function.update m.sent target (m.sent target ++ [(pid, clock)])⟩
  | _ => ⟨sim, m.sent⟩

def mailedTurn (draw : Draw) (pid : Fin n) (m : Mailed n) : Except PyError (Mailed n) :=
  (turn draw pid m.sim).map (m.observe pid)

/-- The state after `r` rounds and the first `j` turns of the next one. -/
def mailedAfter (draws : Draws n) (r j : ℕ) : Except PyError (Mailed n) :=
  RoundRobin.after (RoundRobin.lift fun r p => mailedTurn (draws r p) p) (.ok (Mailed.init n))
    r j

theorem mailedAfter_turn (draws : Draws n) (r : ℕ) (p : Fin n) :
    mailedAfter draws r (p + 1) = mailedAfter draws r p >>= mailedTurn (draws r p) p := by
  rw [mailedAfter, RoundRobin.after_turn]
  rfl

theorem Mailed.observe_sim (m : Mailed n) (pid : Fin n) (sim : Sim n) :
    (m.observe pid sim).sim = sim := by
  unfold Mailed.observe
  split <;> rfl

/-- The observation does not disturb the simulation. -/
theorem mailedAfter_sim (draws : Draws n) (r j : ℕ) :
    (mailedAfter draws r j).map Mailed.sim = stateAfter draws r j := by
  refine RoundRobin.after_map _ _ (Except.map Mailed.sim) ?_ r j
  rintro r p (e | m)
  · rfl
  · show ((turn (draws r p) p m.sim).map (m.observe p)).map Mailed.sim = turn (draws r p) p m.sim
    cases turn (draws r p) p m.sim with
    | error e => rfl
    | ok s => exact congrArg Except.ok (m.observe_sim p s)

/-! ## A turn, seen from one process -/

/-- What the turn of `pid` does to the mail of `p`. -/
inductive MailStep (pid p : Fin n) (m m' : Mailed n) : Prop where
  | serve (msg : Fin n × Clock n) (rest : List (Fin n × Clock n)) (hpid : pid = p)
      (hbox : m.sim.inboxes p = msg :: rest) (hbox' : m'.sim.inboxes p = rest)
      (hconsumed : m'.sim.consumed p = m.sim.consumed p ++ [msg])
      (hsent : m'.sent p = m.sent p)
      (hcount : m'.sim.turnCount p = m.sim.turnCount p + 1)
  | pass (hpid : pid = p) (hbox : m.sim.inboxes p = []) (hbox' : m'.sim.inboxes p = [])
      (hconsumed : m'.sim.consumed p = m.sim.consumed p) (hsent : m'.sent p = m.sent p)
      (hcount : m'.sim.turnCount p = m.sim.turnCount p + 1)
  | arrive (new : List (Fin n × Clock n)) (hpid : pid ≠ p)
      (hbox' : m'.sim.inboxes p = m.sim.inboxes p ++ new)
      (hconsumed : m'.sim.consumed p = m.sim.consumed p)
      (hsent : m'.sent p = m.sent p ++ new) (hcount : m'.sim.turnCount p = m.sim.turnCount p)

theorem mailedTurn_cases (hn : 2 ≤ n) (draw : Draw) (pid : Fin n) (m : Mailed n) :
    ∃ m', mailedTurn draw pid m = .ok m' ∧ ∀ p, MailStep pid p m m' := by
  obtain ⟨s', hturn, hcases⟩ := turn_cases hn draw pid m.sim
  refine ⟨m.observe pid s', by rw [mailedTurn, hturn]; rfl, fun p => ?_⟩
  cases hcases with
  | recv sender msgClock inbox hbox hs =>
      have hobs : m.observe pid s' = ⟨s', m.sent⟩ := by simp [Mailed.observe, hs]
      rw [hobs]
      by_cases hp : pid = p
      · subst hp
        exact MailStep.serve (sender, msgClock) inbox rfl hbox (by simp [hs])
          (by simp [hs, Sim.consumed, Entry.consumed?]) rfl (by simp [hs])
      · have hp' : p ≠ pid := Ne.symm hp
        exact MailStep.arrive [] hp (by simp [hs, hp']) (by simp [hs, Sim.consumed, hp'])
          (List.append_nil _).symm (by simp [hs, hp'])
  | send target hbox hne hs =>
      have hobs : m.observe pid s' = ⟨s', Function.update m.sent target
          (m.sent target ++ [(pid, tick (m.sim.clocks pid) pid)])⟩ := by
        simp [Mailed.observe, hs]
      rw [hobs]
      by_cases hp : pid = p
      · -- the sender's own inbox is empty, and the message goes to another one
        subst hp
        have hne' : pid ≠ target := Ne.symm hne
        exact MailStep.pass rfl hbox (by simp [hs, hne', hbox])
          (by simp [hs, Sim.consumed, Entry.consumed?]) (by simp [hne']) (by simp [hs])
      · have hp' : p ≠ pid := Ne.symm hp
        by_cases ht : p = target
        · subst ht
          exact MailStep.arrive [(pid, tick (m.sim.clocks pid) pid)] hp (by simp [hs])
            (by simp [hs, Sim.consumed, hp']) (by simp) (by simp [hs, hp'])
        · exact MailStep.arrive [] hp (by simp [hs, ht]) (by simp [hs, Sim.consumed, hp'])
            (by simp [ht]) (by simp [hs, hp'])
  | quiet hbox hs =>
      have hobs : m.observe pid s' = ⟨s', m.sent⟩ := by simp [Mailed.observe, hs]
      rw [hobs]
      by_cases hp : pid = p
      · subst hp
        exact MailStep.pass rfl hbox (by simp [hs, hbox])
          (by simp [hs, Sim.consumed, Entry.consumed?]) rfl (by simp [hs])
      · have hp' : p ≠ pid := Ne.symm hp
        exact MailStep.arrive [] hp (by simp [hs]) (by simp [hs, Sim.consumed, hp'])
          (List.append_nil _).symm (by simp [hs, hp'])

/-! ## Exactly once, in order -/

/-- The messages sent to `p` are those it has consumed followed by its inbox. -/
def Mailed.Fifo (m : Mailed n) (p : Fin n) : Prop :=
  m.sent p = m.sim.consumed p ++ m.sim.inboxes p

theorem init_fifo (p : Fin n) : (Mailed.init n).Fifo p := rfl

theorem MailStep.fifo {pid p : Fin n} {m m' : Mailed n} (h : MailStep pid p m m')
    (hf : m.Fifo p) : m'.Fifo p := by
  unfold Mailed.Fifo at hf ⊢
  cases h with
  | serve msg rest hpid hbox hbox' hconsumed hsent hcount =>
      rw [hsent, hf, hconsumed, hbox, hbox', List.append_assoc]
      rfl
  | pass hpid hbox hbox' hconsumed hsent hcount =>
      rw [hsent, hf, hconsumed, hbox, hbox']
  | arrive new hpid hbox' hconsumed hsent hcount =>
      rw [hsent, hf, hconsumed, hbox', List.append_assoc]

theorem mailedAfter_fifo (hn : 2 ≤ n) (draws : Draws n) (r j : ℕ) :
    ∃ m, mailedAfter draws r j = .ok m ∧ ∀ p, m.Fifo p := by
  refine RoundRobin.lift_invariant (fun m : Mailed n => ∀ p, m.Fifo p) init_fifo ?_ r j
  intro r p m hf
  obtain ⟨m', hturn, hsteps⟩ := mailedTurn_cases hn (draws r p) p m
  exact ⟨m', hturn, fun q => (hsteps q).fifo (hf q)⟩

/-! ## On time -/

/-- How far `p` is with its mail, when it had consumed `R` messages at its turn count `T` and
`sent` had been sent to it by then: it has consumed one message at every turn since, unless it
has consumed all of `sent`. -/
structure OnTime (p : Fin n) (sent : List (Fin n × Clock n)) (R T : ℕ) (m : Mailed n) :
    Prop where
  sentBefore : sent <+: m.sent p
  atMost : (m.sim.consumed p).length + T ≤ R + m.sim.turnCount p
  atLeast : R + m.sim.turnCount p ≤ (m.sim.consumed p).length + T ∨
    sent.length ≤ (m.sim.consumed p).length

theorem OnTime.step {pid p : Fin n} {sent : List (Fin n × Clock n)} {R T : ℕ} {m m' : Mailed n}
    (ho : OnTime p sent R T m) (hf : m.Fifo p) (h : MailStep pid p m m') :
    OnTime p sent R T m' := by
  obtain ⟨hsentBefore, hatMost, hatLeast⟩ := ho
  cases h with
  | serve msg rest hpid hbox hbox' hconsumed hsent hcount =>
      refine ⟨hsent ▸ hsentBefore, ?_, ?_⟩
      · rw [hconsumed, hcount, List.length_append, List.length_singleton]
        omega
      · rw [hconsumed, hcount, List.length_append, List.length_singleton]
        omega
  | pass hpid hbox hbox' hconsumed hsent hcount =>
      -- an empty inbox: everything sent so far is consumed
      have hall : sent.length ≤ (m.sim.consumed p).length := by
        have hle := hsentBefore.length_le
        rw [hf, hbox, List.append_nil] at hle
        exact hle
      refine ⟨hsent ▸ hsentBefore, ?_, Or.inr (hconsumed ▸ hall)⟩
      rw [hconsumed, hcount]
      omega
  | arrive new hpid hbox' hconsumed hsent hcount =>
      rw [← hconsumed, ← hcount] at hatMost hatLeast
      refine ⟨?_, hatMost, hatLeast⟩
      rw [hsent]
      exact hsentBefore.trans (List.prefix_append _ _)

/-- A message that is `k` turns away from the head is consumed at the turn after these. -/
theorem OnTime.consumes {p : Fin n} {before : List (Fin n × Clock n)} {msg : Fin n × Clock n}
    {R T k : ℕ} {m m' : Mailed n} (ho : OnTime p (before ++ [msg]) R T m) (hf : m.Fifo p)
    (hlen : before.length = R + k) (hturns : m.sim.turnCount p = T + k)
    (h : MailStep p p m m') :
    (m.sim.consumed p).length = before.length ∧
      m'.sim.consumed p = m.sim.consumed p ++ [msg] := by
  obtain ⟨⟨later, hlater⟩, hatMost, hatLeast⟩ := ho
  rw [List.length_append, List.length_singleton] at hatLeast
  have hcount : (m.sim.consumed p).length = before.length := by omega
  -- the inbox starts with the message
  have hbox : m.sim.inboxes p = msg :: later := by
    rw [hf, List.append_assoc] at hlater
    exact (List.append_inj hlater hcount.symm).2.symm
  refine ⟨hcount, ?_⟩
  cases h with
  | serve msg' rest hpid hbox' hrest hconsumed hsent hcount' =>
      rw [hbox'] at hbox
      rw [hconsumed, (List.cons.inj hbox).1]
  | pass hpid hbox' hrest hconsumed hsent hcount' =>
      rw [hbox'] at hbox
      cases hbox
  | arrive new hpid hbox' hconsumed hsent hcount' => exact absurd rfl hpid

/-- Every process takes one turn in each round. -/
theorem mailedAfter_turnCount (hn : 2 ≤ n) (draws : Draws n) (r j : ℕ) (hj : j ≤ n)
    {m : Mailed n} (hm : mailedAfter draws r j = .ok m) (p : Fin n) :
    m.sim.turnCount p = r + if (p : ℕ) < j then 1 else 0 := by
  have h := @RoundRobin.after_induction _ _
    (RoundRobin.lift fun r p => mailedTurn (draws r p) p) (.ok (Mailed.init n))
    (fun r j x => ∃ m, x = .ok m ∧
      ∀ p : Fin n, m.sim.turnCount p = r + if (p : ℕ) < j then 1 else 0)
    ⟨_, rfl, fun p => rfl⟩ ?turn ?wrap r j hj
  · obtain ⟨m', hm', hcount⟩ := h
    rw [mailedAfter, hm'] at hm
    obtain rfl := Except.ok.inj hm
    exact hcount p
  case turn =>
    rintro r q _ ⟨m, rfl, hcount⟩
    obtain ⟨m', hturn, hsteps⟩ := mailedTurn_cases hn (draws r q) q m
    refine ⟨m', hturn, fun p => ?_⟩
    have hp := hcount p
    cases hsteps p with
    | serve msg rest hpid hbox hbox' hconsumed hsent hcount' =>
        subst hpid
        rw [if_neg (by omega)] at hp
        rw [hcount', hp, if_pos (by omega)]
    | pass hpid hbox hbox' hconsumed hsent hcount' =>
        subst hpid
        rw [if_neg (by omega)] at hp
        rw [hcount', hp, if_pos (by omega)]
    | arrive new hpid hbox' hconsumed hsent hcount' =>
        have hne : (p : ℕ) ≠ q := fun he => hpid (Fin.ext he).symm
        rw [hcount', hp]
        by_cases hlt : (p : ℕ) < q
        · rw [if_pos hlt, if_pos (by omega)]
        · rw [if_neg hlt, if_neg (by omega)]
  case wrap =>
    rintro r _ ⟨m, rfl, hcount⟩
    refine ⟨m, rfl, fun p => ?_⟩
    rw [hcount p, if_pos p.isLt, if_neg (Nat.not_lt_zero _)]

/-- The round of the `(k + 1)`-th turn of `t` after the turn of `p` in round `r`. -/
def roundOfTurn (r : ℕ) (p t : Fin n) (k : ℕ) : ℕ := r + k + if (p : ℕ) < t then 0 else 1

/-- That turn is behind the turn of `p`. -/
theorem roundOfTurn_later (r : ℕ) (p t : Fin n) (k : ℕ) :
    r < roundOfTurn r p t k ∨ r = roundOfTurn r p t k ∧ (p : ℕ) + 1 ≤ t := by
  rw [roundOfTurn]
  by_cases hlt : (p : ℕ) < t
  · rw [if_pos hlt]
    omega
  · rw [if_neg hlt]
    omega

theorem mailedAfter_step (hn : 2 ≤ n) (draws : Draws n) (r : ℕ) (p : Fin n) {x y : Mailed n}
    (hx : mailedAfter draws r p = .ok x) (hy : mailedAfter draws r (p + 1) = .ok y) (t : Fin n) :
    MailStep p t x y := by
  obtain ⟨m, hturn, hsteps⟩ := mailedTurn_cases hn (draws r p) p x
  rw [mailedAfter_turn, hx] at hy
  exact Except.ok.inj (hturn.symm.trans hy) ▸ hsteps t

/-- A turn that puts a message into an inbox is another process's, which sent it. -/
theorem MailStep.put {pid p : Fin n} {m m' : Mailed n} {msg : Fin n × Clock n}
    (h : MailStep pid p m m') (hput : m'.sim.inboxes p = m.sim.inboxes p ++ [msg]) :
    pid ≠ p ∧ m'.sent p = m.sent p ++ [msg] ∧ m'.sim.consumed p = m.sim.consumed p := by
  cases h with
  | serve msg' rest hpid hbox hbox' _ _ _ =>
      have hlen := congrArg List.length hput
      rw [hbox', hbox, List.length_append, List.length_cons] at hlen
      omega
  | pass hpid hbox hbox' _ _ _ =>
      rw [hbox', hbox] at hput
      cases hput
  | arrive new hpid hbox' hconsumed hsent _ =>
      rw [hbox'] at hput
      exact ⟨hpid, by rw [hsent, List.append_cancel_left hput], hconsumed⟩

/-- Who is on time at one position of a run is on time at all later ones. -/
theorem onTime_later (hn : 2 ≤ n) (draws : Draws n) {r j : ℕ} (hj : j ≤ n) {p : Fin n}
    {sent : List (Fin n × Clock n)} {R T : ℕ} {m : Mailed n}
    (hm : mailedAfter draws r j = .ok m) (hf : m.Fifo p) (ho : OnTime p sent R T m)
    {r' j' : ℕ} (hj' : j' ≤ n) (hlater : r < r' ∨ r = r' ∧ j ≤ j') :
    ∃ m', mailedAfter draws r' j' = .ok m' ∧ m'.Fifo p ∧ OnTime p sent R T m' := by
  refine @RoundRobin.after_induction_from _ _
    (RoundRobin.lift fun r p => mailedTurn (draws r p) p) (.ok (Mailed.init n))
    (fun _ _ x => ∃ m', x = .ok m' ∧ m'.Fifo p ∧ OnTime p sent R T m')
    _ _ hj ⟨m, hm, hf, ho⟩ ?_ (fun _ _ h => h) r' j' hj' hlater
  rintro r q _ ⟨m, rfl, hf, ho⟩
  obtain ⟨m', hturn, hsteps⟩ := mailedTurn_cases hn (draws r q) q m
  exact ⟨m', hturn, (hsteps p).fifo hf, ho.step hf (hsteps p)⟩

/-- **A message waits for those ahead of it, and no longer.** The turn of `p` in round `r` has put
`msg` into the inbox of `t`, which held `k` messages. -/
theorem consumed_on_time (hn : 2 ≤ n) (draws : Draws n) (r : ℕ) (p t : Fin n)
    {x y : Mailed n} (hx : mailedAfter draws r p = .ok x)
    (hy : mailedAfter draws r (p + 1) = .ok y) {msg : Fin n × Clock n}
    (hput : y.sim.inboxes t = x.sim.inboxes t ++ [msg]) :
    ∃ u v, mailedAfter draws (roundOfTurn r p t (x.sim.inboxes t).length) t = .ok u ∧
      mailedAfter draws (roundOfTurn r p t (x.sim.inboxes t).length) (t + 1) = .ok v ∧
      u.sim.turnCount t = y.sim.turnCount t + (x.sim.inboxes t).length ∧
      (u.sim.consumed t).length = (x.sent t).length ∧
      v.sim.consumed t = u.sim.consumed t ++ [msg] := by
  set k := (x.sim.inboxes t).length with hk
  set r' := roundOfTurn r p t k with hr'
  have hp : (p : ℕ) + 1 ≤ n := p.isLt
  have ht : (t : ℕ) ≤ n := Nat.le_of_lt t.isLt
  have hfx : x.Fifo t := by
    obtain ⟨m, hm, hf⟩ := mailedAfter_fifo hn draws r p
    rw [hx] at hm
    exact Except.ok.inj hm ▸ hf t
  have hstep : MailStep p t x y := mailedAfter_step hn draws r p hx hy t
  obtain ⟨hother, hsent, hconsumed⟩ := hstep.put hput
  have hlen : (x.sent t).length = (x.sim.consumed t).length + k := by
    rw [hfx, List.length_append]
  -- right after the send `t` is on time, hence also before its `(k + 1)`-th turn
  have hstart : OnTime t (x.sent t ++ [msg]) (x.sim.consumed t).length (y.sim.turnCount t) y := by
    refine ⟨by rw [hsent], ?_, Or.inl ?_⟩
    · rw [hconsumed]
    · rw [hconsumed]
  have hlater : r < r' ∨ r = r' ∧ (p : ℕ) + 1 ≤ t := roundOfTurn_later r p t k
  obtain ⟨u, hu, hfu, hou⟩ := onTime_later hn draws hp hy (hstep.fifo hfx) hstart ht hlater
  have hturns : u.sim.turnCount t = y.sim.turnCount t + k := by
    rw [mailedAfter_turnCount hn draws r' t ht hu, mailedAfter_turnCount hn draws r (p + 1) hp hy,
      if_neg (Nat.lt_irrefl _), hr', roundOfTurn]
    have hne : (p : ℕ) ≠ t := fun he => hother (Fin.ext he)
    by_cases hlt : (p : ℕ) < t
    · rw [if_pos hlt, if_neg (by omega)]
      omega
    · rw [if_neg hlt, if_pos (by omega)]
      omega
  obtain ⟨v, hturn, hsteps⟩ := mailedTurn_cases hn (draws r' t) t u
  have hv : mailedAfter draws r' (t + 1) = .ok v := by
    rw [mailedAfter_turn, hu]
    exact hturn
  obtain ⟨hcount, hconsumes⟩ := hou.consumes hfu hlen hturns (hsteps t)
  exact ⟨u, v, hu, hv, hturns, hcount, hconsumes⟩

/-- A run delivers every message once, in order and on time. -/
structure Delivers (draws : Draws n) : Prop where
  /-- The messages sent to a process are those it has consumed followed by its inbox. -/
  fifo : ∀ r j, ∃ m, mailedAfter draws r j = .ok m ∧ stateAfter draws r j = .ok m.sim ∧
    ∀ t, m.sent t = m.sim.consumed t ++ m.sim.inboxes t
  /-- A message put into an inbox of `k` messages is the one its owner consumes at its
  `(k + 1)`-th turn after that. -/
  onTime : ∀ r (p t : Fin n) x y msg, mailedAfter draws r p = .ok x →
    mailedAfter draws r (p + 1) = .ok y → y.sim.inboxes t = x.sim.inboxes t ++ [msg] →
    ∃ u v, mailedAfter draws (roundOfTurn r p t (x.sim.inboxes t).length) t = .ok u ∧
      mailedAfter draws (roundOfTurn r p t (x.sim.inboxes t).length) (t + 1) = .ok v ∧
      u.sim.turnCount t = y.sim.turnCount t + (x.sim.inboxes t).length ∧
      (u.sim.consumed t).length = (x.sent t).length ∧
      v.sim.consumed t = u.sim.consumed t ++ [msg]

/-- **Message delivery is exactly once, in order and on time** in every run of at least two
processes. -/
theorem delivery (hn : 2 ≤ n) (draws : Draws n) : Delivers draws := by
  constructor
  · intro r j
    obtain ⟨m, hm, hf⟩ := mailedAfter_fifo hn draws r j
    refine ⟨m, hm, ?_, hf⟩
    rw [← mailedAfter_sim, hm]
    rfl
  · intro r p t x y msg hx hy hput
    exact consumed_on_time hn draws r p t hx hy hput

/-- Two processes: the message `P0` sends in round 1 waits behind nothing, and `P1` consumes it in
the same round. -/
theorem delivery_two : Delivers (fun _ _ => ⟨0, 0⟩ : Draws 2) := delivery (by decide) _

end VectorClock
