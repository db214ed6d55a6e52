import DistWorkshops.VectorClock.Simulation
import Mathlib.Data.Int.Notation

/-!
# What the simulation demonstrates

`main` of `simulation.py`: the simulation, and after it the summary of the causal relations. Its
first part compares the first events of every two processes, its second part each RECV with the
clock of the message.

What the summary shows rests on how a run opens (`Opening`). In the first round nothing has been
sent, so every process takes a LOCAL event of its own. In the second round `P0` still has an empty
inbox and has to send; the target acts after `P0`, so it receives in the same round at the latest.
-/

set_option autoImplicit false

namespace VectorClock

variable {n : ℕ}

/-! ## The summary -/

/-- The printed lines of the summary. -/
inductive SummaryLine (n : ℕ) where
  | first (i j : Fin n) (clock clock' : Clock n) (result : Comparison)
  | received (msgClock : Clock n) (detail : Detail n) (result : Comparison) (pid : Fin n)
      (clock : Clock n)
  | noRecv

/-- `history[pid][0]`. -/
def Sim.firstEvent (s : Sim n) (pid : Fin n) : Except PyError (Entry n) :=
  match s.history pid with
  | [] => .error .indexError
  | entry :: _ => .ok entry

/-- The pairs `(i, j)` with `i < j`, in the order of the two loops. -/
def pairs (n : ℕ) : List (Fin n × Fin n) :=
  (List.finRange n).flatMap fun i => ((List.finRange n).filter fun j => i < j).map fun j => (i, j)

def compareFirst (s : Sim n) (pair : Fin n × Fin n) : Except PyError (SummaryLine n) := do
  let e1 ← s.firstEvent pair.1
  let e2 ← s.firstEvent pair.2
  return .first pair.1 pair.2 e1.clock e2.clock (compareClocks e1.clock e2.clock)

/-- The RECV entries, by process. -/
def Sim.recvEntries (s : Sim n) : List (Fin n × Entry n) :=
  (List.finRange n).flatMap fun pid =>
    ((s.history pid).filter fun entry => entry.action = .recv).map fun entry => (pid, entry)

/-- Without a clock in the entry, `zip` raises `TypeError`. -/
def compareRecv (received : Fin n × Entry n) : Except PyError (SummaryLine n) :=
  let (pid, entry) := received
  match entry.msgClock with
  | none => .error .typeError
  | some msgClock =>
      .ok (.received msgClock entry.detail (compareClocks msgClock entry.clock) pid entry.clock)

def summary (s : Sim n) : Except PyError (List (SummaryLine n)) := do
  let firsts ← (pairs n).mapM (compareFirst s)
  let received ← s.recvEntries.mapM compareRecv
  return firsts ++ if received.isEmpty then [.noRecv] else received

structure Report (n : ℕ) where
  sim : Sim n
  lines : List (SummaryLine n)

/-- `main`, from the arguments `n` and `rounds`; `range` of a negative number is empty. -/
def main (n rounds : ℤ) (draws : Draws n.toNat) : Except PyError (Report n.toNat) := do
  let s ← simulate draws rounds.toNat
  let lines ← summary s
  return ⟨s, lines⟩

/-! ## How a run opens -/

/-- The first entry of a history. -/
def firstEntry (pid : Fin n) : Entry n := ⟨.local, tick (newClock n) pid, none, .empty⟩

def Sim.Received (s : Sim n) : Prop := ∃ p, ∃ entry ∈ s.history p, entry.action = .recv

/-- The state after `r` rounds and the first `j` turns of the next one. -/
structure Opening (r j : ℕ) (s : Sim n) : Prop where
  count : ∀ p : Fin n, s.turnCount p = r + if (p : ℕ) < j then 1 else 0
  started : ∀ p, 0 < s.turnCount p → (s.history p).head? = some (firstEntry p)
  fresh : ∀ p, s.turnCount p = 0 → s.history p = [] ∧ s.clocks p = newClock n
  silent : r = 0 ∨ r = 1 ∧ j = 0 → ∀ p, s.inboxes p = []
  /-- A message of the second round waits for a process that is still to act. -/
  message : r = 1 → 0 < j → s.Received ∨ ∃ t : Fin n, j ≤ t ∧ s.inboxes t ≠ []
  received : 2 ≤ r → s.Received

theorem init_opening : Opening 0 0 (init n) where
  count _ := rfl
  started _ h := absurd h (Nat.lt_irrefl 0)
  fresh _ _ := ⟨rfl, rfl⟩
  silent _ _ := rfl
  message h := absurd h (by decide)
  received h := absurd h (by decide)

/-- A message that waits for another process keeps waiting. -/
theorem Turn.keeps_waiting {pid t : Fin n} {s s' : Sim n} (h : Turn pid s s') (ht : t ≠ pid)
    (hwait : s.inboxes t ≠ []) : s'.inboxes t ≠ [] := by
  cases h with
  | recv sender msgClock inbox hbox hs =>
      have hbox' : s'.inboxes = Function.update s.inboxes pid inbox := by rw [hs]
      rw [hbox', Function.update_of_ne ht]
      exact hwait
  | send target hbox hne hs =>
      have hbox' : s'.inboxes = Function.update s.inboxes target
          (s.inboxes target ++ [(pid, tick (s.clocks pid) pid)]) := by rw [hs]
      rw [hbox']
      by_cases htarget : t = target
      · subst htarget
        rw [Function.update_self]
        exact List.append_ne_nil_of_right_ne_nil _ (List.cons_ne_nil _ _)
      · rw [Function.update_of_ne htarget]
        exact hwait
  | quiet hbox hs =>
      have hbox' : s'.inboxes = s.inboxes := by rw [hs]
      rw [hbox']
      exact hwait

/-- A process with a message in its inbox receives. -/
theorem Turn.receives {pid : Fin n} {s s' : Sim n} (h : Turn pid s s')
    (hwait : s.inboxes pid ≠ []) : s'.Received := by
  cases h with
  | recv sender msgClock inbox hbox hs =>
      have hist : s'.history = Function.update s.history pid (s.history pid ++
          [⟨.recv, tick (merge (s.clocks pid) msgClock) pid, some msgClock, .sender sender⟩]) := by
        rw [hs]
      refine ⟨pid, ⟨.recv, tick (merge (s.clocks pid) msgClock) pid, some msgClock,
        .sender sender⟩, ?_, rfl⟩
      rw [hist, Function.update_self]
      exact List.mem_append_right _ List.mem_cons_self
  | send target hbox hne hs => exact absurd hbox hwait
  | quiet hbox hs => exact absurd hbox hwait

namespace Extends

variable {pid : Fin n} {s s' : Sim n} {entry : Entry n} {r : ℕ}

theorem received (h : Extends pid s s' entry) (hs : s.Received) : s'.Received := by
  obtain ⟨p, e, he, hact⟩ := hs
  refine ⟨p, e, ?_, hact⟩
  rw [h.history]
  by_cases hp : p = pid
  · subst hp
    rw [Function.update_self]
    exact List.mem_append_left _ he
  · rw [Function.update_of_ne hp]
    exact he

theorem count (h : Extends pid s s' entry) (ho : Opening r pid s) (p : Fin n) :
    s'.turnCount p = r + if (p : ℕ) < pid + 1 then 1 else 0 := by
  rw [h.turnCount]
  by_cases hp : p = pid
  · subst hp
    rw [Function.update_self, ho.count p, if_neg (Nat.lt_irrefl _), if_pos (Nat.lt_succ_self _)]
  · have hne : (p : ℕ) ≠ pid := fun he => hp (Fin.ext he)
    have hlt : (p : ℕ) < pid + 1 ↔ (p : ℕ) < pid := by omega
    rw [Function.update_of_ne hp, ho.count p]
    simp only [hlt]

theorem started (h : Extends pid s s' entry) (ho : Opening r pid s)
    (hentry : r = 0 → entry = firstEntry pid) (p : Fin n) (hp : 0 < s'.turnCount p) :
    (s'.history p).head? = some (firstEntry p) := by
  rw [h.turnCount] at hp
  rw [h.history]
  by_cases he : p = pid
  · subst he
    have hcount : s.turnCount p = r := by
      rw [ho.count p, if_neg (Nat.lt_irrefl _), Nat.add_zero]
    rw [Function.update_self]
    by_cases hr : r = 0
    · rw [(ho.fresh p (hcount.trans hr)).1, hentry hr]
      rfl
    · have hhead := ho.started p (by omega)
      rw [List.head?_append, hhead, Option.some_or]
  · rw [Function.update_of_ne he] at hp ⊢
    exact ho.started p hp

theorem fresh (h : Extends pid s s' entry) (ho : Opening r pid s) (p : Fin n)
    (hp : s'.turnCount p = 0) : s'.history p = [] ∧ s'.clocks p = newClock n := by
  rw [h.turnCount] at hp
  have he : p ≠ pid := by
    rintro rfl
    rw [Function.update_self] at hp
    omega
  rw [Function.update_of_ne he] at hp
  rw [h.history, Function.update_of_ne he, h.clocks p he]
  exact ho.fresh p hp

end Extends

/-- **One turn of the opening.** -/
theorem turn_opening (hn : 2 ≤ n) (draw : Draw) (r : ℕ) (pid : Fin n) {s : Sim n}
    (ho : Opening r pid s) :
    ∃ s', turn draw pid s = .ok s' ∧ Opening r (pid + 1) s' := by
  have hcount : s.turnCount pid = r := by
    rw [ho.count pid, if_neg (Nat.lt_irrefl _), Nat.add_zero]
  by_cases hr : r = 0
  · -- the first turn of a process is LOCAL, and nothing waits
    subst hr
    have hbox := ho.silent (Or.inl rfl)
    have hact : decideAction pid (s.turnCount pid) false draw = .ok .local := by
      rw [hcount]
      rfl
    obtain ⟨s', hturn, hs⟩ := turn_local draw (hbox pid) hact
    rw [(ho.fresh pid hcount).2] at hs
    have hext : Extends pid s s' (firstEntry pid) := by
      subst hs
      exact ⟨rfl, rfl, fun q hq => Function.update_of_ne hq _ _⟩
    refine ⟨s', hturn, hext.count ho, hext.started ho fun _ => rfl, hext.fresh ho, ?_,
      fun h => absurd h (by decide), fun h => absurd h (by decide)⟩
    intro _ p
    have hbox' : s'.inboxes = s.inboxes := by rw [hs]
    rw [hbox']
    exact hbox p
  · obtain ⟨s', hturn, hcases⟩ := turn_cases hn draw pid s
    obtain ⟨entry, hext⟩ := hcases.extends
    refine ⟨s', hturn, hext.count ho, hext.started ho fun h => absurd h hr, hext.fresh ho,
      fun h => by omega, ?_, fun h => hext.received (ho.received h)⟩
    intro h1 _
    subst h1
    by_cases h0 : (pid : ℕ) = 0
    · -- the second turn of `P0` is SEND, to a process that acts after it
      have hbox := ho.silent (Or.inr ⟨rfl, h0⟩)
      have hact : decideAction pid (s.turnCount pid) false draw = .ok .send := by
        rw [hcount, decideAction, if_neg (by decide), if_neg (by decide), if_pos ⟨h0, rfl⟩]
      obtain ⟨s'', target, hturn', hne, hs⟩ := turn_send draw hn (hbox pid) hact
      obtain rfl := Except.ok.inj (hturn.symm.trans hturn')
      right
      refine ⟨target, ?_, ?_⟩
      · have : (target : ℕ) ≠ pid := fun he => hne (Fin.ext he)
        omega
      · have hbox' : s'.inboxes = Function.update s.inboxes target
            (s.inboxes target ++ [(pid, tick (s.clocks pid) pid)]) := by rw [hs]
        rw [hbox', Function.update_self]
        exact List.append_ne_nil_of_right_ne_nil _ (List.cons_ne_nil _ _)
    · rcases ho.message rfl (by omega) with hreceived | ⟨t, hle, hwait⟩
      · exact Or.inl (hext.received hreceived)
      · by_cases ht : t = pid
        · subst ht
          exact Or.inl (hcases.receives hwait)
        · right
          refine ⟨t, ?_, hcases.keeps_waiting ht hwait⟩
          have : (t : ℕ) ≠ pid := fun he => ht (Fin.ext he)
          omega

/-- From the end of a round to the start of the next. -/
theorem Opening.wrap (hn : 2 ≤ n) {r : ℕ} {s : Sim n} (ho : Opening r n s) :
    Opening (r + 1) 0 s where
  count p := by rw [ho.count p, if_pos p.isLt, if_neg (Nat.not_lt_zero _), Nat.add_zero]
  started := ho.started
  fresh := ho.fresh
  silent h := ho.silent (Or.inl (by omega))
  message _ h := absurd h (Nat.lt_irrefl 0)
  received h := by
    by_cases hr : r = 1
    · -- no process is left for a message to wait for
      rcases ho.message hr (by omega) with hreceived | ⟨t, hle, -⟩
      · exact hreceived
      · exact absurd t.isLt (Nat.not_lt.mpr hle)
    · exact ho.received (by omega)

theorem simulate_opening (hn : 2 ≤ n) (draws : Draws n) (rounds : ℕ) :
    ∃ s, simulate draws rounds = .ok s ∧ Opening rounds 0 s := by
  have h := @RoundRobin.lift_induction _ _ _ (fun r p => turn (draws r p) p) (init n) Opening
    init_opening (fun r p s ho => turn_opening hn (draws r p) r p ho)
    (fun r s ho => ho.wrap hn) rounds 0 (Nat.zero_le n)
  rw [RoundRobin.after_start] at h
  exact h

/-! ## The RECV entries -/

/-- A RECV holds the clock of its message, and its own clock is the merge with it, ticked. -/
def Sim.RecvMerged (s : Sim n) : Prop :=
  ∀ p, ∀ entry ∈ s.history p, entry.action = .recv →
    ∃ clock msgClock, entry.msgClock = some msgClock ∧ entry.clock = tick (merge clock msgClock) p

theorem Turn.recvMerged {pid : Fin n} {s s' : Sim n} (h : Turn pid s s') (hs : s.RecvMerged) :
    s'.RecvMerged := by
  -- only the new entry has to be looked at
  have hnew : ∀ entry, s'.history = Function.update s.history pid (s.history pid ++ [entry]) →
      (entry.action = .recv → ∃ clock msgClock, entry.msgClock = some msgClock ∧
        entry.clock = tick (merge clock msgClock) pid) → s'.RecvMerged := by
    intro entry hist hentry p e he hact
    rw [hist] at he
    by_cases hp : p = pid
    · subst hp
      rw [Function.update_self] at he
      rcases List.mem_append.mp he with he | he
      · exact hs p e he hact
      · obtain rfl := List.mem_singleton.mp he
        exact hentry hact
    · rw [Function.update_of_ne hp] at he
      exact hs p e he hact
  cases h with
  | recv sender msgClock inbox hbox hs =>
      exact hnew _ (by rw [hs]) fun _ => ⟨s.clocks pid, msgClock, rfl, rfl⟩
  | send target hbox hne hs => exact hnew _ (by rw [hs]) (fun hact => by cases hact)
  | quiet hbox hs => exact hnew _ (by rw [hs]) (fun hact => by cases hact)

theorem simulate_recvMerged (hn : 2 ≤ n) (draws : Draws n) (rounds : ℕ) :
    ∃ s, simulate draws rounds = .ok s ∧ s.RecvMerged := by
  have h := @RoundRobin.lift_invariant _ _ _ (fun r p => turn (draws r p) p) (init n)
    Sim.RecvMerged (fun _ _ he => by cases he) (fun r p s hs => by
      obtain ⟨s', hturn, hcases⟩ := turn_cases hn (draws r p) p s
      exact ⟨s', hturn, hcases.recvMerged hs⟩) rounds 0
  rw [RoundRobin.after_start] at h
  exact h

/-- A merge with a message, ticked, is after the message. -/
theorem compareClocks_received (clock msgClock : Clock n) (pid : Fin n) :
    compareClocks msgClock (tick (merge clock msgClock) pid) = .before := by
  have hmerge : msgClock ≤ merge clock msgClock := fun i => le_max_right _ _
  rw [compareClocks_eq_before]
  exact ⟨hmerge.trans (le_tick _ pid), not_tick_le hmerge pid⟩

/-! ## What the summary shows -/

/-- The clock of a process that has performed one event and seen no other. -/
def unitClock (pid : Fin n) : Clock n := fun i => if i = pid then 1 else 0

theorem tick_newClock (pid : Fin n) : tick (newClock n) pid = unitClock pid := by
  funext i
  by_cases hi : i = pid
  · subst hi
    rw [tick_self, unitClock, if_pos rfl]
    rfl
  · rw [tick_of_ne _ hi, unitClock, if_neg hi]
    rfl

theorem compareClocks_unit {i j : Fin n} (hne : i ≠ j) :
    compareClocks (unitClock i) (unitClock j) = .concurrent := by
  have hnot : ∀ {p q : Fin n}, p ≠ q → ¬ unitClock p ≤ unitClock q := by
    intro p q hpq hle
    have hp := hle p
    rw [unitClock, unitClock, if_pos rfl, if_neg hpq] at hp
    exact absurd (show (1 : ℤ) ≤ 0 from hp) (by decide)
  rw [compareClocks_eq_concurrent]
  exact ⟨hnot hne, hnot hne.symm⟩

theorem mem_pairs {i j : Fin n} : (i, j) ∈ pairs n ↔ i < j := by
  simp [pairs]

theorem mem_recvEntries {s : Sim n} {pid : Fin n} {entry : Entry n} :
    (pid, entry) ∈ s.recvEntries ↔ entry ∈ s.history pid ∧ entry.action = .recv := by
  simp [Sim.recvEntries]

/-- The lines for the first events of two processes that started on their own. -/
def firstLine (pair : Fin n × Fin n) : SummaryLine n :=
  .first pair.1 pair.2 (unitClock pair.1) (unitClock pair.2) .concurrent

/-- The line for a RECV that is after its message. -/
def receivedLine (received : Fin n × Entry n) : SummaryLine n :=
  .received (received.2.msgClock.getD (newClock n)) received.2.detail .before received.1
    received.2.clock

theorem compareFirst_eq {s : Sim n} (hfirst : ∀ p, (s.history p).head? = some (firstEntry p))
    {pair : Fin n × Fin n} (hpair : pair ∈ pairs n) :
    compareFirst s pair = .ok (firstLine pair) := by
  obtain ⟨i, j⟩ := pair
  have hevent : ∀ p, s.firstEvent p = .ok (firstEntry p) := by
    intro p
    obtain ⟨rest, hrest⟩ := List.head?_eq_some_iff.mp (hfirst p)
    rw [Sim.firstEvent, hrest]
  have hne : i ≠ j := Fin.ne_of_lt (mem_pairs.mp hpair)
  rw [compareFirst, hevent, hevent, firstLine, ← compareClocks_unit hne, ← tick_newClock,
    ← tick_newClock]
  rfl

theorem compareRecv_eq {s : Sim n} (hmerged : s.RecvMerged) {received : Fin n × Entry n}
    (hmem : received ∈ s.recvEntries) : compareRecv received = .ok (receivedLine received) := by
  obtain ⟨pid, entry⟩ := received
  obtain ⟨he, hact⟩ := mem_recvEntries.mp hmem
  obtain ⟨clock, msgClock, hmsg, hclock⟩ := hmerged pid entry he hact
  rw [compareRecv, receivedLine]
  simp only [hmsg, Option.getD_some]
  rw [hclock, compareClocks_received]

/-- **The summary of a run that has started.** -/
theorem summary_eq {s : Sim n} (hfirst : ∀ p, (s.history p).head? = some (firstEntry p))
    (hmerged : s.RecvMerged) :
    summary s = .ok ((pairs n).map firstLine ++
      if (s.recvEntries.map receivedLine).isEmpty then [.noRecv]
      else s.recvEntries.map receivedLine) := by
  have hfirsts := mapM_ok fun pair (hpair : pair ∈ pairs n) => compareFirst_eq hfirst hpair
  have hreceived := mapM_ok fun received (hmem : received ∈ s.recvEntries) =>
    compareRecv_eq hmerged hmem
  rw [summary, hfirsts, hreceived]
  rfl

/-- What the report of a run of `rounds` rounds is to show. -/
structure Report.Demonstrates (report : Report n) (rounds : ℤ) : Prop where
  started : ∀ pid, (report.sim.history pid).head? = some ⟨.local, unitClock pid, none, .empty⟩
  compared : ∀ i j, i < j →
    .first i j (unitClock i) (unitClock j) .concurrent ∈ report.lines
  concurrent : ∀ i j clock clock' result, .first i j clock clock' result ∈ report.lines →
    result = .concurrent
  receives : 2 ≤ rounds → report.sim.Received ∧ .noRecv ∉ report.lines
  received : ∀ pid, ∀ entry ∈ report.sim.history pid, entry.action = .recv →
    ∃ msgClock, entry.msgClock = some msgClock ∧
      .received msgClock entry.detail .before pid entry.clock ∈ report.lines
  before : ∀ msgClock detail result pid clock,
    .received msgClock detail result pid clock ∈ report.lines → result = .before

theorem mem_lines {s : Sim n} {line : SummaryLine n} :
    line ∈ (pairs n).map firstLine ++ (if (s.recvEntries.map receivedLine).isEmpty then [.noRecv]
        else s.recvEntries.map receivedLine) ↔
      (∃ pair ∈ pairs n, firstLine pair = line) ∨
        (∃ received ∈ s.recvEntries, receivedLine received = line) ∨
        (s.recvEntries = [] ∧ line = .noRecv) := by
  rw [List.mem_append, List.mem_map]
  cases hentries : s.recvEntries with
  | nil => simp
  | cons received rest => simp [eq_comm (a := line)]

theorem demonstrates_of_started {s : Sim n} {rounds : ℤ}
    (hfirst : ∀ p, (s.history p).head? = some (firstEntry p)) (hmerged : s.RecvMerged)
    (hreceived : 2 ≤ rounds → s.Received) :
    ∃ lines, summary s = .ok lines ∧ Report.Demonstrates ⟨s, lines⟩ rounds := by
  refine ⟨_, summary_eq hfirst hmerged, ?_, ?_, ?_, ?_, ?_, ?_⟩
  · intro pid
    rw [← tick_newClock]
    exact hfirst pid
  · intro i j hij
    exact mem_lines.mpr (Or.inl ⟨(i, j), mem_pairs.mpr hij, rfl⟩)
  · intro i j clock clock' result hline
    rcases mem_lines.mp hline with ⟨pair, -, hpair⟩ | ⟨received, -, hrecv⟩ | ⟨-, hno⟩
    · cases hpair
      rfl
    · cases hrecv
    · cases hno
  · intro hrounds
    refine ⟨hreceived hrounds, ?_⟩
    obtain ⟨p, entry, he, hact⟩ := hreceived hrounds
    have hmem : (p, entry) ∈ s.recvEntries := mem_recvEntries.mpr ⟨he, hact⟩
    intro hline
    rcases mem_lines.mp hline with ⟨pair, -, hpair⟩ | ⟨received, -, hrecv⟩ | ⟨hnil, -⟩
    · cases hpair
    · cases hrecv
    · rw [hnil] at hmem
      cases hmem
  · intro pid entry he hact
    obtain ⟨clock, msgClock, hmsg, -⟩ := hmerged pid entry he hact
    refine ⟨msgClock, hmsg, mem_lines.mpr (Or.inr (Or.inl ⟨(pid, entry), ?_, ?_⟩))⟩
    · exact mem_recvEntries.mpr ⟨he, hact⟩
    · rw [receivedLine]
      simp only [hmsg, Option.getD_some]
  · intro msgClock detail result pid clock hline
    rcases mem_lines.mp hline with ⟨pair, -, hpair⟩ | ⟨received, -, hrecv⟩ | ⟨-, hno⟩
    · cases hpair
    · cases hrecv
      rfl
    · cases hno

theorem simulate_demonstrates (hn : 2 ≤ n) {rounds : ℕ} (hrounds : 1 ≤ rounds) (draws : Draws n) :
    ∃ s lines, simulate draws rounds = .ok s ∧ summary s = .ok lines ∧
      Report.Demonstrates ⟨s, lines⟩ rounds := by
  obtain ⟨s, hrun, hopening⟩ := simulate_opening hn draws rounds
  obtain ⟨s', hrun', hmerged⟩ := simulate_recvMerged hn draws rounds
  obtain rfl := Except.ok.inj (hrun.symm.trans hrun')
  have hfirst : ∀ p, (s.history p).head? = some (firstEntry p) := by
    intro p
    apply hopening.started p
    rw [hopening.count p]
    omega
  have hreceived : 2 ≤ (rounds : ℤ) → s.Received := fun h => hopening.received (by omega)
  obtain ⟨lines, hsummary, hdemo⟩ := demonstrates_of_started hfirst hmerged hreceived
  exact ⟨s, lines, hrun, hsummary, hdemo⟩

/-- **The demonstration always demonstrates.** With two processes and one round at least, the run
does not fail, all first events are LOCAL and concurrent, every RECV is after its message, and
from two rounds on there is one. -/
theorem main_demonstrates {n rounds : ℤ} (hn : 2 ≤ n) (hrounds : 1 ≤ rounds)
    (draws : Draws n.toNat) :
    ∃ report, main n rounds draws = .ok report ∧ report.Demonstrates rounds := by
  obtain ⟨s, lines, hrun, hsummary, hdemo⟩ := simulate_demonstrates
    (by omega : 2 ≤ n.toNat) (by omega : 1 ≤ rounds.toNat) draws
  rw [Int.toNat_of_nonneg (by omega)] at hdemo
  refine ⟨⟨s, lines⟩, ?_, hdemo⟩
  rw [main, hrun]
  show (summary s >>= fun lines => pure (Report.mk s lines)) = _
  rw [hsummary]
  rfl

theorem main_demonstrates_three :
    ∃ report, main 3 2 (fun _ _ => ⟨0, 1⟩) = .ok report ∧ report.Demonstrates 2 :=
  main_demonstrates (by decide) (by decide) _

end VectorClock
