import DistWorkshops.Lib.Rotation
import DistWorkshops.Python
import Mathlib.Logic.Function.Basic

/-!
# Mutual exclusion through a token ring

The simulation `token_ring.py`: one token goes around a ring of `n` processes, one step each. The
process that has it uses the resource for a few units of time, or does not need it, and passes it
on to `(pid + 1) % n`. So step `k` of a run is the turn of `k % n`, and `passes` counts the turns
of a rotation, whatever is drawn.

Random choices are inputs: `Draw` is what `random.random() < 0.5` and `random.randint(1, 2)`
return at one step.
-/

set_option autoImplicit false

namespace Mutex.TokenRing

variable {n : ℕ}

/-- The lines printed in a step. -/
inductive Line (n : ℕ) where
  | step (step : ℕ) (pid : Fin n)
  | enters (pid : Fin n)
  | inUse (pid : Fin n) (t : ℕ) (holdTime : ℕ)
  | leaves (pid : Fin n)
  | unneeded (pid : Fin n)
  | token (pid : Fin n) (nextPid : ℕ)
  deriving DecidableEq, Repr

structure Stats where
  passes : ℕ
  uses : ℕ
  deriving DecidableEq, Repr

structure State (n : ℕ) where
  tokenHolder : ℕ
  stats : Fin n → Stats
  log : List (Line n)

def init (n : ℕ) : State n where
  tokenHolder := 0
  stats := fun _ => ⟨0, 0⟩
  log := []

/-- What `random.randint(1, 2)` may return. -/
abbrev HoldTime := { t : ℕ // 1 ≤ t ∧ t ≤ 2 }

/-- The random draws of one step; the hold time is drawn only by a process that wants the
resource. -/
structure Draw where
  wantsResource : Bool
  holdTime : HoldTime

def State.print (ring : State n) (lines : List (Line n)) : State n :=
  { ring with log := ring.log ++ lines }

/-- `stats[pid]["passes"] += 1`. -/
def State.pass (ring : State n) (pid : Fin n) : State n :=
  let stats := ring.stats pid
  { ring with stats := Function.update ring.stats pid { stats with passes := stats.passes + 1 } }

/-- `stats[pid]["uses"] += 1`. -/
def State.use (ring : State n) (pid : Fin n) : State n :=
  let stats := ring.stats pid
  { ring with stats := Function.update ring.stats pid { stats with uses := stats.uses + 1 } }

/-- The critical section, or the line that says that it is not needed. -/
def resource (draw : Draw) (pid : Fin n) (ring : State n) : State n :=
  if draw.wantsResource then
    let holdTime := draw.holdTime.val
    (ring.use pid).print (.enters pid ::
      ((List.range holdTime).map fun t => .inUse pid (t + 1) holdTime) ++ [.leaves pid])
  else ring.print [.unneeded pid]

/-- The body of the loop of `main`; `stats` has the keys below `n` only. -/
def step (draw : Draw) (step : ℕ) (ring : State n) : Except PyError (State n) :=
  if h : ring.tokenHolder < n then
    let pid : Fin n := ⟨ring.tokenHolder, h⟩
    let ring := resource draw pid ((ring.pass pid).print [.step step pid])
    let nextPid := (pid + 1) % n
    .ok { ring.print [.token pid nextPid] with tokenHolder := nextPid }
  else .error .keyError

/-- The loop of `main`: the state after `s` steps. -/
def after (n : ℕ) (draws : ℕ → Draw) : ℕ → Except PyError (State n)
  | 0 => .ok (init n)
  | s + 1 => after n draws s >>= step (draws s) (s + 1)

/-- Step `k`, counted from 0, is one in which `i` has the token. -/
def Receives (draws : ℕ → Draw) (k : ℕ) (i : Fin n) : Prop :=
  ∃ ring ring', after n draws k = .ok ring ∧ after n draws (k + 1) = .ok ring' ∧
    (ring'.stats i).passes = (ring.stats i).passes + 1

/-! ## One step -/

theorem resource_stats (draw : Draw) (pid : Fin n) (ring : State n) :
    ∃ k ≤ 1, (resource draw pid ring).stats =
      Function.update ring.stats pid
        ⟨(ring.stats pid).passes, (ring.stats pid).uses + k⟩ := by
  unfold resource
  by_cases hwants : draw.wantsResource = true
  · rw [if_pos hwants]
    exact ⟨1, Nat.le_refl 1, rfl⟩
  · rw [if_neg hwants]
    exact ⟨0, Nat.zero_le 1, (Function.update_eq_self pid ring.stats).symm⟩

/-- **What a step does**: the process with the token gets one pass and one use at most, and the
token moves on. -/
theorem step_spec (draw : Draw) (k : ℕ) {ring : State n} (h : ring.tokenHolder < n) :
    ∃ ring' used, step draw k ring = .ok ring' ∧ used ≤ 1 ∧
      ring'.tokenHolder = (ring.tokenHolder + 1) % n ∧
      ring'.stats = Function.update ring.stats ⟨ring.tokenHolder, h⟩
        ⟨(ring.stats ⟨ring.tokenHolder, h⟩).passes + 1,
          (ring.stats ⟨ring.tokenHolder, h⟩).uses + used⟩ := by
  obtain ⟨used, hused, hstats⟩ := resource_stats draw ⟨ring.tokenHolder, h⟩
    ((ring.pass ⟨ring.tokenHolder, h⟩).print [.step k ⟨ring.tokenHolder, h⟩])
  refine ⟨_, used, dif_pos h, hused, rfl, ?_⟩
  show (resource draw _ _).stats = _
  rw [hstats]
  simp only [State.print, State.pass, Function.update_idem, Function.update_self]

/-! ## Runs -/

/-- Where the token is after `s` steps, and who had it how often. -/
structure State.Rotated (ring : State n) (s : ℕ) : Prop where
  token : ring.tokenHolder = s % n
  passes : ∀ i : Fin n, (ring.stats i).passes = Rotation.turns n i s
  uses : ∀ i, (ring.stats i).uses ≤ (ring.stats i).passes

theorem init_rotated : (init n).Rotated 0 :=
  ⟨(Nat.zero_mod n).symm, fun _ => rfl, fun _ => Nat.le_refl 0⟩

/-- **One step is one turn of the rotation.** -/
theorem step_rotated (hn : 0 < n) (draw : Draw) (k : ℕ) {ring : State n} {s : ℕ}
    (hring : ring.Rotated s) : ∃ ring', step draw k ring = .ok ring' ∧ ring'.Rotated (s + 1) := by
  have hlt : ring.tokenHolder < n := by
    rw [hring.token]
    exact Nat.mod_lt s hn
  obtain ⟨ring', used, hstep, hused, htoken, hstats⟩ := step_spec draw k hlt
  refine ⟨ring', hstep, ?_, ?_, ?_⟩
  · rw [htoken, hring.token, Nat.mod_add_mod]
  · intro i
    rw [hstats, Rotation.turns_succ, ← hring.token, ← hring.passes i]
    by_cases hi : i = ⟨ring.tokenHolder, hlt⟩
    · subst hi
      rw [Function.update_self, if_pos rfl]
    · have hne : ring.tokenHolder ≠ i := fun he => hi (Fin.ext he.symm)
      rw [Function.update_of_ne hi, if_neg hne, Nat.add_zero]
  · intro i
    rw [hstats]
    by_cases hi : i = ⟨ring.tokenHolder, hlt⟩
    · subst hi
      rw [Function.update_self]
      exact Nat.add_le_add (hring.uses _) hused
    · rw [Function.update_of_ne hi]
      exact hring.uses i

/-- **A run never fails, and it is a rotation.** -/
theorem after_rotated (hn : 0 < n) (draws : ℕ → Draw) (s : ℕ) :
    ∃ ring, after n draws s = .ok ring ∧ ring.Rotated s := by
  induction s with
  | zero => exact ⟨init n, rfl, init_rotated⟩
  | succ s ih =>
      obtain ⟨ring, hrun, hring⟩ := ih
      obtain ⟨ring', hstep, hring'⟩ := step_rotated hn (draws s) (s + 1) hring
      refine ⟨ring', ?_, hring'⟩
      rw [after, hrun]
      exact hstep

theorem receives_iff_turn (hn : 0 < n) (draws : ℕ → Draw) (k : ℕ) (i : Fin n) :
    Receives draws k i ↔ k % n = i := by
  obtain ⟨ring, hrun, hring⟩ := after_rotated hn draws k
  obtain ⟨ring', hrun', hring'⟩ := after_rotated hn draws (k + 1)
  have hcount := Rotation.turns_succ n i k
  rw [← hring.passes i, ← hring'.passes i] at hcount
  constructor
  · rintro ⟨t, t', ht, ht', hpasses⟩
    obtain rfl := Except.ok.inj (hrun.symm.trans ht)
    obtain rfl := Except.ok.inj (hrun'.symm.trans ht')
    by_contra hne
    rw [if_neg hne] at hcount
    omega
  · intro hturn
    rw [if_pos hturn] at hcount
    exact ⟨ring, ring', hrun, hrun', hcount⟩

/-! ## Fairness -/

/-- The account of a run of `s` steps. -/
structure State.Fair (ring : State n) (s : ℕ) : Prop where
  token : ring.tokenHolder = s % n
  passes : ∀ i : Fin n, (ring.stats i).passes = Nat.count (fun k => k % n = i) s
  closed : ∀ i : Fin n, (ring.stats i).passes = (s + n - 1 - i) / n
  total : ∑ i, (ring.stats i).passes = s
  balanced : ∀ i j, (ring.stats i).passes ≤ (ring.stats j).passes + 1
  uses : ∀ i, (ring.stats i).uses ≤ (ring.stats i).passes

theorem State.Rotated.fair (hn : 0 < n) {ring : State n} {s : ℕ} (hring : ring.Rotated s) :
    ring.Fair s where
  token := hring.token
  passes := hring.passes
  closed i := (hring.passes i).trans (Rotation.turns_eq i.isLt s)
  total := by
    simp only [hring.passes]
    exact Rotation.sum_turns hn s
  balanced i j := by
    rw [hring.passes i, hring.passes j]
    exact Rotation.turns_le_succ i.isLt j.isLt s
  uses := hring.uses

/-- Two steps in which `i` has the token, and none in between. -/
def ConsecutiveReceptions (draws : ℕ → Draw) (i : Fin n) (k k' : ℕ) : Prop :=
  k < k' ∧ Receives draws k i ∧ Receives draws k' i ∧
    ∀ m, k < m → m < k' → ¬ Receives draws m i

/-- **Token ring fairness.** A run of any length never fails, its passes are spread evenly over
the ring, and between two consecutive receptions by a process every other process receives the
token exactly once. -/
theorem token_ring_fair (hn : 0 < n) (draws : ℕ → Draw) :
    (∀ s, ∃ ring, after n draws s = .ok ring ∧ ring.Fair s) ∧
      ∀ (i : Fin n) (k k' : ℕ), ConsecutiveReceptions draws i k k' →
        ∀ j, j ≠ i → ∃! m, k < m ∧ m < k' ∧ Receives draws m j := by
  constructor
  · intro s
    obtain ⟨ring, hrun, hring⟩ := after_rotated hn draws s
    exact ⟨ring, hrun, hring.fair hn⟩
  · rintro i k k' ⟨hlt, hk, hk', hbetween⟩ j hne
    simp only [receives_iff_turn hn] at hk hk' hbetween ⊢
    have hnext : k' = k + n := by
      apply Rotation.next_turn hlt (hk'.trans hk.symm)
      intro m hm hm'
      rw [hk]
      exact hbetween m hm hm'
    rw [hnext]
    apply Rotation.one_turn_between k j.isLt
    rw [hk]
    exact fun he => hne (Fin.ext he)

theorem token_ring_fair_three :
    (∀ s, ∃ ring, after 3 (fun _ => ⟨true, 2, by decide⟩) s = .ok ring ∧ ring.Fair s) ∧
      ∀ (i : Fin 3) (k k' : ℕ),
        ConsecutiveReceptions (fun _ => ⟨true, 2, by decide⟩) i k k' →
        ∀ j, j ≠ i → ∃! m, k < m ∧ m < k' ∧
          Receives (fun _ => ⟨true, 2, by decide⟩) m j :=
  token_ring_fair (by decide) _

end Mutex.TokenRing
