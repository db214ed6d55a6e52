import Mathlib.Tactic.Linarith
import DistWorkshops.Accounts.Scripts
import DistWorkshops.Lib.Transactions

/-!
# All the sessions on the accounts, with deadlocks

The scripts of activity 4.1, which write a balance computed by the application, and of activity 6.1,
which lock the rows in opposite orders, next to those of activities 4.2 and 6.2. InnoDB rolls a
session back that waits in a circle; here any session of the circle may be the victim. Its client
stops at ERROR 1213: the statements after it are not sent. Timeouts of a wait are left out, and the
balances are integers, so they are taken to stay in the range of `INT`.

Whatever the sessions and the order of their steps, the balances are those of the committed
sessions one after the other (`sessions_serializable`). So the transfers keep the sum of the
balances, deadlocks or not (`transfers_conserve`), and the sessions of activity 4.1 lose updates
in every order (`updates_lost`).
-/

set_option autoImplicit false

namespace Accounts

open Transactions

inductive Statement where
  | stmt (stmt : Stmt)
  /-- `UPDATE accounts SET balance = value WHERE id = …`. -/
  | assign (value : ℤ) (id : Id)
  | rollback

def Statement.ops : Statement → List (Op Id ℤ)
  | .stmt (.selectForUpdate ids) => (ids.insertionSort (· ≤ ·)).map .lock
  | .stmt (.update delta id) => [.lock id, .update id (· + delta)]
  | .stmt _ => []
  | .assign value id => [.lock id, .update id fun _ => value]
  | .rollback => []

def Statement.isCommit : Statement → Bool
  | .stmt .commit => true
  | _ => false

/-- The scripts of activities 4.1 and 6.1, and those with a consistent order of the locks. -/
inductive Session where
  | sessionA41
  | sessionB41
  | sessionA61
  | sessionB61
  | ordered (script : Script)
  deriving DecidableEq

def Session.statements : Session → List Statement
  | .sessionA41 =>
      [.stmt .startTransaction, .stmt .select, .assign 1100 1, .stmt .commit, .stmt .select]
  | .sessionB41 =>
      [.stmt .startTransaction, .stmt .select, .assign 950 1, .stmt .commit, .stmt .select]
  | .sessionA61 => [.stmt .startTransaction, .stmt (.update 10 1), .stmt (.update (-10) 2),
      .stmt .commit, .stmt .select]
  -- the script expects to be the victim, and closes its transaction
  | .sessionB61 => [.stmt .startTransaction, .stmt (.update (-10) 2), .stmt (.update 10 1),
      .rollback]
  | .ordered script => script.statements.map .stmt

def Session.program (session : Session) : Program Id ℤ where
  ops := session.statements.flatMap Statement.ops
  commits := session.statements.any Statement.isCommit

/-- A script of activity 6.1 or 6.2. -/
def Session.isTransfer : Session → Bool
  | .sessionA41 => false
  | .sessionB41 => false
  | .sessionA61 => true
  | .sessionB61 => true
  | .ordered script => script.is62

/-- The balance that a script of activity 4.1 writes. -/
def Session.written? : Session → Option ℤ
  | .sessionA41 => some 1100
  | .sessionB41 => some 950
  | _ => none

/-! ## What a script does -/

theorem guarded (session : Session) : Guarded ∅ session.program.ops := by
  cases session with
  | ordered script =>
      cases script <;> simp [Session.program, Session.statements, Script.statements,
        Statement.ops, Guarded]
  | _ => simp [Session.program, Session.statements, Statement.ops, Guarded]

theorem effect_transfer {session : Session} (h : session.isTransfer = true) (v : ℤ) :
    effect session.program.ops 1 v = v + 10 ∧ effect session.program.ops 2 v = v - 10 := by
  cases session with
  | ordered script =>
      cases script with
      | sessionA62 => exact ⟨rfl, rfl⟩
      | sessionB62 => exact ⟨rfl, rfl⟩
      | sessionA42 => cases h
      | sessionB42 => cases h
  | sessionA61 => exact ⟨rfl, rfl⟩
  | sessionB61 => exact ⟨rfl, rfl⟩
  | sessionA41 => cases h
  | sessionB41 => cases h

theorem effect_written {session : Session} {value : ℤ} (h : session.written? = some value) (v : ℤ) :
    effect session.program.ops 1 v = value := by
  cases session with
  | sessionA41 => exact Option.some.inj h
  | sessionB41 => exact Option.some.inj h
  | _ => cases h

/-! ## Any number of sessions -/

variable {n : ℕ} (sessions : Fin n → Session) (balance : Id → ℤ)

/-- The states that the sessions reach in `k` steps. -/
abbrev Reaches (k : ℕ) (s : State (Fin n) Id ℤ) : Prop :=
  Reach (fun i => (sessions i).program) balance k s

/-- **The sessions are serializable.** In every state that is reached, in any order of the steps
and with any victims, the balances are those of a serial run of the sessions that have committed,
in the order of their commits; a session that was rolled back has left nothing. While a session is
active some step is possible, and a run has at most as many steps as the scripts have. -/
theorem sessions_serializable {k : ℕ} {s : State (Fin n) Id ℤ} (h : Reaches sessions balance k s) :
    (∀ r, s.rows r = replay (fun i => (sessions i).program) s.log balance r) ∧
      s.log.Nodup ∧ (∀ i, i ∈ s.log ↔ s.status i = .committed) ∧
      ((∃ i, s.status i = .active) → ∃ s', Reaches sessions balance (k + 1) s') ∧
      k ≤ ∑ i, ((sessions i).program.ops.length + 1) := by
  have hs := reach_sound (fun i => guarded (sessions i)) h
  refine ⟨hs.serial, hs.nodup, hs.logged, ?_, ?_⟩
  · rintro ⟨i, hi⟩
    obtain ⟨s', hstep⟩ := exists_step hs hi
    exact ⟨s', h.next hstep⟩
  · exact (Nat.le_add_right _ _).trans (reach_size h)

/-- The two sessions of activity 6.1. -/
def sessions61 : Fin 2 → Session := ![.sessionA61, .sessionB61]

/-- Each of them holds the row that the other one asks for. -/
def deadlocked : State (Fin 2) Id ℤ :=
  (runAll (fun i => (sessions61 i).program)
    (start (fun i => (sessions61 i).program) fun _ => 1000) [0, 0, 1, 1]).get rfl

theorem deadlocked_reached : Reaches sessions61 (fun _ => 1000) 4 deadlocked := by
  have hrun : runAll (fun i => (sessions61 i).program)
      (start (fun i => (sessions61 i).program) fun _ => 1000) [0, 0, 1, 1] = some deadlocked :=
    (Option.some_get _).symm
  exact reach_runAll .start hrun

theorem deadlocked_circle : Relation.TransGen deadlocked.WaitsFor 1 1 := by
  have hB : deadlocked.WaitsFor 1 0 := ⟨rfl, 1, _, rfl, rfl, by decide⟩
  have hA : deadlocked.WaitsFor 0 1 := ⟨rfl, 2, _, rfl, rfl, by decide⟩
  exact .tail (.single hB) hA

/-- B is the victim, and A goes on to its commit. -/
theorem deadlock_resolved : ∃ s, Reaches sessions61 (fun _ => 1000) 8 s ∧ s.log = [0] := by
  have hlog : (runAll (fun i => (sessions61 i).program) (deadlocked.rollback 1) [0, 0, 0]).map
      State.log = some [0] := rfl
  obtain ⟨s, hrun, hs⟩ := Option.map_eq_some_iff.mp hlog
  exact ⟨s, reach_runAll (deadlocked_reached.next (.victim 1 deadlocked_circle)) hrun, hs⟩

/-- The balances after the deadlock are those of A alone. -/
theorem sessions_serializable_deadlock : ∃ s, Reaches sessions61 (fun _ => 1000) 8 s ∧
    ∀ r, s.rows r = replay (fun i => (sessions61 i).program) [0] (fun _ => 1000) r := by
  obtain ⟨s, hreach, hlog⟩ := deadlock_resolved
  have hrows := (sessions_serializable sessions61 (fun _ => 1000) hreach).1
  rw [hlog] at hrows
  exact ⟨s, hreach, hrows⟩

theorem replay_transfers (h : ∀ i, (sessions i).isTransfer = true) (log : List (Fin n)) :
    replay (fun i => (sessions i).program) log balance 1 = balance 1 + 10 * log.length ∧
      replay (fun i => (sessions i).program) log balance 2 = balance 2 - 10 * log.length := by
  induction log using List.reverseRecOn with
  | nil => simp
  | append_singleton log i ih =>
      obtain ⟨hone, htwo⟩ := ih
      rw [replay_concat, replay_concat, (effect_transfer (h i) _).1, (effect_transfer (h i) _).2,
        hone, htwo, List.length_append, List.length_singleton]
      push_cast
      constructor <;> ring

/-- **Transfers keep the sum**, with any deadlocks: each session that has committed has moved 10
from one balance to the other, and no other session has. -/
theorem transfers_conserve (htransfer : ∀ i, (sessions i).isTransfer = true) {k : ℕ}
    {s : State (Fin n) Id ℤ} (h : Reaches sessions balance k s) :
    s.rows 1 = balance 1 + 10 * s.log.length ∧ s.rows 2 = balance 2 - 10 * s.log.length ∧
      s.rows 1 + s.rows 2 = balance 1 + balance 2 := by
  have hs := reach_sound (fun i => guarded (sessions i)) h
  obtain ⟨hone, htwo⟩ := replay_transfers sessions balance htransfer s.log
  refine ⟨(hs.serial 1).trans hone, (hs.serial 2).trans htwo, ?_⟩
  rw [hs.serial 1, hs.serial 2, hone, htwo]
  ring

theorem transfers_conserve_deadlock : ∃ s, Reaches sessions61 (fun _ => 1000) 8 s ∧
    s.rows 1 + s.rows 2 = 1000 + 1000 := by
  obtain ⟨s, hreach, -⟩ := deadlock_resolved
  exact ⟨s, hreach, (transfers_conserve sessions61 (fun _ => 1000) (by decide) hreach).2.2⟩

/-- **Lost updates**: once a script of activity 4.1 is the last to have committed, the balance is
what it wrote, whatever the other sessions have added before. -/
theorem updates_lost {k : ℕ} {s : State (Fin n) Id ℤ} (h : Reaches sessions balance k s)
    {log : List (Fin n)} {i : Fin n} (hlast : s.log = log ++ [i]) {value : ℤ}
    (hi : (sessions i).written? = some value) : s.rows 1 = value := by
  have hs := reach_sound (fun i => guarded (sessions i)) h
  rw [hs.serial 1, hlast, replay_concat]
  exact effect_written hi _

/-- The two sessions of activity 4.1. -/
def sessions41 : Fin 2 → Session := ![.sessionA41, .sessionB41]

/-- B writes after A has committed. -/
theorem updates_lost_two : ∃ s, Reaches sessions41 (fun _ => 1000) 6 s ∧ s.rows 1 = 950 := by
  have hlog : (runAll (fun i => (sessions41 i).program)
      (start (fun i => (sessions41 i).program) fun _ => 1000) [0, 0, 0, 1, 1, 1]).map
      State.log = some [0, 1] := rfl
  obtain ⟨s, hrun, hs⟩ := Option.map_eq_some_iff.mp hlog
  have hreach := reach_runAll .start hrun
  exact ⟨s, hreach, updates_lost sessions41 (fun _ => 1000) hreach (show s.log = [0] ++ [1] from hs)
    rfl⟩

end Accounts
