import Mathlib
import DistWorkshops.Lib.Locking

/-!
# The sessions on the accounts

The scripts of activities 4.2 and 6.2, run by any number of sessions against the table
`accounts`. Each statement is the operations that InnoDB makes of it: `SELECT … FOR UPDATE` locks
its rows one at a time in ascending id, an `UPDATE` locks its row and adds to the balance, and
`COMMIT` publishes and unlocks. Every script locks in ascending order, also session B of 6.2, which
updates the rows the other way round.
-/

set_option autoImplicit false

namespace Accounts

open Locking

/-- The id of an account. -/
abbrev Id := ℤ

inductive Stmt where
  | startTransaction
  /-- `SELECT … WHERE id IN (…) ORDER BY id FOR UPDATE`, or of one row, which has no order. -/
  | selectForUpdate (ids : List Id)
  /-- `UPDATE accounts SET balance = balance + delta WHERE id = …`. -/
  | update (delta : ℤ) (id : Id)
  | commit
  /-- A `SELECT` without `FOR UPDATE`, which reads a snapshot and locks nothing. -/
  | select

def Stmt.ops : Stmt → List (Op Id ℤ)
  | .startTransaction => []
  | .selectForUpdate ids => (ids.insertionSort (· ≤ ·)).map .lock
  | .update delta id => [.lock id, .add id delta]
  | .commit => [.commit]
  | .select => []

inductive Script where
  | sessionA62
  | sessionB62
  | sessionA42
  | sessionB42
  deriving DecidableEq

def Script.statements : Script → List Stmt
  | .sessionA62 =>
      [.startTransaction, .selectForUpdate [1, 2], .update 10 1, .update (-10) 2, .commit, .select]
  | .sessionB62 =>
      [.startTransaction, .selectForUpdate [1, 2], .update (-10) 2, .update 10 1, .commit, .select]
  | .sessionA42 => [.startTransaction, .selectForUpdate [1], .update 100 1, .commit, .select]
  | .sessionB42 => [.startTransaction, .selectForUpdate [1], .update (-50) 1, .commit, .select]

def Script.program (script : Script) : List (Op Id ℤ) := script.statements.flatMap Stmt.ops

/-- A script of activity 6.2. -/
def Script.is62 : Script → Bool
  | .sessionA62 => true
  | .sessionB62 => true
  | .sessionA42 => false
  | .sessionB42 => false

/-! ## What a script does -/

theorem ascending (script : Script) : Ascending ∅ script.program := by
  cases script <;> simp [Script.program, Script.statements, Stmt.ops, Ascending]

theorem total_one (script : Script) :
    total script.program 1 = (if script.is62 = true then 10 else 0)
      + (if (script == .sessionA42) = true then 100 else 0)
      + if (script == .sessionB42) = true then -50 else 0 := by
  cases script <;> rfl

theorem total_two (script : Script) :
    total script.program 2 = if script.is62 = true then -10 else 0 := by
  cases script <;> rfl

/-! ## Any number of sessions -/

variable {n : ℕ} (scripts : Fin n → Script) (balance : Id → ℤ)

/-- The state after some steps of the sessions, in any order. -/
def after (acts : List (Fin n)) : State (Fin n) Id ℤ :=
  Run.after step (start (fun i => (scripts i).program) balance) acts

/-- The number of sessions that run such a script. -/
def count (p : Script → Bool) : ℕ := (Finset.univ.filter fun i => p (scripts i) = true).card

theorem sum_eq_count (p : Script → Bool) (c : ℤ) :
    (∑ i, if p (scripts i) = true then c else 0) = c * count scripts p := by
  rw [← Finset.sum_filter, Finset.sum_const, nsmul_eq_mul, mul_comm]
  rfl

/-- Whoever has not committed, some session can move. -/
theorem exists_ready (acts : List (Fin n)) {i : Fin n}
    (hi : (after scripts balance acts).todo i ≠ []) :
    ∃ j, (after scripts balance acts).todo j ≠ [] ∧
      ∀ k, ¬ WaitsFor (after scripts balance acts) j k :=
  Locking.exists_ready (after_invariant balance (fun i => ascending (scripts i)) acts) hi

/-- **A consistent lock order prevents deadlocks and lost updates.** For any number of sessions,
any balances and any order of their steps, no session waits for itself over others; and when all
have committed, every update is in the balances. -/
theorem consistent_lock_order (acts : List (Fin n)) :
    (∀ i, ¬ Relation.TransGen (WaitsFor (after scripts balance acts)) i i) ∧
      ((∀ i, (after scripts balance acts).todo i = []) →
        (after scripts balance acts).committed 1
            = balance 1 + 10 * count scripts Script.is62
              + 100 * count scripts (· == .sessionA42)
              - 50 * count scripts (· == .sessionB42) ∧
          (after scripts balance acts).committed 2
            = balance 2 - 10 * count scripts Script.is62) := by
  have hscripts : ∀ i, Ascending ∅ (scripts i).program := fun i => ascending (scripts i)
  constructor
  · intro i
    exact not_waits_for_itself (after_invariant balance hscripts acts) i
  · intro hdone
    have hcommitted := committed_of_done balance hscripts acts hdone
    constructor
    · calc (after scripts balance acts).committed 1
          = balance 1 + ∑ i, total (scripts i).program 1 := hcommitted 1
        _ = balance 1 + (10 * count scripts Script.is62
              + 100 * count scripts (· == .sessionA42)
              + -50 * count scripts (· == .sessionB42)) := by
            simp only [total_one, Finset.sum_add_distrib]
            rw [sum_eq_count, sum_eq_count scripts (· == .sessionA42),
              sum_eq_count scripts (· == .sessionB42)]
        _ = _ := by ring
    · calc (after scripts balance acts).committed 2
          = balance 2 + ∑ i, total (scripts i).program 2 := hcommitted 2
        _ = balance 2 + -10 * count scripts Script.is62 := by
            simp only [total_two]
            rw [sum_eq_count]
        _ = _ := by ring

/-- Two sessions of activity 6.2: B waits while A holds both rows, then both commit. -/
example :
    let scripts : Fin 2 → Script := ![.sessionA62, .sessionB62]
    let s := after scripts (fun _ => 1000)
      [0, 0, 1, 0, 0, 0, 0, 1, 0, 1, 1, 1, 1, 1, 1, 1]
    (s.todo 0).length = 0 ∧ (s.todo 1).length = 0 ∧ s.committed 1 = 1020 ∧ s.committed 2 = 980 := by
  decide

end Accounts
