import Mathlib.Logic.Function.Basic
import Mathlib.Tactic.Common
import DistWorkshops.Lib.Replication

/-!
# Reading from the replica after a write

The script `raw_check.ps1` writes on the primary, reads on the replica at once, waits until the
replica has the GTID set of the primary, and reads again. With `-ForceLag` it stops the applier
of the replica first, and starts it again at the end.

The two MySQL servers are a parameter, `Servers`, of which only what the MySQL documentation says
is used (`Asynchronous`). The binary log is in row format, so a transaction is the rows it has
written, and a GTID set is the number of transactions in it. Between two statements of the script
anything may happen that `meanwhile` allows: other sessions commit on the primary, and the replica
applies. Nobody else starts or stops the applier, nobody writes on the replica, all commands of the
script succeed, and balances stay in the range of `INT`.
-/

set_option autoImplicit false

namespace Replica

open Replication

/-! ## The table `accounts` -/

/-- A row of `accounts`, less its key and its owner. -/
structure Row where
  balance : ℤ
  updatedAt : ℤ
  deriving DecidableEq

/-- The rows by their ids. -/
abbrev Table := ℤ → Option Row

/-- The rows that a transaction has written. -/
abbrev Txn := List (ℤ × Option Row)

def applyTxn (table : Table) (t : Txn) : Table :=
  t.foldl (fun table (id, row) => Function.update table id row) table

/-- The row after `SET balance=balance+1`. -/
def Row.increment (now : ℤ) (row : Row) : Row := ⟨row.balance + 1, now⟩

/-! ## The script -/

variable {S : Type} (r : Servers S Txn Table)

/-- `SELECT id, balance, updated_at FROM accounts WHERE id=1` on the primary. -/
def readPrimary (s : S) : Option Row := r.primary s 1

def readReplica (s : S) : Option Row := r.replica s 1

/-- `UPDATE accounts SET balance=balance+1 WHERE id=1`; without such a row nothing is written. -/
def update (now : ℤ) (s : S) : S :=
  match readPrimary r s with
  | none => s
  | some row => r.commit s [(1, some (row.increment now))]

/-- `SELECT @@GLOBAL.gtid_executed`. -/
def gtidExecuted (s : S) : ℕ := (r.log s).length

/-- A run of the script from the state `s`, with what others do before each of its statements. -/
structure Script (S : Type) where
  forceLag : Bool
  now : ℤ
  gap : ℕ → S → S
  s : S

namespace Script

variable (c : Script S)

/-- The state in which the `UPDATE` runs. -/
def beforeWrite : S :=
  c.gap 1 (if c.forceLag then r.stopApplier (c.gap 0 c.s) else c.gap 0 c.s)

def written : S := update r c.now (c.beforeWrite r)

def atPrimaryRead : S := c.gap 2 (c.written r)

def atImmediateRead : S := c.gap 3 (c.atPrimaryRead r)

def atGtid : S := c.gap 4 (c.atImmediateRead r)

/-- `WAIT_FOR_EXECUTED_GTID_SET('$gtid', 5)`. -/
def firstWait : ℕ × S := r.wait (c.gap 5 (c.atGtid r)) (gtidExecuted r (c.atGtid r))

def atRead : S := c.gap 6 (c.firstWait r).2

/-- The wait after the restart of the applier. -/
def secondWait : ℕ × S :=
  r.wait (c.gap 8 (r.startApplier (c.gap 7 (c.atRead r)))) (gtidExecuted r (c.atGtid r))

def atLastRead : S := c.gap 9 (c.secondWait r).2

/-- The state at the end of the script. -/
def last : S := if c.forceLag then c.atLastRead r else c.atRead r

end Script

/-- What the script prints. -/
structure Report where
  primary : Option Row
  immediate : Option Row
  waitResult : ℕ
  read : Option Row
  /-- The second wait and the read after it, with `-ForceLag`. -/
  restarted : Option (ℕ × Option Row)

def rawCheck (c : Script S) : Report where
  primary := readPrimary r (c.atPrimaryRead r)
  immediate := readReplica r (c.atImmediateRead r)
  waitResult := (c.firstWait r).1
  read := readReplica r (c.atRead r)
  restarted :=
    if c.forceLag then some ((c.secondWait r).1, readReplica r (c.atLastRead r)) else none

/-! ## The states of a run -/

section Run

variable {r} {init : Table} {s s' : S}

/-- The row of the account after the first `k` transactions. -/
def rowAt (init : Table) (log : List Txn) (k : ℕ) : Option Row := stateAt applyTxn init log k 1

section Readings

variable (hr : Asynchronous r applyTxn init)

include hr

theorem readPrimary_eq (h : Later r s s') :
    readPrimary r s = rowAt init (r.log s') (r.log s).length := congrFun (h.primary_eq hr) 1

theorem readReplica_eq (h : Later r s s') :
    readReplica r s = rowAt init (r.log s') (r.applied s) := congrFun (h.replica_eq hr) 1

theorem later_update (now : ℤ) (s : S) : Later r s (update r now s) := by
  unfold update
  split
  · exact Later.refl s
  · exact later_commit hr s _

theorem frozen_update {k : ℕ} (h : Frozen r k s) (now : ℤ) : Frozen r k (update r now s) := by
  unfold update
  split
  · exact h
  · exact h.commit hr _

/-- The update increments the row that the primary has, if there is one. -/
theorem readPrimary_update (now : ℤ) (s : S) :
    readPrimary r (update r now s) = (readPrimary r s).map (Row.increment now) := by
  unfold update
  cases hrow : readPrimary r s with
  | none => exact hrow
  | some row =>
      show r.primary (r.commit s [(1, some (row.increment now))]) 1 = _
      rw [primary_commit hr]
      show Function.update (r.primary s) 1 (some (row.increment now)) 1 = _
      rw [Function.update_self]
      rfl

/-- With the row of the account the update is a transaction. -/
theorem length_update (now : ℤ) (h : readPrimary r s ≠ none) :
    (r.log s).length < (r.log (update r now s)).length := by
  obtain ⟨row, hrow⟩ := Option.ne_none_iff_exists'.mp h
  rw [update, hrow, hr.commit_log, List.length_append, List.length_singleton]
  exact Nat.lt_succ_self _

end Readings

/-! ## The order of the states -/

namespace Script

variable {c : Script S}

section Order

variable (hr : Asynchronous r applyTxn init) (hgap : ∀ k s, r.meanwhile s (c.gap k s))

include hr hgap

theorem later_primaryRead : Later r (c.written r) (c.atPrimaryRead r) :=
  later_meanwhile hr (hgap 2 _)

theorem later_immediateRead : Later r (c.atPrimaryRead r) (c.atImmediateRead r) :=
  later_meanwhile hr (hgap 3 _)

theorem later_gtid : Later r (c.atImmediateRead r) (c.atGtid r) := later_meanwhile hr (hgap 4 _)

theorem later_firstWait : Later r (c.atGtid r) (c.firstWait r).2 :=
  (later_meanwhile hr (hgap 5 _)).trans (later_wait hr _ _)

theorem later_read : Later r (c.firstWait r).2 (c.atRead r) := later_meanwhile hr (hgap 6 _)

theorem later_secondWait : Later r (c.atRead r) (c.secondWait r).2 :=
  (later_meanwhile hr (hgap 7 _)).trans
    ((later_start hr _).trans ((later_meanwhile hr (hgap 8 _)).trans (later_wait hr _ _)))

theorem later_lastRead : Later r (c.secondWait r).2 (c.atLastRead r) :=
  later_meanwhile hr (hgap 9 _)

theorem later_last : Later r (c.atRead r) (c.last r) := by
  unfold last
  split
  · exact (later_secondWait hr hgap).trans (later_lastRead hr hgap)
  · exact Later.refl _

/-- What the primary had at the end of the write is in the GTID set. -/
theorem written_le_gtid : (r.log (c.written r)).length ≤ gtidExecuted r (c.atGtid r) :=
  ((later_primaryRead hr hgap).trans
    ((later_immediateRead hr hgap).trans (later_gtid hr hgap))).length_le

/-- With the applier stopped the replica is behind the write until the restart. -/
theorem frozen_read (hlag : c.forceLag = true) : ∃ k,
    k ≤ (r.log (c.beforeWrite r)).length ∧ Frozen r k (c.atRead r) := by
  have hstop := frozen_stop hr (c.gap 0 c.s)
  have hbefore : Frozen r (r.applied (c.gap 0 c.s)) (c.beforeWrite r) := by
    rw [beforeWrite, if_pos hlag]
    exact hstop.meanwhile hr (hgap 1 _)
  refine ⟨_, hbefore.applied ▸ hr.applied_le _, ?_⟩
  have hgtid : Frozen r (r.applied (c.gap 0 c.s)) (c.atGtid r) :=
    (((frozen_update hr hbefore c.now).meanwhile hr (hgap 2 _)).meanwhile hr
      (hgap 3 _)).meanwhile hr (hgap 4 _)
  exact ((hgtid.meanwhile hr (hgap 5 _)).wait hr _).meanwhile hr (hgap 6 _)

end Order

end Script

/-! ## A run of the script -/

/-- What holds of a report: `log` are the transactions at the end, `before` and `written` the
numbers of those before and after the `UPDATE`, and the readings on the replica are those after `i`
and `j` transactions. -/
structure Report.Consistent (report : Report) (init : Table) (log : List Txn) (forceLag : Bool)
    (now : ℤ) (before written i j : ℕ) : Prop where
  write : rowAt init log written = (rowAt init log before).map (Row.increment now)
  before_le : before ≤ written
  primary : ∃ m, written ≤ m ∧ m ≤ log.length ∧ report.primary = rowAt init log m
  immediate : report.immediate = rowAt init log i
  read : report.read = rowAt init log j
  /-- The replica does not go back, and shows nothing that the primary has not had. -/
  forward : i ≤ j ∧ j ≤ log.length
  waited : report.waitResult ≤ 1 ∧ (report.waitResult = 0 → written ≤ j)
  /-- A stopped applier shows the row as it was, and the wait is in vain if there is the account. -/
  stale : forceLag = true →
    j ≤ before ∧ (rowAt init log before ≠ none → report.waitResult = 1)
  restarted : report.restarted.isSome = forceLag ∧
    ∀ result row, report.restarted = some (result, row) →
      ∃ k, j ≤ k ∧ k ≤ log.length ∧ row = rowAt init log k ∧ result ≤ 1 ∧
        (result = 0 → written ≤ k)

/-- **Reading after a write.** Whatever happens between the statements of the script, the replica
shows rows that the primary has had, in their order; after a wait that returns 0 it shows one not
older than the write. With `-ForceLag` both readings before the restart are older than the write,
and if there is the account, the first wait returns 1. -/
theorem read_after_write (hr : Asynchronous r applyTxn init) (c : Script S)
    (hgap : ∀ k s, r.meanwhile s (c.gap k s)) :
    (rawCheck r c).Consistent init (r.log (c.last r)) c.forceLag c.now
      (r.log (c.beforeWrite r)).length (r.log (c.written r)).length
      (r.applied (c.atImmediateRead r)) (r.applied (c.atRead r)) := by
  -- every state of the script comes before the last one, whose log has all that was shown
  have hread := Script.later_last hr hgap
  have hgtid := (Script.later_firstWait hr hgap).trans
    ((Script.later_read hr hgap).trans hread)
  have himmediate := (Script.later_gtid hr hgap).trans hgtid
  have hprimary := (Script.later_immediateRead hr hgap).trans himmediate
  have hwritten := (Script.later_primaryRead hr hgap).trans hprimary
  have hwrite : Later r (c.beforeWrite r) (c.written r) := later_update hr _ _
  have hbefore := hwrite.trans hwritten
  obtain ⟨-, hle, hzero⟩ := hr.wait (c.gap 5 (c.atGtid r)) (gtidExecuted r (c.atGtid r))
  have hwaited : (c.firstWait r).1 = 0 → (r.log (c.written r)).length ≤ r.applied (c.atRead r) :=
    fun h => (Script.written_le_gtid hr hgap).trans
      ((hzero h).trans (Script.later_read hr hgap).applied)
  refine ⟨?_, hwrite.length_le,
    ⟨_, (Script.later_primaryRead hr hgap).length_le, hprimary.length_le,
      readPrimary_eq hr hprimary⟩,
    readReplica_eq hr himmediate, readReplica_eq hr hread, ⟨?_, hread.applied_le hr⟩,
    ⟨hle, hwaited⟩, fun hlag => ?_, ?_⟩
  · rw [← readPrimary_eq hr hwritten, ← readPrimary_eq hr hbefore]
    exact readPrimary_update hr c.now (c.beforeWrite r)
  · exact ((Script.later_gtid hr hgap).trans ((Script.later_firstWait hr hgap).trans
      (Script.later_read hr hgap))).applied
  · obtain ⟨k, hk, hfrozen⟩ := Script.frozen_read hr hgap hlag
    refine ⟨hfrozen.applied.trans_le hk, fun hrow => ?_⟩
    rw [← readPrimary_eq hr hbefore] at hrow
    have hlt : (r.log (c.beforeWrite r)).length < (r.log (c.written r)).length :=
      length_update hr c.now hrow
    -- a wait that ends in time would have applied the write
    have hne : (c.firstWait r).1 ≠ 0 := fun h => by
      have happlied := hwaited h
      rw [hfrozen.applied] at happlied
      omega
    exact Nat.le_antisymm hle (Nat.one_le_iff_ne_zero.mpr hne)
  · cases hlag : c.forceLag with
    | false => exact ⟨by simp [rawCheck, hlag], fun result row h => by simp [rawCheck, hlag] at h⟩
    | true =>
        refine ⟨by simp [rawCheck, hlag], fun result row h => ?_⟩
        simp only [rawCheck, hlag, if_true] at h
        obtain ⟨rfl, rfl⟩ := Prod.mk.inj (Option.some.inj h)
        have hlast : c.last r = c.atLastRead r := by rw [Script.last, if_pos hlag]
        obtain ⟨-, hone, hsecond⟩ := hr.wait
          (c.gap 8 (r.startApplier (c.gap 7 (c.atRead r)))) (gtidExecuted r (c.atGtid r))
        have hlater := Script.later_lastRead hr hgap
        rw [hlast]
        exact ⟨_, ((Script.later_secondWait hr hgap).trans hlater).applied, hr.applied_le _,
          readReplica_eq hr (Later.refl _), hone, fun h =>
            (Script.written_le_gtid hr hgap).trans ((hsecond h).trans hlater.applied)⟩

end Run

/-! ## One account -/

/-- The account of Alice, in step on both servers. -/
def sampleTable : Table := fun id => if id = 1 then some ⟨1000, 0⟩ else none

def sampleServers : Servers (Pair Txn) Txn Table := Pair.servers applyTxn sampleTable

theorem nothing_applied : 0 ≤ ([] : List Txn).length := Nat.le_refl 0

/-- The script with `-ForceLag`, when nobody else does anything. -/
def sampleScript : Script (Pair Txn) where
  forceLag := true
  now := 7
  gap := fun _ p => p
  s := ⟨[], 0, true, nothing_applied⟩

theorem read_after_write_lag :
    (rawCheck sampleServers sampleScript).Consistent sampleTable
      (sampleServers.log (sampleScript.last sampleServers)) true 7 0 1 0 0 :=
  read_after_write (Pair.servers_asynchronous applyTxn sampleTable) sampleScript
    fun _ _ => ⟨⟨List.prefix_refl _, Nat.le_refl _⟩, fun h => ⟨h, rfl⟩⟩

/-- The readings are stale, and both waits are in vain while nobody applies anything. -/
example : (rawCheck sampleServers sampleScript).immediate = some ⟨1000, 0⟩ ∧
    (rawCheck sampleServers sampleScript).waitResult = 1 := by decide

end Replica
