import Mathlib.Algebra.BigOperators.Group.Finset.Basic
import Mathlib.Algebra.Order.BigOperators.Group.Finset
import Mathlib.Data.Fintype.BigOperators
import Mathlib.Data.Set.Insert
import Mathlib.Logic.Relation
import Mathlib.Order.WellFounded

/-!
# Transactions under strict two-phase locking

Sessions run one transaction each over shared rows. A transaction takes exclusive locks one at a
time, updates rows under their locks, and at its end commits or rolls back, which releases its
locks. The locks may be asked for in any order, so sessions may wait for each other in a circle;
then one of them is chosen as the victim and rolled back.

In every state the committed rows are those of a serial run of the committed transactions, in the
order in which they have committed, and nothing is left of the others (`Sound`, `reach_sound`). The
sessions never get stuck, and every run ends (`exists_step`, `reach_size`).
-/

set_option autoImplicit false

namespace Transactions

variable {ι ρ V : Type}

/-! ## Programs -/

inductive Op (ρ V : Type) where
  | lock (r : ρ)
  | update (r : ρ) (f : V → V)

/-- The operations of a transaction, and whether it commits at its end. -/
structure Program (ρ V : Type) where
  ops : List (Op ρ V)
  commits : Bool

/-- Rows are updated under their locks. -/
def Guarded (held : Set ρ) : List (Op ρ V) → Prop
  | [] => True
  | .lock r :: rest => Guarded (insert r held) rest
  | .update r _ :: rest => r ∈ held ∧ Guarded held rest

section Effects

variable [DecidableEq ρ]

def Op.effect (r : ρ) : Op ρ V → V → V
  | .lock _, v => v
  | .update q f, v => if q = r then f v else v

/-- What the operations make of the value of a row. -/
def effect (ops : List (Op ρ V)) (r : ρ) (v : V) : V := ops.foldl (fun v op => op.effect r v) v

@[simp] theorem effect_nil (r : ρ) (v : V) : effect ([] : List (Op ρ V)) r v = v := rfl

theorem effect_concat (ops : List (Op ρ V)) (op : Op ρ V) (r : ρ) (v : V) :
    effect (ops ++ [op]) r v = op.effect r (effect ops r v) := by
  rw [effect, List.foldl_append]
  rfl

/-- The rows after a serial run of transactions. -/
def replay (programs : ι → Program ρ V) (log : List ι) (rows : ρ → V) (r : ρ) : V :=
  log.foldl (fun v i => effect (programs i).ops r v) (rows r)

@[simp] theorem replay_nil (programs : ι → Program ρ V) (rows : ρ → V) (r : ρ) :
    replay programs [] rows r = rows r := rfl

theorem replay_concat (programs : ι → Program ρ V) (log : List ι) (i : ι) (rows : ρ → V) (r : ρ) :
    replay programs (log ++ [i]) rows r
      = effect (programs i).ops r (replay programs log rows r) := by
  rw [replay, List.foldl_append]
  rfl

end Effects

/-! ## States -/

inductive Status where
  | active
  | committed
  | rolledBack
  deriving DecidableEq, Repr

/-- `own` holds what each session has written and not committed, `rows` the committed rows, and
`log` the sessions that have committed, in their order. -/
structure State (ι ρ V : Type) where
  todo : ι → List (Op ρ V)
  status : ι → Status
  owner : ρ → Option ι
  own : ι → ρ → Option V
  rows : ρ → V
  log : List ι

def start (programs : ι → Program ρ V) (rows : ρ → V) : State ι ρ V where
  todo i := (programs i).ops
  status _ := .active
  owner _ := none
  own _ _ := none
  rows := rows
  log := []

namespace State

/-- The value a session reads: its own, or the committed one. -/
def read (s : State ι ρ V) (i : ι) (r : ρ) : V := (s.own i r).getD (s.rows r)

def held (s : State ι ρ V) (i : ι) : Set ρ := {r | s.owner r = some i}

/-- `i` asks for a lock that `j` holds. -/
def WaitsFor (s : State ι ρ V) (i j : ι) : Prop :=
  s.status i = .active ∧ ∃ r rest, s.todo i = .lock r :: rest ∧ s.owner r = some j ∧ j ≠ i

variable [DecidableEq ι]

def advance (s : State ι ρ V) (i : ι) (rest : List (Op ρ V)) : State ι ρ V :=
  { s with todo := Function.update s.todo i rest }

/-- The end of a session, which releases its locks. -/
def leave (s : State ι ρ V) (i : ι) (status : Status) : State ι ρ V :=
  { s with
    status := Function.update s.status i status
    owner := fun r => if s.owner r = some i then none else s.owner r
    own := Function.update s.own i fun _ => none }

def commit (s : State ι ρ V) (i : ι) : State ι ρ V :=
  { s.leave i .committed with rows := s.read i, log := s.log ++ [i] }

def rollback (s : State ι ρ V) (i : ι) : State ι ρ V := s.leave i .rolledBack

variable [DecidableEq ρ]

def acquire (s : State ι ρ V) (i : ι) (r : ρ) : State ι ρ V :=
  { s with owner := Function.update s.owner r (some i) }

def write (s : State ι ρ V) (i : ι) (r : ρ) (f : V → V) : State ι ρ V :=
  { s with own := Function.update s.own i (Function.update (s.own i) r
      (some (f (s.read i r)))) }

end State

/-! ## Steps -/

section Steps

variable [DecidableEq ι] [DecidableEq ρ]

/-- The next operation of an active session; `none` when it waits. -/
def runOne (programs : ι → Program ρ V) (s : State ι ρ V) (i : ι) : Option (State ι ρ V) :=
  if s.status i = .active then
    match s.todo i with
    | [] => some (if (programs i).commits then s.commit i else s.rollback i)
    | .lock r :: rest => match s.owner r with
        | none => some ((s.acquire i r).advance i rest)
        | some j => if j = i then some (s.advance i rest) else none
    | .update r f :: rest => some ((s.write i r f).advance i rest)
  else none

/-- A session goes on, or it waits in a circle and is the victim. -/
inductive Step (programs : ι → Program ρ V) (s : State ι ρ V) : State ι ρ V → Prop
  | run (i : ι) (s' : State ι ρ V) (h : runOne programs s i = some s') : Step programs s s'
  | victim (i : ι) (hcircle : Relation.TransGen s.WaitsFor i i) : Step programs s (s.rollback i)

/-- The states after some number of steps. -/
inductive Reach (programs : ι → Program ρ V) (rows : ρ → V) : ℕ → State ι ρ V → Prop
  | start : Reach programs rows 0 (start programs rows)
  | next {k : ℕ} {s s' : State ι ρ V} (before : Reach programs rows k s)
      (step : Step programs s s') : Reach programs rows (k + 1) s'

/-- What a session can do. -/
inductive Moves (programs : ι → Program ρ V) (s : State ι ρ V) (i : ι) : State ι ρ V → Prop
  | commit (htodo : s.todo i = []) : Moves programs s i (s.commit i)
  | rollback : Moves programs s i (s.rollback i)
  | acquire (r : ρ) (rest : List (Op ρ V)) (htodo : s.todo i = .lock r :: rest)
      (hfree : s.owner r = none) : Moves programs s i ((s.acquire i r).advance i rest)
  | again (r : ρ) (rest : List (Op ρ V)) (htodo : s.todo i = .lock r :: rest)
      (hheld : s.owner r = some i) : Moves programs s i (s.advance i rest)
  | write (r : ρ) (f : V → V) (rest : List (Op ρ V)) (htodo : s.todo i = .update r f :: rest) :
      Moves programs s i ((s.write i r f).advance i rest)

variable {programs : ι → Program ρ V} {s s' : State ι ρ V}

theorem moves_of_runOne {i : ι} (h : runOne programs s i = some s') :
    s.status i = .active ∧ Moves programs s i s' := by
  unfold runOne at h
  by_cases hactive : s.status i = .active
  · refine ⟨hactive, ?_⟩
    rw [if_pos hactive] at h
    cases htodo : s.todo i with
    | nil =>
        simp only [htodo] at h
        by_cases hcommits : (programs i).commits = true
        · rw [if_pos hcommits] at h
          exact Option.some.inj h ▸ .commit htodo
        · rw [if_neg hcommits] at h
          exact Option.some.inj h ▸ .rollback
    | cons op rest =>
        cases op with
        | lock r =>
            cases howner : s.owner r with
            | none =>
                simp only [htodo, howner] at h
                exact Option.some.inj h ▸ .acquire r rest htodo howner
            | some j =>
                simp only [htodo, howner] at h
                -- a program that has the lock goes on, and any other waits
                by_cases hj : j = i
                · rw [if_pos hj] at h
                  exact Option.some.inj h ▸ .again r rest htodo (hj ▸ howner)
                · rw [if_neg hj] at h
                  cases h
        | update r f =>
            simp only [htodo] at h
            exact Option.some.inj h ▸ .write r f rest htodo
  · rw [if_neg hactive] at h
    cases h

/-- **What a step is**: a move of one active session. -/
theorem Step.moves (h : Step programs s s') :
    ∃ i, s.status i = .active ∧ Moves programs s i s' := by
  cases h with
  | run i s' h => exact ⟨i, moves_of_runOne h⟩
  | victim i hcircle =>
      obtain ⟨j, hwaits, -⟩ := Relation.TransGen.head'_iff.mp hcircle
      exact ⟨i, hwaits.1, .rollback⟩

/-! ## The invariant -/

/-- What is known of a session in mid-transaction: the part `done` of its program is in what it
reads, and in nothing else. -/
structure Midway (program : Program ρ V) (s : State ι ρ V) (i : ι) (done : List (Op ρ V)) :
    Prop where
  split : program.ops = done ++ s.todo i
  guarded : Guarded (s.held i) (s.todo i)
  read : ∀ r, s.read i r = effect done r (s.rows r)
  unwritten : ∀ r, s.own i r = none → ∀ v, effect done r v = v

/-- The invariant: the committed rows are those of the serial run of the committed sessions. -/
structure Sound (programs : ι → Program ρ V) (rows : ρ → V) (s : State ι ρ V) : Prop where
  midway : ∀ i, s.status i = .active → ∃ done, Midway (programs i) s i done
  locked : ∀ i r, s.own i r ≠ none → s.owner r = some i
  holder : ∀ i r, s.owner r = some i → s.status i = .active
  logged : ∀ i, i ∈ s.log ↔ s.status i = .committed
  nodup : s.log.Nodup
  serial : ∀ r, s.rows r = replay programs s.log rows r

omit [DecidableEq ι] in
theorem start_sound (rows : ρ → V) (h : ∀ i, Guarded ∅ (programs i).ops) :
    Sound programs rows (start programs rows) where
  midway i _ := by
    have hheld : (start programs rows).held i = ∅ := by
      ext r
      simp [State.held, start]
    exact ⟨[], rfl, hheld ▸ h i, fun r => rfl, fun r _ v => rfl⟩
  locked i r hown := absurd rfl hown
  holder i r howner := by cases howner
  logged i := by simp [start]
  nodup := List.nodup_nil
  serial r := rfl

omit [DecidableEq ι] in
/-- A session of whom nothing has changed but the rows of others. -/
theorem Midway.frame {program : Program ρ V} {i : ι} {done : List (Op ρ V)}
    (h : Midway program s i done) (htodo : s'.todo i = s.todo i) (hheld : s'.held i = s.held i)
    (hown : s'.own i = s.own i) (hrows : ∀ r, s.own i r ≠ none → s'.rows r = s.rows r) :
    Midway program s' i done := by
  refine ⟨by rw [htodo]; exact h.split, by rw [htodo, hheld]; exact h.guarded, fun r => ?_,
    fun r hr => h.unwritten r (hown ▸ hr)⟩
  have hread := h.read r
  cases hcase : s.own i r with
  | none => rw [State.read, hown, hcase, h.unwritten r hcase]; rfl
  | some v =>
      rw [State.read, hcase] at hread
      rw [State.read, hown, hcase, hrows r (by rw [hcase]; exact Option.some_ne_none v)]
      exact hread

omit [DecidableEq ρ] in
theorem held_leave (s : State ι ρ V) {i j : ι} (status : Status) (hj : j ≠ i) :
    (s.leave i status).held j = s.held j := by
  ext r
  show (if s.owner r = some i then none else s.owner r) = some j ↔ s.owner r = some j
  by_cases hr : s.owner r = some i
  · rw [if_pos hr, hr]
    simp [Ne.symm hj]
  · rw [if_neg hr]

variable {rows : ρ → V}

/-- What the end of a session keeps, apart from the committed rows and the log. -/
theorem leave_sound (hs : Sound programs rows s) (i : ι) (status : Status)
    (hstatus : status ≠ .active) :
    (∀ j, (s.leave i status).status j = .active → j ≠ i ∧ s.status j = .active) ∧
      (∀ j r, (s.leave i status).own j r ≠ none → (s.leave i status).owner r = some j) ∧
      (∀ j r, (s.leave i status).owner r = some j → (s.leave i status).status j = .active) := by
  have hactive : ∀ j, (s.leave i status).status j = .active → j ≠ i ∧ s.status j = .active := by
    intro j hj
    have hne : j ≠ i := by
      rintro rfl
      exact hstatus (by simpa [State.leave] using hj)
    exact ⟨hne, by simpa [State.leave, hne] using hj⟩
  refine ⟨hactive, fun j r hown => ?_, fun j r howner => ?_⟩
  · have hne : j ≠ i := by
      rintro rfl
      exact hown (by simp [State.leave])
    have hlocked := hs.locked j r (by simpa [State.leave, hne] using hown)
    show (if s.owner r = some i then none else s.owner r) = some j
    rw [hlocked, if_neg (fun he => hne (Option.some.inj he))]
  · have howner' : (if s.owner r = some i then none else s.owner r) = some j := howner
    by_cases hr : s.owner r = some i
    · rw [if_pos hr] at howner'
      cases howner'
    · rw [if_neg hr] at howner'
      have hne : j ≠ i := by
        rintro rfl
        exact hr howner'
      have hj := hs.holder j r howner'
      simpa [State.leave, hne] using hj

theorem commit_sound (hs : Sound programs rows s) {i : ι} (hactive : s.status i = .active)
    (htodo : s.todo i = []) : Sound programs rows (s.commit i) := by
  obtain ⟨done, hmid⟩ := hs.midway i hactive
  have hdone : (programs i).ops = done := by rw [hmid.split, htodo, List.append_nil]
  obtain ⟨hstill, hlocked, hholder⟩ := leave_sound hs i .committed (by decide)
  -- an active program is not in the log yet
  have hnew : i ∉ s.log := fun hi => by
    have hcommitted := (hs.logged i).mp hi
    rw [hactive] at hcommitted
    cases hcommitted
  refine ⟨fun j hj => ?_, hlocked, hholder, fun j => ?_, ?_, fun r => ?_⟩
  · obtain ⟨hne, hj'⟩ := hstill j hj
    obtain ⟨donej, hmidj⟩ := hs.midway j hj'
    refine ⟨donej, hmidj.frame rfl (held_leave s .committed hne)
      (Function.update_of_ne hne _ _) ?_⟩
    -- who has written to a row holds its lock, so the other one has not written to it
    intro r hown
    show s.read i r = s.rows r
    have hnone : s.own i r = none := by
      by_contra hi
      have h := (hs.locked i r hi).symm.trans (hs.locked j r hown)
      exact hne (Option.some.inj h).symm
    rw [State.read, hnone]
    rfl
  -- the log is the list of the committed ones, in their order
  · show j ∈ s.log ++ [i] ↔ Function.update s.status i .committed j = .committed
    by_cases hj : j = i
    · subst hj
      simp
    · rw [Function.update_of_ne hj, List.mem_append, List.mem_singleton, hs.logged j]
      exact or_iff_left hj
  · exact List.nodup_append.mpr ⟨hs.nodup, List.nodup_singleton i, fun a ha b hb => by
      rw [List.mem_singleton.mp hb]
      rintro rfl
      exact hnew ha⟩
  -- what the committing program read is what the serial run up to it leaves
  · show s.read i r = replay programs (s.log ++ [i]) rows r
    rw [hmid.read r, replay_concat, hdone, hs.serial r]

theorem rollback_sound (hs : Sound programs rows s) {i : ι} (hactive : s.status i = .active) :
    Sound programs rows (s.rollback i) := by
  obtain ⟨hstill, hlocked, hholder⟩ := leave_sound hs i .rolledBack (by decide)
  refine ⟨fun j hj => ?_, hlocked, hholder, fun j => ?_, hs.nodup, hs.serial⟩
  · obtain ⟨hne, hj'⟩ := hstill j hj
    obtain ⟨donej, hmidj⟩ := hs.midway j hj'
    exact ⟨donej, hmidj.frame rfl (held_leave s .rolledBack hne)
      (Function.update_of_ne hne _ _) fun _ _ => rfl⟩
  · show j ∈ s.log ↔ Function.update s.status i .rolledBack j = .committed
    by_cases hj : j = i
    · subst hj
      rw [Function.update_self, hs.logged j, hactive]
      decide
    · rw [Function.update_of_ne hj, hs.logged j]

theorem acquire_sound (hs : Sound programs rows s) {i : ι} (hactive : s.status i = .active)
    {r : ρ} {rest : List (Op ρ V)} (htodo : s.todo i = .lock r :: rest)
    (hfree : s.owner r = none ∨ s.owner r = some i) :
    Sound programs rows ((s.acquire i r).advance i rest) := by
  -- nobody loses a lock
  have howner : ∀ q j, s.owner q = some j → (s.acquire i r).owner q = some j := by
    intro q j hq
    by_cases hqr : q = r
    · subst hqr
      rcases hfree with h | h
      · rw [hq] at h
        cases h
      · rw [← hq, h]
        exact Function.update_self _ _ _
    · exact (Function.update_of_ne hqr _ _).trans hq
  refine ⟨fun j hj => ?_, fun j q hown => howner q j (hs.locked j q hown), fun j q hq => ?_,
    hs.logged, hs.nodup, hs.serial⟩
  · obtain ⟨done, hmid⟩ := hs.midway j hj
    by_cases hji : j = i
    · subst hji
      refine ⟨done ++ [.lock r], ?_, ?_, fun q => ?_, fun q hq v => ?_⟩
      · show (programs j).ops = (done ++ [.lock r]) ++ Function.update s.todo j rest j
        rw [Function.update_self, hmid.split, htodo, List.append_assoc]
        rfl
      · have hguarded := hmid.guarded
        rw [htodo] at hguarded
        show Guarded ((s.acquire j r).held j) (Function.update s.todo j rest j)
        -- the program has one lock more, as the rest of its operations asks
        have hheld : (s.acquire j r).held j = insert r (s.held j) := by
          ext q
          show Function.update s.owner r (some j) q = some j ↔ q = r ∨ s.owner q = some j
          by_cases hq : q = r
          · subst hq
            simp
          · rw [Function.update_of_ne hq]
            simp [hq]
        rw [hheld, Function.update_self]
        exact hguarded
      · rw [effect_concat]
        exact hmid.read q
      · rw [effect_concat]
        exact hmid.unwritten q hq v
    -- the others have the same locks as before
    · refine ⟨done, hmid.frame (Function.update_of_ne hji _ _) ?_ rfl fun _ _ => rfl⟩
      ext q
      show (s.acquire i r).owner q = some j ↔ s.owner q = some j
      refine ⟨fun hq => ?_, howner q j⟩
      by_cases hqr : q = r
      · subst hqr
        have hi : (s.acquire i q).owner q = some i := Function.update_self _ _ _
        exact absurd (Option.some.inj (hq.symm.trans hi)) hji
      · exact (Function.update_of_ne hqr _ _).symm.trans hq
  · by_cases hqr : q = r
    · subst hqr
      have hi : (s.acquire i q).owner q = some i := Function.update_self _ _ _
      exact Option.some.inj (hi.symm.trans hq) ▸ hactive
    · exact hs.holder j q ((Function.update_of_ne hqr _ _).symm.trans hq)

theorem write_sound (hs : Sound programs rows s) {i : ι} (hactive : s.status i = .active)
    {r : ρ} {f : V → V} {rest : List (Op ρ V)} (htodo : s.todo i = .update r f :: rest) :
    Sound programs rows ((s.write i r f).advance i rest) := by
  obtain ⟨done, hmid⟩ := hs.midway i hactive
  have hguarded := hmid.guarded
  rw [htodo] at hguarded
  refine ⟨fun j hj => ?_, fun j q hown => ?_, hs.holder, hs.logged, hs.nodup, hs.serial⟩
  · by_cases hji : j = i
    · subst hji
      refine ⟨done ++ [.update r f], ?_, ?_, fun q => ?_, fun q hq v => ?_⟩
      · show (programs j).ops = (done ++ [.update r f]) ++ Function.update s.todo j rest j
        rw [Function.update_self, hmid.split, htodo, List.append_assoc]
        rfl
      · show Guarded (s.held j) (Function.update s.todo j rest j)
        rw [Function.update_self]
        exact hguarded.2
      · rw [effect_concat]
        show (Function.update s.own j (Function.update (s.own j) r
          (some (f (s.read j r)))) j q).getD (s.rows q) = (Op.update r f).effect q _
        rw [Function.update_self, Op.effect]
        -- the row that is written, and the others
        by_cases hqr : r = q
        · subst hqr
          rw [Function.update_self, if_pos rfl, Option.getD_some, hmid.read r]
          rfl
        · rw [Function.update_of_ne (Ne.symm hqr), if_neg hqr]
          exact hmid.read q
      · have hq' : Function.update s.own j (Function.update (s.own j) r
          (some (f (s.read j r)))) j q = none := hq
        rw [Function.update_self] at hq'
        by_cases hqr : r = q
        · subst hqr
          rw [Function.update_self] at hq'
          cases hq'
        · rw [Function.update_of_ne (Ne.symm hqr)] at hq'
          rw [effect_concat, Op.effect, if_neg hqr]
          exact hmid.unwritten q hq' v
    · obtain ⟨donej, hmidj⟩ := hs.midway j hj
      exact ⟨donej, hmidj.frame (Function.update_of_ne hji _ _) rfl (Function.update_of_ne hji _ _)
        fun _ _ => rfl⟩
  -- a program writes only to rows it has locked
  · show s.owner q = some j
    have hown' : Function.update s.own i (Function.update (s.own i) r
      (some (f (s.read i r)))) j q ≠ none := hown
    by_cases hji : j = i
    · subst hji
      rw [Function.update_self] at hown'
      by_cases hqr : q = r
      · subst hqr
        exact hguarded.1
      · rw [Function.update_of_ne hqr] at hown'
        exact hs.locked j q hown'
    · rw [Function.update_of_ne hji] at hown'
      exact hs.locked j q hown'

/-- **One step keeps the invariant.** -/
theorem Step.sound (h : Step programs s s') (hs : Sound programs rows s) :
    Sound programs rows s' := by
  obtain ⟨i, hactive, hmoves⟩ := h.moves
  cases hmoves with
  | commit htodo => exact commit_sound hs hactive htodo
  | rollback => exact rollback_sound hs hactive
  | acquire r rest htodo hfree => exact acquire_sound hs hactive htodo (Or.inl hfree)
  | again r rest htodo hheld =>
      have hsame : s.advance i rest = (s.acquire i r).advance i rest := by
        have howner : Function.update s.owner r (some i) = s.owner := by
          rw [← hheld, Function.update_eq_self]
        show s.advance i rest = State.advance { s with owner := _ } i rest
        rw [howner]
      rw [hsame]
      exact acquire_sound hs hactive htodo (Or.inr hheld)
  | write r f rest htodo => exact write_sound hs hactive htodo

/-- **Serial execution**: the invariant holds in every state that is reached. -/
theorem reach_sound (h : ∀ i, Guarded ∅ (programs i).ops) {k : ℕ}
    (hreach : Reach programs rows k s) : Sound programs rows s := by
  induction hreach with
  | start => exact start_sound rows h
  | next _ step ih => exact step.sound ih

/-! ## Runs of given sessions -/

/-- The state after the sessions have gone on in this order; `none` if one would have to wait. -/
def runAll (programs : ι → Program ρ V) (s : State ι ρ V) (acts : List ι) :
    Option (State ι ρ V) := acts.foldlM (runOne programs) s

theorem reach_runAll {acts : List ι} {k : ℕ} (hreach : Reach programs rows k s)
    (hrun : runAll programs s acts = some s') :
    Reach programs rows (k + acts.length) s' := by
  induction acts generalizing k s with
  | nil =>
      obtain rfl : s = s' := Option.some.inj hrun
      exact hreach
  | cons i acts ih =>
      simp only [runAll, List.foldlM_cons] at hrun
      obtain ⟨mid, hmid, hrest⟩ := Option.bind_eq_some_iff.mp hrun
      have h := ih (hreach.next (.run i mid hmid)) hrest
      rwa [Nat.add_assoc, Nat.add_comm 1] at h

/-! ## Every run goes on to its end -/

theorem runOne_of_not_waits (programs : ι → Program ρ V) {i : ι} (hactive : s.status i = .active)
    (hnot : ∀ j, ¬ s.WaitsFor i j) : ∃ s', runOne programs s i = some s' := by
  unfold runOne
  rw [if_pos hactive]
  cases htodo : s.todo i with
  | nil => exact ⟨_, rfl⟩
  | cons op rest =>
      cases op with
      | lock r =>
          cases howner : s.owner r with
          | none => exact ⟨(s.acquire i r).advance i rest, by simp only [howner]⟩
          | some j =>
              by_cases hj : j = i
              · exact ⟨s.advance i rest, by simp only [howner, if_pos hj]⟩
              · exact absurd ⟨hactive, r, rest, htodo, howner, hj⟩ (hnot j)
      | update r f => exact ⟨_, rfl⟩

/-- **No state is stuck**: while a session is active, one can go on, or there is a victim. -/
theorem exists_step [Finite ι] (hs : Sound programs rows s) {i : ι}
    (hi : s.status i = .active) : ∃ s', Step programs s s' := by
  by_cases hcircle : ∃ j, Relation.TransGen s.WaitsFor j j
  · obtain ⟨j, hj⟩ := hcircle
    exact ⟨_, .victim j hj⟩
  -- nobody waits for itself, so following the waits comes to an end
  have htrans : IsTrans ι (flip (Relation.TransGen s.WaitsFor)) := ⟨fun _ _ _ h h' => h'.trans h⟩
  have hirrefl : Std.Irrefl (flip (Relation.TransGen s.WaitsFor)) :=
    ⟨fun j hj => hcircle ⟨j, hj⟩⟩
  have hwf := Finite.wellFounded_of_trans_of_irrefl (flip (Relation.TransGen s.WaitsFor))
  obtain ⟨j, hj, hlast⟩ := hwf.has_min {j | s.status j = .active} ⟨i, hi⟩
  have hnot : ∀ k, ¬ s.WaitsFor j k := by
    intro k hwaits
    have hk : s.status k = .active := by
      obtain ⟨-, r, rest, -, howner, -⟩ := hwaits
      exact hs.holder k r howner
    exact hlast k hk (Relation.TransGen.single hwaits)
  obtain ⟨s', hs'⟩ := runOne_of_not_waits programs hj hnot
  exact ⟨s', .run j s' hs'⟩

/-- What a session may still do, at most. -/
def State.steps (s : State ι ρ V) (i : ι) : ℕ :=
  if s.status i = .active then (s.todo i).length + 1 else 0

theorem Moves.steps_lt {i : ι} (h : Moves programs s i s') (hactive : s.status i = .active) :
    s'.steps i < s.steps i ∧ ∀ j, j ≠ i → s'.steps j = s.steps j := by
  have hself : s.steps i = (s.todo i).length + 1 := if_pos hactive
  -- leaving takes the last step, and every operation takes one of the rest
  have hleave : ∀ status, status ≠ .active → (s.leave i status).steps i < s.steps i ∧
      ∀ j, j ≠ i → (s.leave i status).steps j = s.steps j := by
    intro status hstatus
    refine ⟨?_, fun j hj => ?_⟩
    · rw [hself]
      have hgone : (s.leave i status).steps i = 0 := if_neg (by simpa [State.leave] using hstatus)
      omega
    · simp [State.steps, State.leave, hj]
  have hadvance : ∀ (t : State ι ρ V) (op : Op ρ V) (rest : List (Op ρ V)), t.status = s.status →
      t.todo = s.todo → s.todo i = op :: rest → (t.advance i rest).steps i < s.steps i ∧
        ∀ j, j ≠ i → (t.advance i rest).steps j = s.steps j := by
    intro t op rest hstatus htodo hi
    refine ⟨?_, fun j hj => ?_⟩
    · simp [State.steps, State.advance, hstatus, hactive, hi]
    · simp [State.steps, State.advance, hstatus, htodo, hj]
  cases h with
  | commit htodo => exact hleave .committed (by decide)
  | rollback => exact hleave .rolledBack (by decide)
  | acquire r rest htodo hfree => exact hadvance (s.acquire i r) _ rest rfl rfl htodo
  | again r rest htodo hheld => exact hadvance s _ rest rfl rfl htodo
  | write r f rest htodo => exact hadvance (s.write i r f) _ rest rfl rfl htodo

variable [Fintype ι]

theorem Step.steps_lt (h : Step programs s s') : ∑ i, s'.steps i < ∑ i, s.steps i := by
  obtain ⟨i, hactive, hmoves⟩ := h.moves
  obtain ⟨hlt, hsame⟩ := hmoves.steps_lt hactive
  refine Finset.sum_lt_sum (fun j _ => ?_) ⟨i, Finset.mem_univ i, hlt⟩
  by_cases hj : j = i
  · rw [hj]
    exact hlt.le
  · exact (hsame j hj).le

/-- **Every run ends**: its length is bounded by those of the programs. -/
theorem reach_size {k : ℕ} (hreach : Reach programs rows k s) :
    k + ∑ i, s.steps i ≤ ∑ i, ((programs i).ops.length + 1) := by
  induction hreach with
  | start => exact (Nat.zero_add _).le
  | next _ step ih =>
      have hlt := step.steps_lt
      omega

end Steps

end Transactions
