import Mathlib.Data.List.Infix
import Mathlib.Order.Basic

/-!
# A primary and a replica that follows it

A primary commits transactions, and a replica applies them later, in the order of the commits, while
its applier runs. The servers are a parameter: `Servers` says what is seen of them and what can be
asked of them, and `Asynchronous` how they behave. Under it the replica always shows a state that
the primary had (`Later.replica_eq`), it never goes back, and a stopped applier applies nothing
(`Frozen`).
-/

set_option autoImplicit false

namespace Replication

variable {S τ σ : Type}

/-- The state after the first `k` transactions of a log. -/
def stateAt (step : σ → τ → σ) (init : σ) (log : List τ) (k : ℕ) : σ := (log.take k).foldl step init

/-- A longer log has the same states. -/
theorem stateAt_of_initial {step : σ → τ → σ} {init : σ} {log log' : List τ} (h : log <+: log')
    {k : ℕ} (hk : k ≤ log.length) : stateAt step init log' k = stateAt step init log k := by
  obtain ⟨more, rfl⟩ := h
  rw [stateAt, stateAt, List.take_append_of_le_length hk]

/-- Two servers with the states `S`, on which transactions `τ` change what is shown, `σ`. -/
structure Servers (S τ σ : Type) where
  /-- The transactions that the primary has committed. -/
  log : S → List τ
  /-- How many of them the replica has applied. -/
  applied : S → ℕ
  /-- The applier of the replica runs. -/
  running : S → Bool
  primary : S → σ
  replica : S → σ
  commit : S → τ → S
  stopApplier : S → S
  startApplier : S → S
  /-- Wait until the replica has applied the first `k` transactions or the time is up: 0 or 1, and
  the state by then. -/
  wait : S → ℕ → ℕ × S
  /-- What others may do meanwhile. -/
  meanwhile : S → S → Prop

variable (r : Servers S τ σ)

/-- The servers replicate asynchronously, in the order of the commits. -/
structure Asynchronous (step : σ → τ → σ) (init : σ) : Prop where
  primary_shows (s : S) : r.primary s = stateAt step init (r.log s) (r.log s).length
  replica_shows (s : S) : r.replica s = stateAt step init (r.log s) (r.applied s)
  applied_le (s : S) : r.applied s ≤ (r.log s).length
  commit_log (s : S) (t : τ) : r.log (r.commit s t) = r.log s ++ [t]
  commit_replica (s : S) (t : τ) : r.applied (r.commit s t) = r.applied s ∧
    r.running (r.commit s t) = r.running s
  stop (s : S) : r.log (r.stopApplier s) = r.log s ∧ r.applied (r.stopApplier s) = r.applied s ∧
    r.running (r.stopApplier s) = false
  start (s : S) : r.log (r.startApplier s) = r.log s ∧ r.applied (r.startApplier s) = r.applied s
  /-- A wait returns 0 only when the replica has applied the transactions, and 1 otherwise. -/
  wait (s : S) (k : ℕ) : r.meanwhile s (r.wait s k).2 ∧ (r.wait s k).1 ≤ 1 ∧
    ((r.wait s k).1 = 0 → k ≤ r.applied (r.wait s k).2)
  /-- The others may commit, and the replica may apply. -/
  meanwhile_grows {s s' : S} (h : r.meanwhile s s') :
    r.log s <+: r.log s' ∧ r.applied s ≤ r.applied s'
  /-- Nobody else starts the applier, and a stopped one applies nothing. -/
  meanwhile_stopped {s s' : S} (h : r.meanwhile s s') (hs : r.running s = false) :
    r.running s' = false ∧ r.applied s' = r.applied s

/-! ## Later states -/

/-- The servers have come from `s`: the log has grown, and the replica has not gone back. -/
structure Later (s s' : S) : Prop where
  log : r.log s <+: r.log s'
  applied : r.applied s ≤ r.applied s'

/-- The applier is stopped, and has applied `k` transactions. -/
structure Frozen (k : ℕ) (s : S) : Prop where
  stopped : r.running s = false
  applied : r.applied s = k

variable {r} {step : σ → τ → σ} {init : σ} {s s' s'' : S} {k : ℕ}

theorem Later.refl (s : S) : Later r s s := ⟨List.prefix_refl _, Nat.le_refl _⟩

theorem Later.trans (h : Later r s s') (h' : Later r s' s'') : Later r s s'' :=
  ⟨h.log.trans h'.log, h.applied.trans h'.applied⟩

theorem Later.length_le (h : Later r s s') : (r.log s).length ≤ (r.log s').length :=
  h.log.length_le

section Moves

variable (hr : Asynchronous r step init)

include hr

theorem later_meanwhile (h : r.meanwhile s s') : Later r s s' :=
  ⟨(hr.meanwhile_grows h).1, (hr.meanwhile_grows h).2⟩

theorem later_wait (s : S) (k : ℕ) : Later r s (r.wait s k).2 :=
  later_meanwhile hr (hr.wait s k).1

theorem later_commit (s : S) (t : τ) : Later r s (r.commit s t) := by
  refine ⟨?_, (hr.commit_replica s t).1.ge⟩
  rw [hr.commit_log]
  exact List.prefix_append _ _

theorem later_start (s : S) : Later r s (r.startApplier s) :=
  ⟨(hr.start s).1 ▸ List.prefix_refl _, (hr.start s).2.ge⟩

theorem Frozen.meanwhile (h : Frozen r k s) (hs : r.meanwhile s s') : Frozen r k s' := by
  obtain ⟨hstopped, happlied⟩ := hr.meanwhile_stopped hs h.stopped
  exact ⟨hstopped, happlied.trans h.applied⟩

theorem Frozen.wait (h : Frozen r k s) (m : ℕ) : Frozen r k (r.wait s m).2 :=
  h.meanwhile hr (hr.wait s m).1

theorem Frozen.commit (h : Frozen r k s) (t : τ) : Frozen r k (r.commit s t) :=
  ⟨(hr.commit_replica s t).2.trans h.stopped, (hr.commit_replica s t).1.trans h.applied⟩

theorem frozen_stop (s : S) : Frozen r (r.applied s) (r.stopApplier s) :=
  ⟨(hr.stop s).2.2, (hr.stop s).2.1⟩

/-! ## What is shown -/

/-- What the primary has shown is still a state of its log. -/
theorem Later.primary_eq (h : Later r s s') :
    r.primary s = stateAt step init (r.log s') (r.log s).length :=
  (hr.primary_shows s).trans (stateAt_of_initial h.log (Nat.le_refl _)).symm

/-- **The replica shows a state that the primary had.** -/
theorem Later.replica_eq (h : Later r s s') :
    r.replica s = stateAt step init (r.log s') (r.applied s) :=
  (hr.replica_shows s).trans (stateAt_of_initial h.log (hr.applied_le s)).symm

/-- What the replica has applied is in any later log. -/
theorem Later.applied_le (h : Later r s s') : r.applied s ≤ (r.log s').length :=
  (hr.applied_le s).trans h.length_le

theorem primary_commit (s : S) (t : τ) : r.primary (r.commit s t) = step (r.primary s) t := by
  rw [hr.primary_shows, hr.commit_log, stateAt, List.take_length, List.foldl_append,
    hr.primary_shows, stateAt, List.take_length]
  rfl

end Moves

/-! ## A log and the number applied -/

/-- The smallest pair of servers. -/
structure Pair (τ : Type) where
  log : List τ
  applied : ℕ
  running : Bool
  applied_le : applied ≤ log.length

namespace Pair

theorem commit_le (p : Pair τ) (t : τ) : p.applied ≤ (p.log ++ [t]).length := by
  rw [List.length_append]
  exact Nat.le_add_right_of_le p.applied_le

variable (step init)

/-- Others may do what `Asynchronous` allows, and no time passes in a wait. -/
def servers : Servers (Pair τ) τ σ where
  log := log
  applied := applied
  running := running
  primary p := stateAt step init p.log p.log.length
  replica p := stateAt step init p.log p.applied
  commit p t := ⟨p.log ++ [t], p.applied, p.running, p.commit_le t⟩
  stopApplier p := { p with running := false }
  startApplier p := { p with running := true }
  wait p k := (if k ≤ p.applied then 0 else 1, p)
  meanwhile p q := (p.log <+: q.log ∧ p.applied ≤ q.applied) ∧
    (p.running = false → q.running = false ∧ q.applied = p.applied)

theorem servers_asynchronous : Asynchronous (servers step init) step init where
  primary_shows _ := rfl
  replica_shows _ := rfl
  applied_le := applied_le
  commit_log _ _ := rfl
  commit_replica _ _ := ⟨rfl, rfl⟩
  stop _ := ⟨rfl, rfl, rfl⟩
  start _ := ⟨rfl, rfl⟩
  wait p k := by
    refine ⟨⟨⟨List.prefix_refl _, Nat.le_refl _⟩, fun h => ⟨h, rfl⟩⟩, ?_⟩
    simp only [servers]
    split
    · exact ⟨Nat.zero_le 1, fun _ => ‹_›⟩
    · exact ⟨Nat.le_refl 1, fun h => by cases h⟩
  meanwhile_grows h := h.1
  meanwhile_stopped h hs := h.2 hs

end Pair

end Replication
