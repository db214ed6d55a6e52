import DistWorkshops.Lib.Run
import DistWorkshops.Mutex.CentralServer

/-!
# Who may release

The server alone, under any sequence of `request` and `release` calls with any process ids. The
rules of `central_server.py` say that a process must RELEASE before anyone else is granted
access, but `release` does not look at its argument: it takes the resource from whoever holds
it. A call of `release` does nothing to the server exactly when the resource is free
(`release_eq_self_iff`), so the rule is kept by the runs in which only the holder releases a
resource that is held (`releases_respected_iff`).
-/

set_option autoImplicit false

namespace Mutex

/-- A call of one of the server's methods. -/
inductive Call (π : Type) where
  | request (pid : π)
  | release (pid : π)
  deriving DecidableEq, Repr

variable {π : Type}

namespace CentralServer

def call (server : CentralServer π) : Call π → CentralServer π
  | .request pid => (server.request pid).1
  | .release pid => (server.release pid).1

end CentralServer

/-- The server after a sequence of calls. -/
def afterCalls (calls : List (Call π)) : CentralServer π :=
  Run.after CentralServer.call .init calls

/-! ## What the calls do -/

/-- `release` hands the resource to the head of the queue, whoever calls it. -/
theorem release_server (server : CentralServer π) (pid : π) :
    (server.release pid).1 = ⟨server.queue.head?, server.queue.tail⟩ := by
  unfold CentralServer.release
  cases hq : server.queue with
  | nil => simp
  | cons nextPid queue => rfl

theorem request_holder (server : CentralServer π) (pid : π) {holder : π}
    (h : server.holder = some holder) : (server.request pid).1.holder = some holder := by
  unfold CentralServer.request
  rw [h]

/-- Nobody is queued for a free resource. -/
def Idle (server : CentralServer π) : Prop := server.holder = none → server.queue = []

/-- Every call ends with the resource granted or with nobody queued. -/
theorem call_idle (server : CentralServer π) (call : Call π) : Idle (server.call call) := by
  intro hnone
  cases call with
  | request pid =>
      unfold CentralServer.call CentralServer.request at hnone
      cases hh : server.holder with
      | none =>
          rw [hh] at hnone
          cases hnone
      | some holder =>
          rw [hh] at hnone
          cases hnone
  | release pid =>
      unfold CentralServer.call at hnone ⊢
      simp only [release_server] at hnone ⊢
      cases hq : server.queue with
      | nil => rfl
      | cons nextPid queue =>
          rw [hq] at hnone
          cases hnone

/-- A `release` leaves the server as it is exactly when there is nothing to release. -/
theorem release_eq_self_iff {server : CentralServer π} (h : Idle server) (pid : π) :
    (server.release pid).1 = server ↔ server.holder = none := by
  rw [release_server]
  constructor
  · intro heq
    have htail : server.queue.tail = server.queue := congrArg CentralServer.queue heq
    have hempty : server.queue = [] := by
      cases hq : server.queue with
      | nil => rfl
      | cons nextPid queue =>
          rw [hq] at htail
          exact absurd (congrArg List.length htail) (by simp)
    have hhead : server.queue.head? = server.holder := congrArg CentralServer.holder heq
    rw [← hhead, hempty]
    rfl
  · intro hnone
    obtain ⟨holder, queue⟩ := server
    obtain rfl : holder = none := hnone
    obtain rfl : queue = [] := h rfl
    rfl

/-! ## The rule -/

/-- The rule of a call: `release` by anyone but the holder changes nothing, and a holder loses
the resource only by releasing it. -/
def Respects (server : CentralServer π) (call : Call π) : Prop :=
  (∀ pid, call = .release pid → server.holder ≠ some pid → server.call call = server) ∧
    ∀ pid, server.holder = some pid → (server.call call).holder ≠ some pid →
      call = .release pid

/-- A `release` comes from the holder, or finds the resource free. -/
def ByHolder (server : CentralServer π) (call : Call π) : Prop :=
  ∀ pid, call = .release pid → server.holder = some pid ∨ server.holder = none

theorem respects_iff {server : CentralServer π} (h : Idle server) (call : Call π) :
    Respects server call ↔ ByHolder server call := by
  constructor
  · rintro ⟨hunchanged, -⟩ pid rfl
    by_cases hheld : server.holder = some pid
    · exact Or.inl hheld
    · exact Or.inr ((release_eq_self_iff h pid).mp (hunchanged pid rfl hheld))
  · intro hby
    constructor
    · rintro pid rfl hother
      have hfree := (hby pid rfl).resolve_left hother
      exact (release_eq_self_iff h pid).mpr hfree
    · intro pid hheld hlost
      cases call with
      | request pid' => exact absurd (request_holder server pid' hheld) hlost
      | release pid' =>
          rcases hby pid' rfl with hholder | hfree
          · rw [hheld] at hholder
            rw [Option.some.inj hholder]
          · rw [hheld] at hfree
            cases hfree

/-- **When only the holder gives up the lock.** In every sequence of calls, each call keeps the
rule if and only if each `release` comes from the holder of that moment or finds the resource
free. -/
theorem releases_respected_iff (calls : List (Call π)) :
    Run.Steps CentralServer.call .init Respects calls ↔
      Run.Steps CentralServer.call .init ByHolder calls :=
  Run.steps_congr Idle (fun _ => rfl) (fun server call _ => call_idle server call)
    (fun _ call h => respects_iff h call) calls

/-- **A stranger takes the lock from its holder.** Process 0 holds the resource and process 1 is
queued; process 2, which never asked for it, releases it, and process 1 holds it. -/
theorem stranger_releases :
    (afterCalls [.request 0, .request 1]).holder = some 0 ∧
      (afterCalls [.request 0, .request 1, .release 2]).holder = some 1 ∧
      ¬ Run.Steps CentralServer.call .init Respects
        ([.request 0, .request 1, .release 2] : List (Call ℕ)) := by
  refine ⟨rfl, rfl, fun h => ?_⟩
  have hrule := (h [.request 0, .request 1] (.release 2) [] rfl).2 0 rfl
  exact absurd (hrule (by decide)) (by decide)

end Mutex
