import DistWorkshops.Mutex.Invariant

/-!
# Grants follow requests

The order of the printed REQUESTs and GRANTs. A request is granted at once only when the
resource is free, and then nobody is queued (`Inv.free`); every other grant goes to the head
of the queue. So the requests made so far are the grants made so far followed by the queue.
-/

set_option autoImplicit false

namespace Mutex

/-! ## The orders of requests and grants -/

section Orders

variable {π : Type}

def Line.request? : Line π → Option π
  | .request pid => some pid
  | _ => none

def Line.grant? : Line π → Option π
  | .grant pid => some pid
  | _ => none

/-- The processes in the order of their printed REQUESTs. -/
def requestOrder (log : List (Line π)) : List π := log.filterMap Line.request?

/-- The processes in the order of the printed GRANTs. -/
def grantOrder (log : List (Line π)) : List π := log.filterMap Line.grant?

@[simp] theorem requestOrder_nil : requestOrder ([] : List (Line π)) = [] := rfl

@[simp] theorem grantOrder_nil : grantOrder ([] : List (Line π)) = [] := rfl

theorem requestOrder_append (log lines : List (Line π)) :
    requestOrder (log ++ lines) = requestOrder log ++ requestOrder lines :=
  List.filterMap_append

theorem grantOrder_append (log lines : List (Line π)) :
    grantOrder (log ++ lines) = grantOrder log ++ grantOrder lines :=
  List.filterMap_append

end Orders

variable {n : ℕ}

/-! ## What one turn adds to the two orders -/

/-- The requests and the grants printed by one turn, against the queue before and after. -/
theorem turn_orders {s : Sim n} (hi : Inv s) (draw : Draw) (pid : Fin n) :
    ∃ reqs grants : List (Fin n),
      requestOrder (turn draw pid s).log = requestOrder s.log ++ reqs ∧
      grantOrder (turn draw pid s).log = grantOrder s.log ++ grants ∧
      (turn draw pid s).stats.requests = s.stats.requests + reqs.length ∧
      (turn draw pid s).stats.grants = s.stats.grants + grants.length ∧
      s.server.queue ++ reqs = grants ++ (turn draw pid s).server.queue := by
  have hcases := turn_cases draw pid s
  generalize turn draw pid s = s' at hcases
  cases hcases with
  | rest h hw =>
      exact ⟨[], [], requestOrder_append _ _, grantOrder_append _ _, rfl, rfl,
        by simp [Sim.print]⟩
  | wait h =>
      exact ⟨[], [], requestOrder_append _ _, grantOrder_append _ _, rfl, rfl,
        by simp [Sim.print]⟩
  | grant h hw hh =>
      -- an immediate grant is the whole queue moving on: the queue was empty
      exact ⟨[pid], [pid], requestOrder_append _ _, grantOrder_append _ _, rfl, rfl,
        by simp [hi.free hh]⟩
  | enqueue holder h hw hh =>
      exact ⟨[pid], [], requestOrder_append _ _, grantOrder_append _ _, rfl, rfl, by simp⟩
  | use h hl =>
      exact ⟨[], [], requestOrder_append _ _, grantOrder_append _ _, rfl, rfl, by simp⟩
  | release h hl hq =>
      exact ⟨[], [], requestOrder_append _ _, grantOrder_append _ _, rfl, rfl, by simp [hq]⟩
  | handOver next queue h hl hq =>
      exact ⟨[], [next], requestOrder_append _ _, grantOrder_append _ _, rfl, rfl,
        by simp [hq]⟩

/-! ## Whole runs -/

/-- The printed orders and the counters, against the queue. -/
structure Fifo (s : Sim n) : Prop where
  order : requestOrder s.log = grantOrder s.log ++ s.server.queue
  requests : s.stats.requests = (requestOrder s.log).length
  grants : s.stats.grants = (grantOrder s.log).length

theorem init_fifo : Fifo (init n) := ⟨rfl, rfl, rfl⟩

theorem turn_fifo {s : Sim n} (hi : Inv s) (hf : Fifo s) (draw : Draw) (pid : Fin n) :
    Fifo (turn draw pid s) := by
  obtain ⟨reqs, grants, hr, hg, hsr, hsg, hq⟩ := turn_orders hi draw pid
  refine ⟨?_, ?_, ?_⟩
  · calc requestOrder (turn draw pid s).log
        = grantOrder s.log ++ (s.server.queue ++ reqs) := by
          rw [hr, hf.order, List.append_assoc]
      _ = grantOrder s.log ++ (grants ++ (turn draw pid s).server.queue) := by rw [hq]
      _ = grantOrder (turn draw pid s).log ++ (turn draw pid s).server.queue := by
          rw [hg, List.append_assoc]
  · rw [hsr, hf.requests, hr, List.length_append]
  · rw [hsg, hf.grants, hg, List.length_append]

theorem stateAfter_fifo (draws : Draws n) (r j : ℕ) : Fifo (stateAfter draws r j) := by
  have h := RoundRobin.after_invariant (fun s => Inv s ∧ Fifo s) ⟨init_inv, init_fifo⟩
    (fun r p _ hs => ⟨turn_inv hs.1 (draws r p) p, turn_fifo hs.1 hs.2 (draws r p) p⟩) r j
  exact h.2

/-- The queue holds each waiting process once, so it is as long as there are such processes. -/
theorem Inv.queue_length {s : Sim n} (hi : Inv s) :
    s.server.queue.length = Fintype.card { p : Fin n // s.state p = .waiting } := by
  have hset : s.server.queue.toFinset
      = Finset.univ.filter (fun p => s.state p = .waiting) := by
    ext p
    simp [hi.queue_iff p]
  rw [Fintype.card_subtype, ← hset, List.toFinset_card_of_nodup hi.queue_nodup]

/-- **Grants are FIFO and lose nothing.** After every turn the processes in the order of
their REQUESTs are those in the order of their GRANTs followed by the queue: the grants are a
prefix of the requests, a process has been granted as often as it has requested less its
places in the queue, and the counters differ by the number of waiting processes. -/
theorem grants_follow_requests (draws : Draws n) (r j : ℕ) :
    let s := stateAfter draws r j
    requestOrder s.log = grantOrder s.log ++ s.server.queue ∧
      grantOrder s.log <+: requestOrder s.log ∧
      (∀ p, (requestOrder s.log).count p
        = (grantOrder s.log).count p + s.server.queue.count p) ∧
      (s.stats.requests : ℤ) - s.stats.grants
        = Fintype.card { p : Fin n // s.state p = .waiting } := by
  intro s
  have hi : Inv s := stateAfter_inv draws r j
  have hf : Fifo s := stateAfter_fifo draws r j
  refine ⟨hf.order, ⟨s.server.queue, hf.order.symm⟩, ?_, ?_⟩
  · intro p
    rw [hf.order, List.count_append]
  · have hlen := congrArg List.length hf.order
    rw [List.length_append, hi.queue_length] at hlen
    have h1 := hf.requests
    have h2 := hf.grants
    omega

end Mutex
