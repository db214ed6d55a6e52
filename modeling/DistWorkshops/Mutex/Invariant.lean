import Mathlib.Data.Fintype.Card
import Mathlib.Data.Fintype.Basic
import DistWorkshops.Mutex.CentralServer

/-!
# The invariant of the central server simulation

The simulation keeps its state twice: the server knows the holder and the queue, and the
arrays `state` and `holdLeft` say what each process believes. `Inv` ties the two together;
it holds after every turn of every run (`stateAfter_inv`). A turn changes the agreement of at
most two processes with the server; the others keep theirs (`Agrees.frame`).
-/

set_option autoImplicit false

namespace Mutex

variable {n : ℕ}

/-! ## The invariant -/

/-- The server's view and the processes' view of the resource agree. -/
structure Inv (s : Sim n) : Prop where
  /-- The holder known to the server is the process that believes it holds. -/
  holder_iff : ∀ p, s.server.holder = some p ↔ s.state p = .holding
  /-- The queued processes are the waiting ones, each queued once. -/
  queue_iff : ∀ p, p ∈ s.server.queue ↔ s.state p = .waiting
  queue_nodup : s.server.queue.Nodup
  /-- The server never leaves the resource free while somebody is queued. -/
  free : s.server.holder = none → s.server.queue = []
  held : ∀ p, s.state p = .holding → 1 ≤ s.holdLeft p ∧ s.holdLeft p ≤ 3
  notHeld : ∀ p, s.state p ≠ .holding → s.holdLeft p = 0

theorem init_inv : Inv (init n) := by
  constructor <;> simp [init, CentralServer.init]

theorem Inv.unique_holder {s : Sim n} (hi : Inv s) {p q : Fin n} (hp : s.state p = .holding)
    (hq : s.state q = .holding) : p = q := by
  have hp' := (hi.holder_iff p).mpr hp
  have hq' := (hi.holder_iff q).mpr hq
  rw [hp'] at hq'
  exact Option.some.inj hq'

theorem Inv.holder_not_queued {s : Sim n} (hi : Inv s) {p : Fin n}
    (hp : s.server.holder = some p) : p ∉ s.server.queue := by
  intro hq
  have h1 := (hi.holder_iff p).mp hp
  have h2 := (hi.queue_iff p).mp hq
  rw [h1] at h2
  cases h2

/-- Printing changes nothing the invariant speaks about. -/
theorem Inv.print {s : Sim n} (hi : Inv s) (lines : List (Line (Fin n))) :
    Inv (s.print lines) :=
  ⟨hi.holder_iff, hi.queue_iff, hi.queue_nodup, hi.free, hi.held, hi.notHeld⟩

/-! ## The invariant, process by process -/

/-- What the invariant says of one process. -/
structure Agrees (s : Sim n) (p : Fin n) : Prop where
  holder_iff : s.server.holder = some p ↔ s.state p = .holding
  queue_iff : p ∈ s.server.queue ↔ s.state p = .waiting
  held : s.state p = .holding → 1 ≤ s.holdLeft p ∧ s.holdLeft p ≤ 3
  notHeld : s.state p ≠ .holding → s.holdLeft p = 0

theorem Inv.agrees {s : Sim n} (hi : Inv s) (p : Fin n) : Agrees s p :=
  ⟨hi.holder_iff p, hi.queue_iff p, hi.held p, hi.notHeld p⟩

theorem Inv.of_agrees {s : Sim n} (h : ∀ p, Agrees s p) (hnodup : s.server.queue.Nodup)
    (hfree : s.server.holder = none → s.server.queue = []) : Inv s :=
  ⟨fun p => (h p).holder_iff, fun p => (h p).queue_iff, hnodup, hfree, fun p => (h p).held,
    fun p => (h p).notHeld⟩

/-- A process keeps agreeing with the server when nothing about it has changed. -/
theorem Agrees.frame {s s' : Sim n} {p : Fin n} (h : Agrees s p)
    (hstate : s'.state p = s.state p) (hleft : s'.holdLeft p = s.holdLeft p)
    (hholder : s'.server.holder = some p ↔ s.server.holder = some p)
    (hqueue : p ∈ s'.server.queue ↔ p ∈ s.server.queue) : Agrees s' p := by
  constructor
  · rw [hholder, hstate]
    exact h.holder_iff
  · rw [hqueue, hstate]
    exact h.queue_iff
  · rw [hstate, hleft]
    exact h.held
  · rw [hstate, hleft]
    exact h.notHeld

/-! ## Transitions -/

section Transitions

variable {s s' : Sim n} {pid : Fin n}

/-- Nobody holds the resource, so nobody is queued, and the process that asks gets it. -/
theorem Inv.grant (hi : Inv s) {left : ℤ} (hleft : 1 ≤ left ∧ left ≤ 3)
    (hh : s.server.holder = none)
    (hserver : s'.server = { s.server with holder := some pid })
    (hstate : s'.state = Function.update s.state pid .holding)
    (hholdLeft : s'.holdLeft = Function.update s.holdLeft pid left) : Inv s' := by
  have hempty : s.server.queue = [] := hi.free hh
  refine Inv.of_agrees (fun q => ?_) (by rw [hserver]; exact hi.queue_nodup) ?_
  · by_cases hq : q = pid
    · subst hq
      constructor <;> simp [hserver, hstate, hholdLeft, hempty, hleft]
    · -- no process held the resource, and this one does not now
      refine (hi.agrees q).frame ?_ ?_ ?_ (by rw [hserver])
      · rw [hstate, Function.update_of_ne hq]
      · rw [hholdLeft, Function.update_of_ne hq]
      · simp [hserver, hh, Ne.symm hq]
  · rw [hserver]
    exact fun _ => hempty

/-- A process that finds the resource held goes to the end of the queue. -/
theorem Inv.enqueue (hi : Inv s) {holder : Fin n} (h : s.state pid = .idle)
    (hh : s.server.holder = some holder)
    (hserver : s'.server = { s.server with queue := s.server.queue ++ [pid] })
    (hstate : s'.state = Function.update s.state pid .waiting)
    (hholdLeft : s'.holdLeft = s.holdLeft) : Inv s' := by
  have hne : holder ≠ pid := by
    rintro rfl
    rw [(hi.holder_iff holder).mp hh] at h
    cases h
  have hnotin : pid ∉ s.server.queue := by
    rw [hi.queue_iff, h]
    simp
  have hnodup : (s.server.queue ++ [pid]).Nodup :=
    List.nodup_append'.mpr ⟨hi.queue_nodup, List.nodup_singleton pid, by simpa using hnotin⟩
  -- only the process that queues up changes
  refine Inv.of_agrees (fun q => ?_) (by rw [hserver]; exact hnodup) (by simp [hserver, hh])
  by_cases hq : q = pid
  · subst hq
    constructor <;> simp [hserver, hstate, hholdLeft, hh, hne, hi.notHeld q, h]
  · refine (hi.agrees q).frame ?_ (by rw [hholdLeft]) (by rw [hserver]) ?_
    · rw [hstate, Function.update_of_ne hq]
    · simp [hserver, hq]

/-- The holder counts its hold time down, and does not come to its end. -/
theorem Inv.use (hi : Inv s) (h : s.state pid = .holding) (hl : s.holdLeft pid ≠ 1)
    (hserver : s'.server = s.server) (hstate : s'.state = s.state)
    (hholdLeft : s'.holdLeft = Function.update s.holdLeft pid (s.holdLeft pid - 1)) : Inv s' := by
  have hb := hi.held pid h
  refine Inv.of_agrees (fun q => ?_) (by rw [hserver]; exact hi.queue_nodup)
    (by rw [hserver]; exact hi.free)
  by_cases hq : q = pid
  · subst hq
    have hleft : s'.holdLeft q = s.holdLeft q - 1 := by rw [hholdLeft, Function.update_self]
    refine ⟨?_, ?_, fun _ => by omega, fun hnot => absurd h (by rwa [hstate] at hnot)⟩
    · rw [hserver, hstate]
      exact hi.holder_iff q
    · rw [hserver, hstate]
      exact hi.queue_iff q
  · refine (hi.agrees q).frame (by rw [hstate]) ?_ (by rw [hserver]) (by rw [hserver])
    rw [hholdLeft, Function.update_of_ne hq]

/-- The holder gives the resource back while nobody is queued. -/
theorem Inv.release (hi : Inv s) (h : s.state pid = .holding) (hempty : s.server.queue = [])
    (hserver : s'.server = ⟨none, []⟩) (hstate : s'.state = Function.update s.state pid .idle)
    (hholdLeft : s'.holdLeft = Function.update s.holdLeft pid 0) : Inv s' := by
  have hh : s.server.holder = some pid := (hi.holder_iff pid).mpr h
  refine Inv.of_agrees (fun q => ?_) (by rw [hserver]; exact List.nodup_nil)
    (fun _ => by rw [hserver])
  by_cases hq : q = pid
  · subst hq
    constructor <;> simp [hserver, hstate, hholdLeft]
  · refine (hi.agrees q).frame ?_ ?_ ?_ (by rw [hserver, hempty])
    · rw [hstate, Function.update_of_ne hq]
    · rw [hholdLeft, Function.update_of_ne hq]
    · simp [hserver, hh, Ne.symm hq]

/-- The holder gives the resource back, and the first of the queue gets it. -/
theorem Inv.handOver (hi : Inv s) {next : Fin n} {queue : List (Fin n)} {left : ℤ}
    (hleft : 1 ≤ left ∧ left ≤ 3) (h : s.state pid = .holding)
    (hcons : s.server.queue = next :: queue) (hserver : s'.server = ⟨some next, queue⟩)
    (hstate : s'.state = Function.update (Function.update s.state pid .idle) next .holding)
    (hholdLeft : s'.holdLeft = Function.update (Function.update s.holdLeft pid 0) next left) :
    Inv s' := by
  have hh : s.server.holder = some pid := (hi.holder_iff pid).mpr h
  have hnext : s.state next = .waiting := (hi.queue_iff next).mp (by simp [hcons])
  have hne : pid ≠ next := by
    rintro rfl
    rw [h] at hnext
    cases hnext
  have hnodup : next ∉ queue ∧ queue.Nodup := by
    have hq := hi.queue_nodup
    rw [hcons] at hq
    exact List.nodup_cons.mp hq
  have hpid : pid ∉ queue := by
    intro hmem
    have hwaits := (hi.queue_iff pid).mp (by simp [hcons, hmem])
    rw [h] at hwaits
    cases hwaits
  refine Inv.of_agrees (fun q => ?_) (by rw [hserver]; exact hnodup.2) (by simp [hserver])
  -- the new holder, the old one, and the others
  by_cases hqn : q = next
  · subst hqn
    constructor <;> simp [hserver, hstate, hholdLeft, hnodup.1, hleft]
  · by_cases hqp : q = pid
    · subst hqp
      constructor <;> simp [hserver, hstate, hholdLeft, hne, hne.symm, hpid]
    · refine (hi.agrees q).frame ?_ ?_ ?_ ?_
      · simp [hstate, hqn, hqp]
      · simp [hholdLeft, hqn, hqp]
      · simp [hserver, hh, Ne.symm hqn, Ne.symm hqp]
      · simp [hserver, hcons, hqn]

end Transitions

/-- **One turn keeps the invariant.** -/
theorem turn_inv {s : Sim n} (hi : Inv s) (draw : Draw) (pid : Fin n) :
    Inv (turn draw pid s) := by
  have hcases := turn_cases draw pid s
  have hbound := draw.hold.property
  generalize turn draw pid s = s' at hcases
  cases hcases with
  | rest h hw => exact hi.print _
  | wait h => exact hi.print _
  | grant h hw hh => exact hi.grant hbound hh rfl rfl rfl
  | enqueue holder h hw hh => exact hi.enqueue h hh rfl rfl rfl
  | use h hl => exact hi.use h hl rfl rfl rfl
  | release h hl hempty => exact hi.release h hempty rfl rfl rfl
  | handOver next queue h hl hcons => exact hi.handOver hbound h hcons rfl rfl rfl

/-- The invariant holds after every turn of every run. -/
theorem stateAfter_inv (draws : Draws n) (r j : ℕ) : Inv (stateAfter draws r j) :=
  RoundRobin.after_invariant Inv init_inv (fun r p _ hi => turn_inv hi (draws r p) p) r j

/-- **Mutual exclusion.** After every turn the server and the processes agree on who holds
the resource and who waits for it, at most one process holds it, the holder is not queued,
and the remaining hold times are those of a hold. -/
theorem central_server_invariant (draws : Draws n) (r j : ℕ) :
    Inv (stateAfter draws r j) ∧
      (∀ p q, (stateAfter draws r j).state p = .holding →
        (stateAfter draws r j).state q = .holding → p = q) ∧
      ∀ p, (stateAfter draws r j).server.holder = some p →
        p ∉ (stateAfter draws r j).server.queue := by
  have hi := stateAfter_inv draws r j
  exact ⟨hi, fun p q hp hq => hi.unique_holder hp hq, fun p hp => hi.holder_not_queued hp⟩

end Mutex
