import Mathlib.Algebra.BigOperators.Fin
import Mathlib.Data.Fin.VecNotation
import Mathlib.Data.Fintype.Basic
import DistWorkshops.Lib.Relay

/-!
# Sources, broker and workers

The pipeline of `Part6-Pipeline`. Every source pushes its jobs to the broker, one after the other;
the broker hands each job on to the next worker, in a round robin; a worker processes its jobs in
the order in which they come. Workers may be started at any time.

The sockets and `zmq.proxy` are a parameter, a `Transport` between the sources and the workers.
Of ZeroMQ only what its documentation says is used. `Lossless`: while the broker and the workers
stay up, a message that `send` has accepted is delivered to one receiver, and a receiver gets the
messages of one sender in their order; `send` may wait, at a full queue or while nobody is
connected. `RoundRobin`: a PUSH socket takes the workers in turn while none of their queues is full.
Pickling is the identity here, and time is left out.
-/

set_option autoImplicit false

namespace Pipeline

open Relay

/-! ## Jobs -/

/-- The tuple `(source_id, i, workload)`. -/
structure Job where
  sourceId : String
  jobId : ℕ
  workload : ℕ
  deriving DecidableEq

/-- What `random.randint(1, 10)` may return. -/
abbrev Workload := { workload : ℕ // 1 ≤ workload ∧ workload ≤ 10 }

structure Source where
  id : String
  numJobs : ℤ
  draws : ℕ → Workload

/-- The jobs that a source sends, in their order; `range` of a negative number is empty. -/
def Source.jobs (source : Source) : List Job :=
  (List.range source.numJobs.toNat).map fun i => ⟨source.id, i, source.draws i⟩

/-! ## Workers -/

inductive Line where
  | received (job : Job)
  | finished (job : Job) (totalProcessed : ℕ)
  deriving DecidableEq

/-- The lines of a worker that has counted `count` jobs and gets these. -/
def work : ℕ → List Job → List Line
  | _, [] => []
  | count, job :: jobs => .received job :: .finished job (count + 1) :: work (count + 1) jobs

/-- The number that a worker has printed last. -/
def totalProcessed (lines : List Line) : ℕ :=
  match lines.getLast? with
  | some (.finished _ total) => total
  | _ => 0

theorem getLast?_work (count : ℕ) (jobs : List Job) (job : Job) :
    (work count (jobs ++ [job])).getLast? = some (.finished job (count + jobs.length + 1)) := by
  induction jobs generalizing count with
  | nil => rfl
  | cons first jobs ih =>
      have hne : work (count + 1) (jobs ++ [job]) ≠ [] := by
        cases jobs with
        | nil => exact List.cons_ne_nil _ _
        | cons second jobs => exact List.cons_ne_nil _ _
      show (Line.received first :: .finished first (count + 1) ::
        work (count + 1) (jobs ++ [job])).getLast? = _
      rw [List.getLast?_cons_of_ne_nil (List.cons_ne_nil _ _), List.getLast?_cons_of_ne_nil hne,
        ih, List.length_cons]
      congr 2
      omega

theorem totalProcessed_work (jobs : List Job) : totalProcessed (work 0 jobs) = jobs.length := by
  induction jobs using List.reverseRecOn with
  | nil => rfl
  | append_singleton jobs job =>
      rw [totalProcessed, getLast?_work, List.length_append, List.length_singleton]
      exact congrArg (· + 1) (Nat.zero_add _)

/-! ## Runs -/

variable {n w : ℕ} {N : Type} (sources : Fin n → Source)

/-- The pipeline after some steps of the sources, the broker and the workers, in any order. -/
def after (z : Transport (Fin n) (Fin w) Job N) (net : N) (acts : List (Act (Fin n) (Fin w))) :
    Option (State (Fin n) (Fin w) Job N) :=
  Relay.run z (start (fun i => (sources i).jobs) net) acts

/-- What a worker has printed. -/
def lines (s : State (Fin n) (Fin w) Job N) (k : Fin w) : List Line := work 0 (s.done k)

/-- The jobs of all sources. -/
def allJobs : Multiset Job := Relay.total fun i => (sources i).jobs

theorem card_total {m : ℕ} {α : Type} (q : Fin m → List α) :
    Multiset.card (Relay.total q) = ∑ i, (q i).length := by
  rw [Relay.total, Multiset.card_sum]
  rfl

theorem card_allJobs : Multiset.card (allJobs sources) = ∑ i, (sources i).numJobs.toNat := by
  rw [allJobs, card_total]
  refine Finset.sum_congr rfl fun i _ => ?_
  rw [Source.jobs, List.length_map, List.length_range]

section Runs

variable {z : Transport (Fin n) (Fin w) Job N} {net : N} {s s' : State (Fin n) (Fin w) Job N}

/-- **Every job is processed once.** In any order of the steps the jobs are still to be sent, on
their way to the broker or to a worker, or processed by one worker, and each is in one place. When
nothing can move any more and there is a worker, all jobs are processed, and the totals of the
workers add up to the number of jobs. -/
theorem every_job_processed_once (hz : Lossless z) (hfresh : z.Fresh net)
    {acts : List (Act (Fin n) (Fin w))} (hrun : after sources z net acts = some s) :
    s.total z = allJobs sources ∧
      (Resting z s → z.members s.net ≠ [] →
        Relay.total s.done = allJobs sources ∧
          ∑ k, totalProcessed (lines s k) = ∑ i, (sources i).numJobs.toNat) := by
  have htotal : s.total z = allJobs sources :=
    (run_total hz hrun).trans (start_total _ hfresh)
  refine ⟨htotal, fun hresting hmembers => ?_⟩
  obtain ⟨htodo, hinbound, houtbound⟩ := hresting.empty hz hmembers
  have hdone : Relay.total s.done = allJobs sources := by
    rw [← htotal, State.total, total_eq_zero_iff.mpr htodo, total_eq_zero_iff.mpr hinbound,
      total_eq_zero_iff.mpr houtbound, zero_add, zero_add, zero_add]
  refine ⟨hdone, ?_⟩
  calc ∑ k, totalProcessed (lines s k)
      = ∑ k, (s.done k).length := Finset.sum_congr rfl fun k _ => totalProcessed_work _
    _ = Multiset.card (Relay.total s.done) := (card_total _).symm
    _ = ∑ i, (sources i).numJobs.toNat := by rw [hdone, card_allJobs]

/-! ## Order -/

theorem sourceId_of_mem {source : Source} {job : Job} (h : job ∈ source.jobs) :
    job.sourceId = source.id := by
  obtain ⟨i, -, rfl⟩ := List.mem_map.mp h
  rfl

/-- A source numbers its jobs upwards. -/
theorem jobs_pairwise (source : Source) :
    source.jobs.Pairwise fun job job' => job.jobId < job'.jobId :=
  List.pairwise_map.mpr List.pairwise_lt_range

/-- **A worker takes the jobs of a source in their order**: it processes them by ascending job id,
whatever it processes in between, as long as the sources have different ids. -/
theorem jobs_in_order (hz : Lossless z) (hfresh : z.Fresh net)
    (hids : Function.Injective fun i => (sources i).id) {acts : List (Act (Fin n) (Fin w))}
    (hrun : after sources z net acts = some s) (i : Fin n) (k : Fin w) :
    ((s.done k).filter fun job => job.sourceId = (sources i).id).Pairwise
      fun job job' => job.jobId < job'.jobId :=
  (jobs_pairwise (sources i)).sublist
    (done_sublist hz hfresh (fun _ _ h => sourceId_of_mem h) hids hrun i k)

/-! ## Load -/

/-- A worker that has nothing on its way has processed all it was given. -/
theorem totalProcessed_eq {k : Fin w} (h : z.outbound s.net k = []) :
    totalProcessed (lines s k) = s.given z k := by
  rw [lines, totalProcessed_work, State.given, h]
  rfl

end Runs

/-! ## Two sources and two workers -/

def sampleSources : Fin 2 → Source :=
  ![⟨"S1", 2, fun _ => ⟨3, by decide⟩⟩, ⟨"S2", 1, fun _ => ⟨5, by decide⟩⟩]

/-- The sockets with their default high-water mark. -/
def sampleSockets : Transport (Fin 2) (Fin 2) Job (Queues (Fin 2) (Fin 2) Job) := queues 1000

theorem sampleSockets_lossless : Lossless sampleSockets := queues_lossless (by decide)

theorem sampleSockets_fresh : sampleSockets.Fresh Queues.empty := queues_fresh 1000

/-- The first source and the first worker are `i`, the second ones are `j`. -/
def sampleJoins (i j : Fin 2) : List (Act (Fin 2) (Fin 2)) := [.send i, .join i, .join j]

def sampleSteps (i j : Fin 2) : List (Act (Fin 2) (Fin 2)) :=
  [.forward i i, .send j, .forward j j, .send i, .consume j, .forward i i, .consume i, .consume i]

def sampleRun (i j : Fin 2) : List (Act (Fin 2) (Fin 2)) := sampleJoins i j ++ sampleSteps i j

theorem every_job_processed_once_two :
    ∃ s, after sampleSources sampleSockets Queues.empty (sampleRun 0 1) = some s ∧
      s.total sampleSockets = allJobs sampleSources := by
  have hsome : (after sampleSources sampleSockets Queues.empty (sampleRun 0 1)).isSome = true := by
    decide +kernel
  obtain ⟨s, hrun⟩ := Option.isSome_iff_exists.mp hsome
  exact ⟨s, hrun, (every_job_processed_once sampleSources sampleSockets_lossless
    sampleSockets_fresh hrun).1⟩

theorem jobs_in_order_two :
    ∃ s, after sampleSources sampleSockets Queues.empty (sampleRun 0 1) = some s ∧
      ((s.done 0).filter fun job => job.sourceId = (sampleSources 0).id).Pairwise
        fun job job' => job.jobId < job'.jobId := by
  have hsome : (after sampleSources sampleSockets Queues.empty (sampleRun 0 1)).isSome = true := by
    decide +kernel
  obtain ⟨s, hrun⟩ := Option.isSome_iff_exists.mp hsome
  exact ⟨s, hrun, jobs_in_order sampleSources sampleSockets_lossless sampleSockets_fresh
    (by decide) hrun 0 0⟩

/-- Three jobs leave room in queues for a thousand. -/
theorem sampleSockets_roomy {acts : List (Act (Fin 2) (Fin 2))} {s}
    (hrun : after sampleSources sampleSockets Queues.empty acts = some s)
    (acts' : List (Act (Fin 2) (Fin 2))) :
    Roomy sampleSockets (fun q k => 1000 ≤ (q.outbound k).length) s acts' := by
  refine queues_roomy ?_ acts'
  have htotal : s.total sampleSockets = allJobs sampleSources :=
    (run_total sampleSockets_lossless hrun).trans (start_total _ sampleSockets_fresh)
  have hcard : Multiset.card (s.total sampleSockets) = 3 := by
    rw [htotal, card_allJobs]
    decide
  show Multiset.card (s.total sampleSockets) < 1000
  omega

/-- What the first worker prints. -/
example : (after sampleSources sampleSockets Queues.empty (sampleRun 0 1)).map
    (fun s => lines s 0) = some [.received ⟨"S1", 0, 3⟩, .finished ⟨"S1", 0, 3⟩ 1,
      .received ⟨"S1", 1, 3⟩, .finished ⟨"S1", 1, 3⟩ 2] := by decide +kernel

end Pipeline
