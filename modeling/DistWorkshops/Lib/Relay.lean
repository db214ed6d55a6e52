import Mathlib.Algebra.BigOperators.Group.Finset.Basic
import Mathlib.Algebra.Order.BigOperators.Group.Finset
import Mathlib.Data.Fintype.BigOperators
import Mathlib.Data.Multiset.Basic
import Mathlib.Tactic.Abel
import DistWorkshops.Lib.OneChange
import DistWorkshops.Lib.Run

/-!
# Queues through a relay

Producers push items into a transport, a relay hands each item on to one of the consumers that have
joined, and the consumers pull their items one by one. The transport is a parameter: `Transport`
says what its states are and what can be asked of it, and `Lossless` that it behaves like queues, in
which nothing is lost, doubled or overtaken. When it accepts an item, and to which consumer the
relay gives it, is its own affair.

Whatever the order of the steps, no item is lost or doubled (`run_total`), a consumer gets the
items of one producer in their order (`done_sublist`), and all is consumed when nothing can move
(`Resting.empty`). If the relay also takes the consumers in turn while they have room
(`RoundRobin`), their shares differ by at most one item (`balanced`).
-/

set_option autoImplicit false

namespace Relay

variable {ι κ α : Type}

/-! ## Families of queues -/

section Queues

variable [DecidableEq ι]

def push (q : ι → List α) (i : ι) (x : α) : ι → List α := Function.update q i (q i ++ [x])

def pop (q : ι → List α) (i : ι) : ι → List α := Function.update q i (q i).tail

variable {q : ι → List α}

theorem push_self (i : ι) (x : α) : push q i x i = q i ++ [x] := Function.update_self _ _ _

theorem push_of_ne {i j : ι} (h : j ≠ i) (x : α) : push q i x j = q j :=
  Function.update_of_ne h _ _

theorem pop_self (i : ι) : pop q i i = (q i).tail := Function.update_self _ _ _

theorem pop_of_ne {i j : ι} (h : j ≠ i) : pop q i j = q j := Function.update_of_ne h _ _

variable [Fintype ι]

/-- All items of the queues. -/
def total (q : ι → List α) : Multiset α := ∑ i, (q i : Multiset α)

theorem total_update (i : ι) (l : List α) :
    total (Function.update q i l) + (q i : Multiset α) = total q + (l : Multiset α) := by
  have hothers : ∀ j, j ≠ i → (Function.update q i l j : Multiset α) = q j := by
    intro j hj
    rw [Function.update_of_ne hj]
  have hsum := OneChange.sum_add_eq hothers
  rwa [Function.update_self] at hsum

theorem total_push (i : ι) (x : α) : total (push q i x) = total q + {x} := by
  have h := @total_update ι α _ q _ i (q i ++ [x])
  rw [← Multiset.coe_add, Multiset.coe_singleton, add_comm (q i : Multiset α), ← add_assoc] at h
  exact add_right_cancel h

theorem total_pop {i : ι} {x : α} {rest : List α} (h : q i = x :: rest) :
    total (pop q i) + {x} = total q := by
  have hupdate := @total_update ι α _ q _ i (q i).tail
  rw [h, List.tail_cons, ← Multiset.cons_coe, ← Multiset.singleton_add, ← add_assoc] at hupdate
  rw [pop, h, List.tail_cons]
  exact add_right_cancel hupdate

omit [DecidableEq ι] in
theorem total_eq_zero_iff : total q = 0 ↔ ∀ i, q i = [] := by
  rw [total, Finset.sum_eq_zero_iff]
  simp

end Queues

/-! ## The transport -/

/-- A transport with the states `N`: the items that wait at the relay, those that are on their way
to a consumer, the consumers that have joined, and what can be asked of it. `none` is a request
that has to wait. -/
structure Transport (ι κ α N : Type) where
  inbound : N → ι → List α
  outbound : N → κ → List α
  members : N → List κ
  push : N → ι → α → Option N
  join : N → κ → Option N
  /-- An item of the producer `i` goes to the consumer `k`. -/
  forward : N → ι → κ → Option N
  pull : N → κ → Option (α × N)

section Laws

variable [DecidableEq ι] [DecidableEq κ] {N : Type}

/-- The transport behaves like queues. -/
structure Lossless (z : Transport ι κ α N) : Prop where
  push {net net' : N} {i : ι} {x : α} (h : z.push net i x = some net') :
    z.inbound net' = Relay.push (z.inbound net) i x ∧ z.outbound net' = z.outbound net ∧
      z.members net' = z.members net
  join {net net' : N} {k : κ} (h : z.join net k = some net') :
    z.inbound net' = z.inbound net ∧ z.outbound net' = z.outbound net ∧ k ∉ z.members net ∧
      (z.members net').Perm (k :: z.members net)
  forward {net net' : N} {i : ι} {k : κ} (h : z.forward net i k = some net') :
    ∃ x rest, z.inbound net i = x :: rest ∧ z.inbound net' = Relay.pop (z.inbound net) i ∧
      z.outbound net' = Relay.push (z.outbound net) k x ∧ (z.members net').Perm (z.members net)
  pull {net net' : N} {k : κ} {x : α} (h : z.pull net k = some (x, net')) :
    ∃ rest, z.outbound net k = x :: rest ∧ z.outbound net' = Relay.pop (z.outbound net) k ∧
      z.inbound net' = z.inbound net ∧ z.members net' = z.members net
  /-- An item is accepted at the latest when none waits at the relay. -/
  push_ready {net : N} (i : ι) (x : α) (h : ∀ j, z.inbound net j = []) :
    z.push net i x ≠ none
  /-- The relay hands an item on at the latest when none is on its way to a consumer. -/
  forward_ready {net : N} {i : ι} {k : κ} (hi : z.inbound net i ≠ []) (hk : k ∈ z.members net)
    (h : ∀ l, z.outbound net l = []) : ∃ j l, z.forward net j l ≠ none
  pull_ready {net : N} {k : κ} (h : z.outbound net k ≠ []) : z.pull net k ≠ none

/-- The relay takes the consumers in turn, as long as none of them is `full`. -/
structure RoundRobin (z : Transport ι κ α N) (full : N → κ → Prop) : Prop where
  turn {net net' : N} {i : ι} {k : κ} (h : z.forward net i k = some net')
    (hroom : ∀ l ∈ z.members net, ¬ full net l) :
    ∃ ks, z.members net = k :: ks ∧ z.members net' = ks ++ [k]

/-- Nothing is on its way, and nobody has joined. -/
structure Transport.Fresh (z : Transport ι κ α N) (net : N) : Prop where
  inbound : ∀ i, z.inbound net i = []
  outbound : ∀ k, z.outbound net k = []
  members : z.members net = []

end Laws

/-! ## The relay -/

structure State (ι κ α N : Type) where
  /-- What each producer still has to send. -/
  todo : ι → List α
  net : N
  done : κ → List α

inductive Act (ι κ : Type) where
  | send (i : ι)
  | join (k : κ)
  | forward (i : ι) (k : κ)
  | consume (k : κ)
  deriving DecidableEq

variable {N : Type}

def start (items : ι → List α) (net : N) : State ι κ α N := ⟨items, net, fun _ => []⟩

variable [DecidableEq ι] [DecidableEq κ]

/-- One step; `none` when it has to wait. -/
def step (z : Transport ι κ α N) (s : State ι κ α N) : Act ι κ → Option (State ι κ α N)
  | .send i => match s.todo i with
      | [] => none
      | x :: _ => (z.push s.net i x).map fun net => { s with todo := pop s.todo i, net := net }
  | .join k => (z.join s.net k).map fun net => { s with net := net }
  | .forward i k => (z.forward s.net i k).map fun net => { s with net := net }
  | .consume k => (z.pull s.net k).map fun p => { s with net := p.2, done := push s.done k p.1 }

def run (z : Transport ι κ α N) (s : State ι κ α N) (acts : List (Act ι κ)) :
    Option (State ι κ α N) :=
  acts.foldlM (step z) s

/-- What a step of a lossless transport can do. -/
inductive Step (z : Transport ι κ α N) (s s' : State ι κ α N) : Act ι κ → Prop
  | send (i : ι) (x : α) (rest : List α) (htodo : s.todo i = x :: rest)
      (htodo' : s'.todo = pop s.todo i) (hin : z.inbound s'.net = push (z.inbound s.net) i x)
      (hout : z.outbound s'.net = z.outbound s.net) (hmembers : z.members s'.net = z.members s.net)
      (hdone : s'.done = s.done) : Step z s s' (.send i)
  | join (k : κ) (htodo : s'.todo = s.todo) (hin : z.inbound s'.net = z.inbound s.net)
      (hout : z.outbound s'.net = z.outbound s.net) (hnew : k ∉ z.members s.net)
      (hmembers : (z.members s'.net).Perm (k :: z.members s.net)) (hdone : s'.done = s.done) :
      Step z s s' (.join k)
  | forward (i : ι) (k : κ) (x : α) (rest : List α) (hinbound : z.inbound s.net i = x :: rest)
      (htodo : s'.todo = s.todo) (hin : z.inbound s'.net = pop (z.inbound s.net) i)
      (hout : z.outbound s'.net = push (z.outbound s.net) k x)
      (hmembers : (z.members s'.net).Perm (z.members s.net)) (hdone : s'.done = s.done)
      (hforward : z.forward s.net i k = some s'.net) : Step z s s' (.forward i k)
  | consume (k : κ) (x : α) (rest : List α) (houtbound : z.outbound s.net k = x :: rest)
      (htodo : s'.todo = s.todo) (hin : z.inbound s'.net = z.inbound s.net)
      (hout : z.outbound s'.net = pop (z.outbound s.net) k)
      (hmembers : z.members s'.net = z.members s.net) (hdone : s'.done = push s.done k x) :
      Step z s s' (.consume k)

variable {z : Transport ι κ α N} {s s' : State ι κ α N}

theorem step_cases (hz : Lossless z) {act : Act ι κ} (h : step z s act = some s') :
    Step z s s' act := by
  cases act with
  | send i =>
      cases htodo : s.todo i with
      | nil => simp [step, htodo] at h
      | cons x rest =>
          simp only [step, htodo] at h
          obtain ⟨net, hnet, rfl⟩ := Option.map_eq_some_iff.mp h
          obtain ⟨hin, hout, hmembers⟩ := hz.push hnet
          exact .send i x rest htodo rfl hin hout hmembers rfl
  | join k =>
      obtain ⟨net, hnet, rfl⟩ := Option.map_eq_some_iff.mp h
      obtain ⟨hin, hout, hnew, hmembers⟩ := hz.join hnet
      exact .join k rfl hin hout hnew hmembers rfl
  | forward i k =>
      obtain ⟨net, hnet, rfl⟩ := Option.map_eq_some_iff.mp h
      obtain ⟨x, rest, hinbound, hin, hout, hmembers⟩ := hz.forward hnet
      exact .forward i k x rest hinbound rfl hin hout hmembers rfl hnet
  | consume k =>
      obtain ⟨⟨x, net⟩, hnet, rfl⟩ := Option.map_eq_some_iff.mp h
      obtain ⟨rest, houtbound, hout, hin, hmembers⟩ := hz.pull hnet
      exact .consume k x rest houtbound rfl hin hout hmembers rfl

/-- **The invariant rule** for runs over a lossless transport. -/
theorem run_invariant (hz : Lossless z) (P : State ι κ α N → Prop) {acts : List (Act ι κ)}
    (keep : ∀ s s', ∀ act ∈ acts, Step z s s' act → P s → P s') (start : P s)
    (h : run z s acts = some s') : P s' :=
  Run.invariant_foldlM start (fun s s' act hmem hs hstep => keep s s' act hmem
    (step_cases hz hstep) hs) h

/-! ## No item is lost or doubled -/

section Total

variable [Fintype ι] [Fintype κ]

/-- All items, wherever they are. -/
def State.total (z : Transport ι κ α N) (s : State ι κ α N) : Multiset α :=
  Relay.total s.todo + Relay.total (z.inbound s.net) +
    (Relay.total (z.outbound s.net) + Relay.total s.done)

theorem Step.total_eq {act : Act ι κ} (h : Step z s s' act) : s'.total z = s.total z := by
  unfold State.total
  cases h with
  | send i x rest htodo htodo' hin hout hmembers hdone =>
      rw [htodo', hin, hout, hdone, total_push, ← total_pop htodo]
      abel
  | join k htodo hin hout hnew hmembers hdone => rw [htodo, hin, hout, hdone]
  | forward i k x rest hinbound htodo hin hout hmembers hdone hforward =>
      rw [htodo, hin, hout, hdone, total_push, ← total_pop hinbound]
      abel
  | consume k x rest houtbound htodo hin hout hmembers hdone =>
      rw [htodo, hin, hout, hdone, total_push, ← total_pop houtbound]
      abel

/-- **Conservation**: at any time the items are where they were at the start, on their way, or
consumed. -/
theorem run_total (hz : Lossless z) {acts : List (Act ι κ)} (h : run z s acts = some s') :
    s'.total z = s.total z :=
  run_invariant hz (fun t => t.total z = s.total z)
    (fun _ _ _ _ hstep ht => hstep.total_eq.trans ht) rfl h

omit [DecidableEq ι] [DecidableEq κ] in
theorem start_total (items : ι → List α) {net : N} (hfresh : z.Fresh net) :
    (start items net : State ι κ α N).total z = Relay.total items := by
  have hdone : Relay.total (start items net : State ι κ α N).done = 0 :=
    total_eq_zero_iff.mpr fun _ => rfl
  have hinbound : Relay.total (z.inbound (start items net : State ι κ α N).net) = 0 :=
    total_eq_zero_iff.mpr hfresh.inbound
  have houtbound : Relay.total (z.outbound (start items net : State ι κ α N).net) = 0 :=
    total_eq_zero_iff.mpr hfresh.outbound
  rw [State.total, hinbound, houtbound, hdone, add_zero, add_zero, add_zero]
  rfl

end Total

/-! ## Coming to rest -/

/-- No step of a producer, of the relay or of a consumer is possible. -/
def Resting (z : Transport ι κ α N) (s : State ι κ α N) : Prop :=
  ∀ act, (∀ k, act ≠ .join k) → step z s act = none

/-- **The relay rests only when all is consumed**, as long as there is a consumer. -/
theorem Resting.empty (hz : Lossless z) (h : Resting z s) (hmembers : z.members s.net ≠ []) :
    (∀ i, s.todo i = []) ∧ (∀ i, z.inbound s.net i = []) ∧ ∀ k, z.outbound s.net k = [] := by
  -- from the consumers back to the producers: what is empty there makes the next step possible
  have houtbound : ∀ k, z.outbound s.net k = [] := fun k => by
    by_contra hne
    have hnone := Option.map_eq_none_iff.mp (h (.consume k) fun _ he => by cases he)
    exact hz.pull_ready hne hnone
  have hinbound : ∀ i, z.inbound s.net i = [] := fun i => by
    by_contra hne
    obtain ⟨k, hk⟩ := List.exists_mem_of_ne_nil _ hmembers
    obtain ⟨j, l, hforward⟩ := hz.forward_ready hne hk houtbound
    exact hforward (Option.map_eq_none_iff.mp (h (.forward j l) fun _ he => by cases he))
  refine ⟨fun i => ?_, hinbound, houtbound⟩
  cases htodo : s.todo i with
  | nil => rfl
  | cons x rest =>
      have hnone := h (.send i) fun _ he => by cases he
      simp only [step, htodo] at hnone
      exact absurd (Option.map_eq_none_iff.mp hnone) (hz.push_ready i x hinbound)

/-! ## The order of the items of one producer -/

section Order

variable {β : Type} [DecidableEq β] (origin : α → β) (own : ι → β) (items : ι → List α)

/-- What has passed the relay, what is on its way to it and what is still to be sent are the items
of the producer in order, and each consumer has got some of those that have passed, in order. -/
structure Ordered (z : Transport ι κ α N) (s : State ι κ α N) (i : ι) (passed : List α) :
    Prop where
  split : items i = passed ++ (z.inbound s.net i ++ s.todo i)
  shares : ∀ k,
    List.Sublist ((s.done k ++ z.outbound s.net k).filter fun x => origin x = own i) passed

variable {origin own items} {act : Act ι κ}

omit [DecidableEq ι] [DecidableEq κ] in
theorem start_ordered {net : N} (hfresh : z.Fresh net) (i : ι) :
    Ordered origin own items z (start items net) i [] where
  split := by
    show items i = z.inbound net i ++ items i
    rw [hfresh.inbound i]
    rfl
  shares k := by
    show List.Sublist (([] ++ z.outbound net k).filter _) []
    rw [hfresh.outbound k]
    exact List.Sublist.refl _

omit [DecidableEq ι] [DecidableEq κ] in
/-- Whatever waits at the relay is from the producer in whose queue it is. -/
theorem origin_of_inbound (horigin : ∀ i, ∀ x ∈ items i, origin x = own i) {i : ι}
    {passed : List α} (ho : Ordered origin own items z s i passed) {x : α}
    (hx : x ∈ z.inbound s.net i) : origin x = own i := by
  apply horigin i x
  rw [ho.split]
  exact List.mem_append_right _ (List.mem_append_left _ hx)

/-- **One step keeps the order.** -/
theorem Step.ordered (horigin : ∀ i, ∀ x ∈ items i, origin x = own i)
    (hown : Function.Injective own) (h : Step z s s' act)
    (hall : ∀ i, ∃ passed, Ordered origin own items z s i passed) (i : ι) :
    ∃ passed, Ordered origin own items z s' i passed := by
  obtain ⟨passed, ho⟩ := hall i
  cases h with
  | send j x rest htodo htodo' hin hout hmembers hdone =>
      refine ⟨passed, ?_, fun l => ?_⟩
      · rw [ho.split, hin, htodo']
        by_cases hij : i = j
        · subst hij
          rw [push_self, pop_self, htodo, List.tail_cons, List.append_assoc]
          rfl
        · rw [push_of_ne hij, pop_of_ne hij]
      · rw [hdone, hout]
        exact ho.shares l
  | join k htodo hin hout hnew hmembers hdone =>
      refine ⟨passed, ?_, fun l => ?_⟩
      · rw [ho.split, hin, htodo]
      · rw [hdone, hout]
        exact ho.shares l
  | forward j k x rest hinbound htodo hin hout hmembers hdone hforward =>
      -- only the share of `k` gets the item, and only if it is one of `i`
      have hshare : ∀ l, ((s.done l ++ push (z.outbound s.net) k x l).filter
            fun x => origin x = own i)
          = ((s.done l ++ z.outbound s.net l).filter fun x => origin x = own i) ++
            if l = k ∧ origin x = own i then [x] else [] := by
        intro l
        by_cases hl : l = k
        · subst hl
          rw [push_self, ← List.append_assoc, List.filter_append]
          simp [List.filter_singleton]
        · rw [push_of_ne hl, if_neg fun h => hl h.1, List.append_nil]
      by_cases hij : i = j
      · subst hij
        refine ⟨passed ++ [x], ?_, fun l => ?_⟩
        · rw [ho.split, hin, htodo, pop_self, hinbound, List.tail_cons, List.append_assoc]
          rfl
        · rw [hdone, hout, hshare]
          refine List.Sublist.append (ho.shares l) ?_
          split
          · exact List.Sublist.refl _
          · exact List.nil_sublist _
      · -- an item of another producer
        have hx : origin x ≠ own i := by
          obtain ⟨passed', ho'⟩ := hall j
          rw [origin_of_inbound horigin ho' (hinbound ▸ List.mem_cons_self)]
          exact fun h => hij (hown h.symm)
        refine ⟨passed, ?_, fun l => ?_⟩
        · rw [ho.split, hin, htodo, pop_of_ne hij]
        · rw [hdone, hout, hshare, if_neg fun h => hx h.2, List.append_nil]
          exact ho.shares l
  | consume k x rest houtbound htodo hin hout hmembers hdone =>
      refine ⟨passed, ?_, fun l => ?_⟩
      · rw [ho.split, hin, htodo]
      -- consuming moves an item inside the share of its consumer
      · have hsame : push s.done k x l ++ pop (z.outbound s.net) k l
            = s.done l ++ z.outbound s.net l := by
          by_cases hl : l = k
          · subst hl
            rw [push_self, pop_self, houtbound, List.append_assoc]
            rfl
          · rw [push_of_ne hl, pop_of_ne hl]
        rw [hdone, hout, hsame]
        exact ho.shares l

/-- **A consumer gets the items of one producer in their order.** -/
theorem done_sublist (hz : Lossless z) {net : N} (hfresh : z.Fresh net)
    (horigin : ∀ i, ∀ x ∈ items i, origin x = own i) (hown : Function.Injective own)
    {acts : List (Act ι κ)} (hrun : run z (start items net) acts = some s) (i : ι) (k : κ) :
    List.Sublist ((s.done k).filter fun x => origin x = own i) (items i) := by
  have hall := run_invariant hz (fun t => ∀ i, ∃ passed, Ordered origin own items z t i passed)
    (fun _ _ _ _ hstep hall => hstep.ordered horigin hown hall)
    (fun i => ⟨[], start_ordered hfresh i⟩) hrun
  obtain ⟨passed, ho⟩ := hall i
  have hshare := ho.shares k
  rw [List.filter_append] at hshare
  rw [ho.split]
  exact ((List.sublist_append_left _ _).trans hshare).trans (List.sublist_append_left _ _)

end Order

/-! ## Even shares -/

section Shares

variable {act : Act ι κ}

/-- The number of items a consumer has been given. -/
def State.given (z : Transport ι κ α N) (s : State ι κ α N) (k : κ) : ℕ :=
  (s.done k).length + (z.outbound s.net k).length

theorem Step.given_forward {i : ι} {k : κ} (h : Step z s s' (.forward i k)) (l : κ) :
    s'.given z l = s.given z l + if l = k then 1 else 0 := by
  cases h with
  | forward i k x rest hinbound htodo hin hout hmembers hdone hforward =>
      rw [State.given, State.given, hdone, hout]
      by_cases hl : l = k
      · subst hl
        rw [push_self, List.length_append, if_pos rfl]
        rfl
      · rw [push_of_ne hl, if_neg hl, Nat.add_zero]

/-- The other steps give nobody an item. -/
theorem Step.given_eq (h : Step z s s' act) (hact : ∀ i k, act ≠ .forward i k) (l : κ) :
    s'.given z l = s.given z l := by
  unfold State.given
  cases h with
  | send i x rest htodo htodo' hin hout hmembers hdone => rw [hdone, hout]
  | join k htodo hin hout hnew hmembers hdone => rw [hdone, hout]
  | forward i k x rest hinbound htodo hin hout hmembers hdone hforward =>
      exact absurd rfl (hact i k)
  | consume k x rest houtbound htodo hin hout hmembers hdone =>
      rw [hdone, hout]
      by_cases hl : l = k
      · subst hl
        rw [push_self, pop_self, houtbound, List.length_append, List.tail_cons,
          List.length_singleton, List.length_cons]
        omega
      · rw [push_of_ne hl, pop_of_ne hl]

theorem Step.nodup (h : Step z s s' act) (hnodup : (z.members s.net).Nodup) :
    (z.members s'.net).Nodup := by
  cases h with
  | send i x rest htodo htodo' hin hout hmembers hdone => rwa [hmembers]
  | join k htodo hin hout hnew hmembers hdone =>
      exact hmembers.nodup_iff.mpr (List.nodup_cons.mpr ⟨hnew, hnodup⟩)
  | forward i k x rest hinbound htodo hin hout hmembers hdone hforward =>
      exact hmembers.nodup_iff.mpr hnodup
  | consume k x rest houtbound htodo hin hout hmembers hdone => rwa [hmembers]

/-- No consumer is twice in the rotation. -/
theorem run_nodup (hz : Lossless z) {items : ι → List α} {net : N} (hfresh : z.Fresh net)
    {acts : List (Act ι κ)} (h : run z (start items net) acts = some s) :
    (z.members s.net).Nodup := by
  refine run_invariant hz (fun t => (z.members t.net).Nodup)
    (fun _ _ _ _ hstep hnodup => hstep.nodup hnodup) ?_ h
  show (z.members net).Nodup
  rw [hfresh.members]
  exact List.nodup_nil

/-- A consumer once in the rotation stays in it. -/
theorem Step.mem_members (h : Step z s s' act) {k : κ} (hk : k ∈ z.members s.net) :
    k ∈ z.members s'.net := by
  cases h with
  | send i x rest htodo htodo' hin hout hmembers hdone => rwa [hmembers]
  | join l htodo hin hout hnew hmembers hdone =>
      exact hmembers.mem_iff.mpr (List.mem_cons_of_mem _ hk)
  | forward i l x rest hinbound htodo hin hout hmembers hdone hforward =>
      exact hmembers.mem_iff.mpr hk
  | consume l x rest houtbound htodo hin hout hmembers hdone => rwa [hmembers]

/-- Since the shares were `base`, the consumers at the front of the rotation have been given `m`
items, and those behind them one more. -/
def Even (z : Transport ι κ α N) (base : κ → ℕ) (s : State ι κ α N) : Prop :=
  (z.members s.net).Nodup ∧ ∃ m late early, z.members s.net = late ++ early ∧
    (∀ k ∈ late, s.given z k = base k + m) ∧ ∀ k ∈ early, s.given z k = base k + m + 1

omit [DecidableEq ι] [DecidableEq κ] in
theorem even_given (hnodup : (z.members s.net).Nodup) : Even z (s.given z) s :=
  ⟨hnodup, 0, z.members s.net, [], (List.append_nil _).symm, fun _ _ => rfl,
    fun _ hk => by cases hk⟩

omit [DecidableEq ι] [DecidableEq κ] in
/-- The next consumer is one that has been given the least. -/
theorem Even.next {base : κ → ℕ} (h : Even z base s) {k : κ} {ks : List κ}
    (hmembers : z.members s.net = k :: ks) :
    ∃ m late early, ks = late ++ early ∧ s.given z k = base k + m ∧
      (∀ l ∈ late, s.given z l = base l + m) ∧ ∀ l ∈ early, s.given z l = base l + m + 1 := by
  obtain ⟨-, m, late, early, hsplit, hlate, hearly⟩ := h
  rw [hmembers] at hsplit
  cases late with
  | cons l late =>
      obtain ⟨rfl, rfl⟩ := List.cons.inj hsplit
      exact ⟨m, late, early, rfl, hlate k List.mem_cons_self,
        fun l hl => hlate l (List.mem_cons_of_mem _ hl), hearly⟩
  | nil =>
      -- the round is over, and all have been given the same
      rw [List.nil_append] at hsplit
      subst hsplit
      exact ⟨m + 1, ks, [], (List.append_nil _).symm, hearly k List.mem_cons_self,
        fun l hl => hearly l (List.mem_cons_of_mem _ hl), fun l hl => by cases hl⟩

omit [DecidableEq ι] [DecidableEq κ] in
theorem Even.of_given {base : κ → ℕ} (h : Even z base s)
    (hmembers : z.members s'.net = z.members s.net)
    (hgiven : ∀ k, s'.given z k = s.given z k) : Even z base s' := by
  obtain ⟨hnodup, m, late, early, hsplit, hlate, hearly⟩ := h
  refine ⟨hmembers ▸ hnodup, m, late, early, hmembers.trans hsplit, fun k hk => ?_,
    fun k hk => ?_⟩
  · rw [hgiven]
    exact hlate k hk
  · rw [hgiven]
    exact hearly k hk

/-- **One step keeps the shares even**, as long as nobody joins and nobody is full. -/
theorem Step.even {full : N → κ → Prop} (hr : RoundRobin z full) {base : κ → ℕ}
    (h : Step z s s' act) (hact : ∀ k, act ≠ .join k)
    (hroom : ∀ k ∈ z.members s.net, ¬ full s.net k) (he : Even z base s) : Even z base s' := by
  have hnodup := h.nodup he.1
  have hgiven := h
  cases h with
  | send i x rest htodo htodo' hin hout hmembers hdone =>
      exact he.of_given hmembers (hgiven.given_eq fun _ _ he => by cases he)
  | join k htodo hin hout hnew hmembers hdone => exact absurd rfl (hact k)
  | forward i k x rest hinbound htodo hin hout hmembers hdone hforward =>
      obtain ⟨ks, hmembers, hmembers'⟩ := hr.turn hforward hroom
      obtain ⟨m, late, early, rfl, hk, hlate, hearly⟩ := he.next hmembers
      -- `k` goes to the end of the rotation with one item more
      have hk' : k ∉ late ++ early := (List.nodup_cons.mp (hmembers ▸ he.1)).1
      refine ⟨hnodup, m, late, early ++ [k], hmembers'.trans (List.append_assoc _ _ _),
        fun l hl => ?_, fun l hl => ?_⟩
      · have hne : l ≠ k := fun h => hk' (h ▸ List.mem_append_left _ hl)
        rw [hgiven.given_forward, if_neg hne]
        exact hlate l hl
      · rw [hgiven.given_forward]
        rcases List.mem_append.mp hl with hl | hl
        · have hne : l ≠ k := fun h => hk' (h ▸ List.mem_append_right _ hl)
          rw [if_neg hne]
          exact hearly l hl
        · rw [List.mem_singleton.mp hl, if_pos rfl, hk]
  | consume k x rest houtbound htodo hin hout hmembers hdone =>
      exact he.of_given hmembers (hgiven.given_eq fun _ _ he => by cases he)

/-- In all states of the run before its last step every member has room. -/
def Roomy (z : Transport ι κ α N) (full : N → κ → Prop) (s : State ι κ α N) :
    List (Act ι κ) → Prop
  | [] => True
  | act :: acts => (∀ k ∈ z.members s.net, ¬ full s.net k) ∧
      ∀ s' ∈ step z s act, Roomy z full s' acts

/-- Along such a run the shares stay even, and the consumers stay. -/
theorem run_even (hz : Lossless z) {full : N → κ → Prop} (hr : RoundRobin z full)
    {base : κ → ℕ} {acts : List (Act ι κ)} (hacts : ∀ k, .join k ∉ acts)
    (hroom : Roomy z full s acts) (h : run z s acts = some s') (he : Even z base s) :
    Even z base s' ∧ ∀ k ∈ z.members s.net, k ∈ z.members s'.net := by
  induction acts generalizing s with
  | nil =>
      obtain rfl : s = s' := Option.some.inj h
      exact ⟨he, fun _ hk => hk⟩
  | cons act acts ih =>
      obtain ⟨mid, hmid, hrest⟩ := Option.bind_eq_some_iff.mp h
      have hstep := step_cases hz hmid
      have heven := hstep.even hr (fun k hk => hacts k (hk ▸ List.mem_cons_self)) hroom.1 he
      obtain ⟨hend, hmem⟩ := ih (fun k hk => hacts k (List.mem_cons_of_mem _ hk))
        (hroom.2 mid hmid) hrest heven
      exact ⟨hend, fun k hk => hmem k (hstep.mem_members hk)⟩

/-- **The shares stay even.** While nobody joins and nobody is full, what two consumers are given
differs by at most one item. -/
theorem balanced (hz : Lossless z) {full : N → κ → Prop} (hr : RoundRobin z full)
    (hnodup : (z.members s.net).Nodup) {acts : List (Act ι κ)} (hacts : ∀ k, .join k ∉ acts)
    (hroom : Roomy z full s acts) (h : run z s acts = some s') {k l : κ}
    (hk : k ∈ z.members s.net) (hl : l ∈ z.members s.net) :
    s'.given z k + s.given z l ≤ s'.given z l + s.given z k + 1 := by
  obtain ⟨⟨-, m, late, early, hsplit, hlate, hearly⟩, hmem⟩ :=
    run_even hz hr hacts hroom h (even_given hnodup)
  -- a consumer has been given `m` items or one more, by its place in the rotation
  have hbounds : ∀ k ∈ z.members s.net, s.given z k + m ≤ s'.given z k ∧
      s'.given z k ≤ s.given z k + m + 1 := by
    intro k hk
    have hkr := hmem k hk
    rw [hsplit] at hkr
    rcases List.mem_append.mp hkr with h | h
    · have := hlate k h
      omega
    · have := hearly k h
      omega
  have := hbounds k hk
  have := hbounds l hl
  omega

end Shares

/-! ## Bounded queues -/

/-- The queues of a relay, and the consumers, the one whose turn it is first. -/
structure Queues (ι κ α : Type) where
  inbound : ι → List α
  outbound : κ → List α
  members : List κ

/-- Queues with room for `room` items each. A consumer whose queue is full is passed over. -/
def queues (room : ℕ) : Transport ι κ α (Queues ι κ α) where
  inbound := Queues.inbound
  outbound := Queues.outbound
  members := Queues.members
  push q i x :=
    if (q.inbound i).length < room then some { q with inbound := push q.inbound i x } else none
  join q k := if k ∈ q.members then none else some { q with members := q.members ++ [k] }
  forward q i k := match q.inbound i with
    | [] => none
    | x :: _ =>
        if q.members.find? (fun l => (q.outbound l).length < room) = some k then
          some ⟨pop q.inbound i, push q.outbound k x, q.members.erase k ++ [k]⟩
        else none
  pull q k := match q.outbound k with
    | [] => none
    | x :: _ => some (x, { q with outbound := pop q.outbound k })

theorem queues_forward {room : ℕ} {q q' : Queues ι κ α} {i : ι} {k : κ}
    (h : (queues room).forward q i k = some q') :
    ∃ x rest, q.inbound i = x :: rest ∧
      q.members.find? (fun l => (q.outbound l).length < room) = some k ∧
      q' = ⟨pop q.inbound i, push q.outbound k x, q.members.erase k ++ [k]⟩ := by
  cases hin : q.inbound i with
  | nil => simp [queues, hin] at h
  | cons x rest =>
      simp only [queues, hin] at h
      split at h
      · exact ⟨x, rest, rfl, ‹_›, (Option.some.inj h).symm⟩
      · cases h

/-- Queues with room lose nothing. -/
theorem queues_lossless {room : ℕ} (hroom : 0 < room) :
    Lossless (queues room : Transport ι κ α (Queues ι κ α)) where
  push {net net' i x} h := by
    simp only [queues] at h
    split at h
    · obtain rfl := Option.some.inj h
      exact ⟨rfl, rfl, rfl⟩
    · cases h
  join {net net' k} h := by
    simp only [queues] at h
    split at h
    · cases h
    · obtain rfl := Option.some.inj h
      exact ⟨rfl, rfl, ‹_›, List.perm_append_singleton k net.members⟩
  forward {net net' i k} h := by
    obtain ⟨x, rest, hin, hfind, rfl⟩ := queues_forward h
    refine ⟨x, rest, hin, rfl, rfl, ?_⟩
    exact (List.perm_append_singleton k _).trans
      (List.perm_cons_erase (List.mem_of_find?_eq_some hfind)).symm
  pull {net net' k x} h := by
    cases hout : net.outbound k with
    | nil => simp [queues, hout] at h
    | cons y rest =>
        simp only [queues, hout] at h
        obtain ⟨rfl, rfl⟩ := Prod.mk.inj (Option.some.inj h)
        exact ⟨rest, hout, rfl, rfl, rfl⟩
  push_ready {net} i x h := by
    have hempty : net.inbound i = [] := h i
    simp [queues, hempty, hroom]
  forward_ready {net i k} hi hk h := by
    obtain ⟨x, rest, hin⟩ := List.exists_cons_of_ne_nil (show net.inbound i ≠ [] from hi)
    obtain ⟨l, ls, hmembers⟩ := List.exists_cons_of_ne_nil (List.ne_nil_of_mem hk)
    have hl : net.outbound l = [] := h l
    have hcons : net.members = l :: ls := hmembers
    refine ⟨i, l, ?_⟩
    simp [queues, hin, hcons, hl, hroom]
  pull_ready {net k} h := by
    obtain ⟨x, rest, hout⟩ := List.exists_cons_of_ne_nil (show net.outbound k ≠ [] from h)
    simp [queues, hout]

/-- While all have room, the first of the rotation is served. -/
theorem queues_roundRobin (room : ℕ) :
    RoundRobin (queues room : Transport ι κ α (Queues ι κ α))
      (fun q k => room ≤ (q.outbound k).length) where
  turn {net net' i k} h hroom := by
    obtain ⟨x, rest, -, hfind, rfl⟩ := queues_forward h
    obtain ⟨l, ls, hcons⟩ := List.exists_cons_of_ne_nil
      (List.ne_nil_of_mem (List.mem_of_find?_eq_some hfind))
    have hl : (net.outbound l).length < room :=
      Nat.lt_of_not_le (hroom l (show l ∈ net.members from hcons ▸ List.mem_cons_self))
    rw [hcons, List.find?_cons_of_pos (by simpa using hl)] at hfind
    obtain rfl := Option.some.inj hfind
    refine ⟨ls, hcons, ?_⟩
    show net.members.erase l ++ [l] = ls ++ [l]
    rw [hcons, List.erase_cons_head]

omit [DecidableEq ι] [DecidableEq κ] in
theorem length_outbound_le [Fintype ι] [Fintype κ] (s : State ι κ α N) (k : κ) :
    (z.outbound s.net k).length ≤ Multiset.card (s.total z) := by
  have hk := Finset.single_le_sum (f := fun l => (z.outbound s.net l).length)
    (fun _ _ => Nat.zero_le _) (Finset.mem_univ k)
  have hcard : Multiset.card (Relay.total (z.outbound s.net))
      = ∑ l, (z.outbound s.net l).length := Multiset.card_sum _ _
  rw [State.total, Multiset.card_add, Multiset.card_add, Multiset.card_add, hcard]
  omega

/-- With more room than there are items, no queue is ever full. -/
theorem queues_roomy [Fintype ι] [Fintype κ] {room : ℕ}
    {s : State ι κ α (Queues ι κ α)} (hlt : Multiset.card (s.total (queues room)) < room)
    (acts : List (Act ι κ)) :
    Roomy (queues room) (fun q k => room ≤ (q.outbound k).length) s acts := by
  induction acts generalizing s with
  | nil => trivial
  | cons act acts ih =>
      refine ⟨fun k _ => Nat.not_le_of_lt ((length_outbound_le s k).trans_lt hlt),
        fun s' hs' => ih ?_⟩
      rwa [(step_cases (queues_lossless (Nat.zero_lt_of_lt hlt)) hs').total_eq]

/-- Before anybody has joined. -/
def Queues.empty : Queues ι κ α := ⟨fun _ => [], fun _ => [], []⟩

theorem queues_fresh (room : ℕ) :
    (queues room : Transport ι κ α (Queues ι κ α)).Fresh Queues.empty :=
  ⟨fun _ => rfl, fun _ => rfl, rfl⟩

end Relay
