import Mathlib.Algebra.BigOperators.Group.Finset.Basic
import Mathlib.Data.Fintype.Card
import Mathlib.Data.Set.Insert
import Mathlib.Logic.Relation
import Mathlib.Order.WellFounded
import DistWorkshops.Lib.OneChange
import DistWorkshops.Lib.Run

/-!
# Row locks that are held until the commit

Sessions run programs over shared rows. A program takes exclusive locks one at a time, adds to
rows under their locks, and commits, which publishes what it wrote and releases its locks. A
session that asks for a lock another one holds waits.

Two facts follow when every program takes its locks in ascending order (`Ascending`): no set of
sessions waits in a circle (`not_waits_for_itself`), and no addition is lost
(`committed_of_done`).
-/

set_option autoImplicit false

namespace Locking

variable {ι ρ V : Type}

inductive Op (ρ V : Type) where
  | lock (r : ρ)
  | add (r : ρ) (delta : V)
  | commit

/-- What is left of each program, who holds each lock, what each session has written and not
committed, and the committed rows. -/
structure State (ι ρ V : Type) where
  todo : ι → List (Op ρ V)
  owner : ρ → Option ι
  own : ι → ρ → Option V
  committed : ρ → V

/-- The value a session reads: its own, or the committed one. -/
def State.read (s : State ι ρ V) (i : ι) (r : ρ) : V := (s.own i r).getD (s.committed r)

def start (programs : ι → List (Op ρ V)) (rows : ρ → V) : State ι ρ V :=
  ⟨programs, fun _ => none, fun _ _ => none, rows⟩

section Steps

variable [DecidableEq ι] [DecidableEq ρ] [AddCommGroup V]

def State.acquire (s : State ι ρ V) (i : ι) (r : ρ) : State ι ρ V :=
  { s with owner := Function.update s.owner r (some i) }

def State.write (s : State ι ρ V) (i : ι) (r : ρ) (delta : V) : State ι ρ V :=
  { s with own := Function.update s.own i (Function.update (s.own i) r
      (some (s.read i r + delta))) }

def State.commit (s : State ι ρ V) (i : ι) : State ι ρ V :=
  { s with
    owner := fun r => if s.owner r = some i then none else s.owner r
    own := Function.update s.own i fun _ => none
    committed := s.read i }

/-- The session has done its next operation. -/
def State.advance (s : State ι ρ V) (i : ι) (rest : List (Op ρ V)) : State ι ρ V :=
  { s with todo := Function.update s.todo i rest }

/-- The next operation of a session. A session that is done stays as it is, and so does one that
waits. -/
def step (s : State ι ρ V) (i : ι) : State ι ρ V :=
  match s.todo i with
  | [] => s
  | .lock r :: rest => match s.owner r with
      | none => (s.acquire i r).advance i rest
      | some j => if j = i then s.advance i rest else s
  | .add r delta :: rest => (s.write i r delta).advance i rest
  | .commit :: rest => (s.commit i).advance i rest

/-- What a step can do. -/
inductive Step (s : State ι ρ V) (i : ι) : State ι ρ V → Prop
  | stay : Step s i s
  | acquire (r : ρ) (rest : List (Op ρ V)) (htodo : s.todo i = .lock r :: rest)
      (hfree : s.owner r = none) : Step s i ((s.acquire i r).advance i rest)
  | again (r : ρ) (rest : List (Op ρ V)) (htodo : s.todo i = .lock r :: rest)
      (hheld : s.owner r = some i) : Step s i (s.advance i rest)
  | write (r : ρ) (delta : V) (rest : List (Op ρ V)) (htodo : s.todo i = .add r delta :: rest) :
      Step s i ((s.write i r delta).advance i rest)
  | commit (rest : List (Op ρ V)) (htodo : s.todo i = .commit :: rest) :
      Step s i ((s.commit i).advance i rest)

theorem step_spec (s : State ι ρ V) (i : ι) : Step s i (step s i) := by
  unfold step
  cases htodo : s.todo i with
  | nil => exact .stay
  | cons op rest =>
      cases op with
      | lock r =>
          cases howner : s.owner r with
          | none =>
              simp only [howner]
              exact .acquire r rest htodo howner
          | some j =>
              simp only [howner]
              by_cases hj : j = i
              · rw [if_pos hj]
                exact .again r rest htodo (hj ▸ howner)
              · rw [if_neg hj]
                exact .stay
      | add r delta => exact .write r delta rest htodo
      | commit => exact .commit rest htodo

end Steps

/-! ## Who holds a lock -/

def State.held (s : State ι ρ V) (i : ι) : Set ρ := {r | s.owner r = some i}

theorem held_acquire [DecidableEq ρ] (s : State ι ρ V) (i : ι) (r : ρ) :
    (s.acquire i r).held i = insert r (s.held i) := by
  ext q
  show Function.update s.owner r (some i) q = some i ↔ q = r ∨ s.owner q = some i
  by_cases hq : q = r
  · subst hq
    simp
  · rw [Function.update_of_ne hq]
    simp [hq]

theorem held_acquire_of_ne [DecidableEq ρ] {s : State ι ρ V} {i j : ι} {r : ρ}
    (hfree : s.owner r = none) (hj : j ≠ i) : (s.acquire i r).held j = s.held j := by
  ext q
  show Function.update s.owner r (some i) q = some j ↔ s.owner q = some j
  by_cases hq : q = r
  · subst hq
    rw [Function.update_self, hfree]
    simp [Ne.symm hj]
  · rw [Function.update_of_ne hq]

theorem held_commit [DecidableEq ι] (s : State ι ρ V) (i : ι) : (s.commit i).held i = ∅ := by
  ext q
  show (if s.owner q = some i then none else s.owner q) = some i ↔ False
  by_cases hq : s.owner q = some i
  · simp [hq]
  · simp [hq]

theorem held_commit_of_ne [DecidableEq ι] (s : State ι ρ V) {i j : ι} (hj : j ≠ i) :
    (s.commit i).held j = s.held j := by
  ext q
  show (if s.owner q = some i then none else s.owner q) = some j ↔ s.owner q = some j
  by_cases hq : s.owner q = some i
  · rw [if_pos hq, hq]
    simp [Ne.symm hj]
  · rw [if_neg hq]

/-! ## The discipline -/

section Discipline

variable [Preorder ρ]

/-- A program that takes every new lock above those it holds, writes under its locks, and ends
without a lock. -/
def Ascending (held : Set ρ) : List (Op ρ V) → Prop
  | [] => held = ∅
  | .lock r :: rest => (r ∈ held ∨ ∀ q ∈ held, q < r) ∧ Ascending (insert r held) rest
  | .add r _ :: rest => r ∈ held ∧ Ascending held rest
  | .commit :: rest => Ascending ∅ rest

/-- The invariant: every program is disciplined from here on, and whoever has written to a row
holds its lock. -/
structure Invariant (s : State ι ρ V) : Prop where
  ascending : ∀ i, Ascending (s.held i) (s.todo i)
  locked : ∀ i r, s.own i r ≠ none → s.owner r = some i

theorem start_invariant {programs : ι → List (Op ρ V)} (rows : ρ → V)
    (h : ∀ i, Ascending ∅ (programs i)) : Invariant (start programs rows) where
  ascending i := by
    have hheld : (start programs rows).held i = ∅ := by
      ext r
      simp [State.held, start]
    rw [hheld]
    exact h i
  locked i r hown := absurd rfl hown

/-- A session that is done holds no lock. -/
theorem Invariant.not_held_of_done {s : State ι ρ V} (hs : Invariant s) {i : ι}
    (hdone : s.todo i = []) (r : ρ) : s.owner r ≠ some i := by
  intro howner
  have hempty := hs.ascending i
  rw [hdone] at hempty
  have hmem : r ∈ s.held i := howner
  rw [show s.held i = ∅ from hempty] at hmem
  exact absurd hmem (Set.notMem_empty r)

/-- Who does not hold the lock of a row has written nothing to it. -/
theorem Invariant.read_of_not_held {s : State ι ρ V} (hs : Invariant s) {i : ι} {r : ρ}
    (h : s.owner r ≠ some i) : s.read i r = s.committed r := by
  have hown : s.own i r = none := by
    by_contra hown
    exact h (hs.locked i r hown)
  rw [State.read, hown]
  rfl

variable [DecidableEq ι]

/-- One session moves on in its program. -/
theorem ascending_advance {s s' : State ι ρ V} {i : ι} {rest : List (Op ρ V)}
    (hs : Invariant s) (htodo : s'.todo = s.todo) (hheld : ∀ j, j ≠ i → s'.held j = s.held j)
    (hi : Ascending (s'.held i) rest) (j : ι) :
    Ascending ((s'.advance i rest).held j) ((s'.advance i rest).todo j) := by
  show Ascending (s'.held j) (Function.update s'.todo i rest j)
  by_cases hj : j = i
  · subst hj
    rw [Function.update_self]
    exact hi
  · rw [Function.update_of_ne hj, hheld j hj, htodo]
    exact hs.ascending j

variable [DecidableEq ρ] [AddCommGroup V]

/-- **One step keeps the invariant.** -/
theorem Step.invariant {s s' : State ι ρ V} {i : ι} (h : Step s i s') (hs : Invariant s) :
    Invariant s' := by
  have hi := hs.ascending i
  cases h with
  | stay => exact hs
  | acquire r rest htodo hfree =>
      rw [htodo] at hi
      refine ⟨ascending_advance hs rfl (fun j hj => held_acquire_of_ne hfree hj) ?_, ?_⟩
      · rw [held_acquire]
        exact hi.2
      · -- nobody has written to a row that was free
        intro j q hown
        have hq := hs.locked j q hown
        have hne : q ≠ r := by
          rintro rfl
          rw [hfree] at hq
          cases hq
        exact (Function.update_of_ne hne _ _).trans hq
  | again r rest htodo hheld =>
      rw [htodo] at hi
      refine ⟨ascending_advance hs rfl (fun _ _ => rfl) ?_, hs.locked⟩
      have hinsert : insert r (s.held i) = s.held i := Set.insert_eq_of_mem hheld
      rw [← hinsert]
      exact hi.2
  | write r delta rest htodo =>
      rw [htodo] at hi
      refine ⟨ascending_advance hs rfl (fun _ _ => rfl) hi.2, ?_⟩
      intro j q hown
      show s.owner q = some j
      by_cases hj : j = i
      · subst hj
        by_cases hq : q = r
        · subst hq
          exact hi.1
        · apply hs.locked j q
          simpa [State.advance, State.write, Function.update_of_ne hq] using hown
      · apply hs.locked j q
        simpa [State.advance, State.write, Function.update_of_ne hj] using hown
  | commit rest htodo =>
      rw [htodo] at hi
      refine ⟨ascending_advance hs rfl (fun j hj => held_commit_of_ne s hj) ?_, ?_⟩
      · rw [held_commit]
        exact hi
      · intro j q hown
        by_cases hj : j = i
        · subst hj
          exact absurd (by simp [State.advance, State.commit]) hown
        · have hheld : q ∈ s.held j := by
            apply hs.locked j q
            simpa [State.advance, State.commit, Function.update_of_ne hj] using hown
          rw [← held_commit_of_ne s hj] at hheld
          exact hheld

/-- The invariant holds along every run. -/
theorem after_invariant {programs : ι → List (Op ρ V)} (rows : ρ → V)
    (h : ∀ i, Ascending ∅ (programs i)) (acts : List ι) :
    Invariant (Run.after step (start programs rows) acts) :=
  Run.invariant Invariant (start_invariant rows h) (fun s i hs => (step_spec s i).invariant hs)
    acts

end Discipline

/-! ## Waiting -/

/-- `i` asks for a lock that `j` holds. -/
def WaitsFor (s : State ι ρ V) (i j : ι) : Prop :=
  ∃ r rest, s.todo i = .lock r :: rest ∧ s.owner r = some j ∧ j ≠ i

section Waiting

variable [Preorder ρ] {s : State ι ρ V}

/-- **Along a wait the lock asked for goes up.** -/
theorem WaitsFor.lt (hs : Invariant s) {i j : ι} {r q : ρ} {rest rest' : List (Op ρ V)}
    (h : WaitsFor s i j) (hi : s.todo i = .lock r :: rest) (hj : s.todo j = .lock q :: rest')
    (hnot : s.owner q ≠ some j) : r < q := by
  obtain ⟨r', rest'', hi', hr, -⟩ := h
  rw [hi] at hi'
  obtain ⟨⟨rfl⟩, rfl⟩ := List.cons.inj hi'
  have hascending := hs.ascending j
  rw [hj] at hascending
  exact (hascending.1.resolve_left hnot) r hr

theorem WaitsFor.transGen_lt (hs : Invariant s) {i j : ι} {r q : ρ} {rest rest' : List (Op ρ V)}
    (h : Relation.TransGen (WaitsFor s) i j) (hi : s.todo i = .lock r :: rest)
    (hj : s.todo j = .lock q :: rest') (hnot : s.owner q ≠ some j) : r < q := by
  induction h generalizing q rest' with
  | single h => exact h.lt hs hi hj hnot
  | @tail k j _ h ih =>
      obtain ⟨p, rest'', hk, hp, hne⟩ := id h
      have hkept : s.owner p ≠ some k := by
        rw [hp]
        exact fun he => hne (Option.some.inj he)
      exact (ih hk hkept).trans (h.lt hs hk hj hnot)

/-- **No deadlock**: no session waits for itself, over any number of others. -/
theorem not_waits_for_itself (hs : Invariant s) (i : ι) :
    ¬ Relation.TransGen (WaitsFor s) i i := by
  intro h
  obtain ⟨j, ⟨r, rest, hi, hr, hne⟩, -⟩ := Relation.TransGen.head'_iff.mp h
  have hnot : s.owner r ≠ some i := by
    rw [hr]
    exact fun he => hne (Option.some.inj he)
  exact lt_irrefl r (WaitsFor.transGen_lt hs h hi hi hnot)

/-- **Some session can move**, unless all are done. -/
theorem exists_ready [Finite ι] (hs : Invariant s) {i : ι} (hi : s.todo i ≠ []) :
    ∃ j, s.todo j ≠ [] ∧ ∀ k, ¬ WaitsFor s j k := by
  -- nobody waits for itself, so following the waits comes to an end
  have htrans : IsTrans ι (flip (Relation.TransGen (WaitsFor s))) :=
    ⟨fun _ _ _ h h' => h'.trans h⟩
  have hirrefl : Std.Irrefl (flip (Relation.TransGen (WaitsFor s))) := ⟨not_waits_for_itself hs⟩
  have hwf := Finite.wellFounded_of_trans_of_irrefl (flip (Relation.TransGen (WaitsFor s)))
  obtain ⟨j, hj, hlast⟩ := hwf.has_min {j | s.todo j ≠ []} ⟨i, hi⟩
  refine ⟨j, hj, fun k hwaits => hlast k ?_ (Relation.TransGen.single hwaits)⟩
  obtain ⟨r, rest, -, hr, -⟩ := hwaits
  exact fun hdone => hs.not_held_of_done hdone r hr

end Waiting

/-! ## No addition is lost -/

section Conservation

/-- The value of a row as its holder sees it. -/
def State.current (s : State ι ρ V) (r : ρ) : V :=
  match s.owner r with
  | some i => s.read i r
  | none => s.committed r

theorem current_acquire [DecidableEq ρ] [Preorder ρ] {s : State ι ρ V} (hs : Invariant s)
    {i : ι} {q : ρ} (hfree : s.owner q = none) (r : ρ) :
    (s.acquire i q).current r = s.current r := by
  by_cases hr : r = q
  · subst hr
    have hread : s.read i r = s.committed r := hs.read_of_not_held (by rw [hfree]; simp)
    have howner : (s.acquire i r).owner r = some i := Function.update_self _ _ _
    rw [State.current, howner, State.current, hfree]
    exact hread
  · have howner : (s.acquire i q).owner r = s.owner r := Function.update_of_ne hr _ _
    rw [State.current, howner]
    rfl

theorem current_commit [DecidableEq ι] [Preorder ρ] {s : State ι ρ V} (hs : Invariant s) (i : ι)
    (r : ρ) :
    (s.commit i).current r = s.current r := by
  by_cases hr : s.owner r = some i
  · have howner : (s.commit i).owner r = none := if_pos hr
    rw [State.current, howner, State.current, hr]
    rfl
  · have howner : (s.commit i).owner r = s.owner r := if_neg hr
    have hcommitted : (s.commit i).committed r = s.committed r := hs.read_of_not_held hr
    rw [State.current, howner, State.current]
    cases hj : s.owner r with
    | none => exact hcommitted
    | some j =>
        have hne : j ≠ i := by
          rintro rfl
          exact hr hj
        show ((s.commit i).own j r).getD ((s.commit i).committed r) = s.read j r
        have hown : (s.commit i).own j = s.own j := Function.update_of_ne hne _ _
        rw [hown, hcommitted]
        rfl

variable [DecidableEq ι] [DecidableEq ρ] [AddCommGroup V]

theorem current_write {s : State ι ρ V} {i : ι} {q : ρ} (hheld : s.owner q = some i) (delta : V)
    (r : ρ) :
    (s.write i q delta).current r = s.current r + if q = r then delta else 0 := by
  by_cases hr : q = r
  · subst hr
    have howner : (s.write i q delta).owner q = some i := hheld
    rw [if_pos rfl, State.current, howner, State.current, hheld]
    simp [State.read, State.write]
  · have hread : ∀ j, (s.write i q delta).read j r = s.read j r := by
      intro j
      by_cases hj : j = i
      · subst hj
        simp [State.read, State.write, Function.update_of_ne (Ne.symm hr)]
      · simp [State.read, State.write, Function.update_of_ne hj]
    rw [if_neg hr, add_zero, State.current, State.current]
    simp only [hread]
    rfl

/-- What an operation adds to a row. -/
def Op.effect (r : ρ) : Op ρ V → V
  | .lock _ => 0
  | .add q delta => if q = r then delta else 0
  | .commit => 0

/-- What a program adds to a row. -/
def total (ops : List (Op ρ V)) (r : ρ) : V := (ops.map (Op.effect r)).sum

variable [Fintype ι]

/-- What the sessions still have to add to a row. -/
def State.remaining (s : State ι ρ V) (r : ρ) : V := ∑ i, total (s.todo i) r

theorem remaining_advance {s : State ι ρ V} (s' : State ι ρ V) {i : ι} {op : Op ρ V}
    {rest : List (Op ρ V)} (htodo : s.todo i = op :: rest) (hsame : s'.todo = s.todo) (r : ρ) :
    op.effect r + (s'.advance i rest).remaining r = s.remaining r := by
  have hothers : ∀ j, j ≠ i → total ((s'.advance i rest).todo j) r = total (s.todo j) r := by
    intro j hj
    show total (Function.update s'.todo i rest j) r = _
    rw [Function.update_of_ne hj, hsame]
  have hself : (s'.advance i rest).todo i = rest := Function.update_self _ _ _
  have hcons : total (op :: rest) r = op.effect r + total rest r := by
    rw [total, total, List.map_cons, List.sum_cons]
  have hsum : (s'.advance i rest).remaining r + total (s.todo i) r
      = s.remaining r + total ((s'.advance i rest).todo i) r := OneChange.sum_add_eq hothers
  rw [hself, htodo, hcons, ← add_assoc] at hsum
  rw [add_comm]
  exact add_right_cancel hsum

/-- **The conservation step**: what a row holds and what is still to come do not change. -/
theorem Step.conserves [Preorder ρ] {s s' : State ι ρ V} {i : ι} (h : Step s i s')
    (hs : Invariant s) (r : ρ) :
    s'.current r + s'.remaining r = s.current r + s.remaining r := by
  cases h with
  | stay => rfl
  | acquire q rest htodo hfree =>
      have hremaining := remaining_advance (s.acquire i q) htodo rfl r
      rw [Op.effect, zero_add] at hremaining
      rw [hremaining]
      exact congrArg (· + _) (current_acquire hs hfree r)
  | again q rest htodo hheld =>
      have hremaining := remaining_advance s htodo rfl r
      rw [Op.effect, zero_add] at hremaining
      rw [hremaining]
      rfl
  | write q delta rest htodo =>
      have hascending := hs.ascending i
      rw [htodo] at hascending
      have hremaining := remaining_advance (s.write i q delta) htodo rfl r
      have hcurrent := current_write hascending.1 delta r
      calc (s.write i q delta).current r + ((s.write i q delta).advance i rest).remaining r
          = s.current r + ((Op.add q delta).effect r
              + ((s.write i q delta).advance i rest).remaining r) := by
            rw [hcurrent, add_assoc]
            rfl
        _ = s.current r + s.remaining r := by rw [hremaining]
  | commit rest htodo =>
      have hremaining := remaining_advance (s.commit i) htodo rfl r
      rw [Op.effect, zero_add] at hremaining
      rw [hremaining]
      exact congrArg (· + _) (current_commit hs i r)

/-- **No addition is lost**: when every session is done, the committed rows hold what they held at
the start and what every program adds. -/
theorem committed_of_done [Preorder ρ] {programs : ι → List (Op ρ V)} (rows : ρ → V)
    (h : ∀ i, Ascending ∅ (programs i)) (acts : List ι)
    (hdone : ∀ i, (Run.after step (start programs rows) acts).todo i = []) (r : ρ) :
    (Run.after step (start programs rows) acts).committed r
      = rows r + ∑ i, total (programs i) r := by
  have hrun := @Run.invariant (State ι ρ V) ι step _
    (fun s => Invariant s ∧
      s.current r + s.remaining r = rows r + ∑ i, total (programs i) r)
    ⟨start_invariant rows h, rfl⟩ (fun s i hs => ⟨(step_spec s i).invariant hs.1,
      ((step_spec s i).conserves hs.1 r).trans hs.2⟩) acts
  obtain ⟨hs, hsum⟩ := hrun
  rw [← hsum]
  generalize Run.after step (start programs rows) acts = s at hs hdone
  -- nothing is left to do, and no lock is held
  have hremaining : s.remaining r = 0 := by
    refine Finset.sum_eq_zero fun i _ => ?_
    rw [hdone i]
    rfl
  have hfree : s.owner r = none := by
    cases howner : s.owner r with
    | none => rfl
    | some i => exact absurd howner (hs.not_held_of_done (hdone i) r)
  rw [hremaining, add_zero, State.current, hfree]

end Conservation

end Locking
