import Mathlib.Data.Fintype.Basic
import Mathlib.Order.Basic
import Mathlib.Data.Int.Order.Basic
import Mathlib.Data.List.OfFn
import DistWorkshops.Python

/-!
# Vector clocks

The functions of `vector_clock.py`. A clock is an array of integers indexed by process id, so two
clocks have the same length by their type; the lists of the source then never raise `IndexError`
and give the same (`listTick_ofFn`, `listMerge_ofFn`, `listCompareClocks_ofFn`). `compareClocks` is
read through the componentwise order of the clocks (`compareClocks_eq_before` and its siblings).
-/

set_option autoImplicit false

namespace VectorClock

variable {n : ℕ}

abbrev Clock (n : ℕ) := Fin n → ℤ

def newClock (n : ℕ) : Clock n := fun _ => 0

def tick (clock : Clock n) (pid : Fin n) : Clock n :=
  Function.update clock pid (clock pid + 1)

def merge (clock received : Clock n) : Clock n := fun i => max (clock i) (received i)

@[simp] theorem tick_self (clock : Clock n) (pid : Fin n) : tick clock pid pid = clock pid + 1 :=
  Function.update_self _ _ _

theorem tick_of_ne (clock : Clock n) {pid i : Fin n} (h : i ≠ pid) : tick clock pid i = clock i :=
  Function.update_of_ne h _ _

/-- The strings `compare_clocks` returns. -/
inductive Comparison where
  | equal
  | before
  | after
  | concurrent
  deriving DecidableEq, Repr

def compareClocks (v1 v2 : Clock n) : Comparison :=
  let le := decide (∀ i, v1 i ≤ v2 i)
  let ge := decide (∀ i, v1 i ≥ v2 i)
  if le && ge then .equal
  else if le then .before
  else if ge then .after
  else .concurrent

/-- The four results, by the two componentwise comparisons. -/
theorem compareClocks_cases (v1 v2 : Clock n) :
    (v1 ≤ v2 ∧ v2 ≤ v1 ∧ compareClocks v1 v2 = .equal) ∨
      (v1 ≤ v2 ∧ ¬ v2 ≤ v1 ∧ compareClocks v1 v2 = .before) ∨
      (¬ v1 ≤ v2 ∧ v2 ≤ v1 ∧ compareClocks v1 v2 = .after) ∨
      (¬ v1 ≤ v2 ∧ ¬ v2 ≤ v1 ∧ compareClocks v1 v2 = .concurrent) := by
  unfold compareClocks
  rw [Pi.le_def, Pi.le_def]
  by_cases h1 : ∀ i, v1 i ≤ v2 i <;> by_cases h2 : ∀ i, v2 i ≤ v1 i <;> simp [h1, h2]

theorem compareClocks_eq_equal (v1 v2 : Clock n) : compareClocks v1 v2 = .equal ↔ v1 = v2 := by
  have hanti : v1 = v2 ↔ v1 ≤ v2 ∧ v2 ≤ v1 := le_antisymm_iff
  rw [hanti]
  rcases compareClocks_cases v1 v2 with ⟨h1, h2, h⟩ | ⟨h1, h2, h⟩ | ⟨h1, h2, h⟩ | ⟨h1, h2, h⟩ <;>
    simp [h, h1, h2]

theorem compareClocks_eq_before (v1 v2 : Clock n) :
    compareClocks v1 v2 = .before ↔ v1 ≤ v2 ∧ ¬ v2 ≤ v1 := by
  rcases compareClocks_cases v1 v2 with ⟨h1, h2, h⟩ | ⟨h1, h2, h⟩ | ⟨h1, h2, h⟩ | ⟨h1, h2, h⟩ <;>
    simp [h, h1, h2]

theorem compareClocks_eq_after (v1 v2 : Clock n) :
    compareClocks v1 v2 = .after ↔ v2 ≤ v1 ∧ ¬ v1 ≤ v2 := by
  rcases compareClocks_cases v1 v2 with ⟨h1, h2, h⟩ | ⟨h1, h2, h⟩ | ⟨h1, h2, h⟩ | ⟨h1, h2, h⟩ <;>
    simp [h, h1, h2]

theorem compareClocks_eq_concurrent (v1 v2 : Clock n) :
    compareClocks v1 v2 = .concurrent ↔ ¬ v1 ≤ v2 ∧ ¬ v2 ≤ v1 := by
  rcases compareClocks_cases v1 v2 with ⟨h1, h2, h⟩ | ⟨h1, h2, h⟩ | ⟨h1, h2, h⟩ | ⟨h1, h2, h⟩ <;>
    simp [h, h1, h2]

/-- A tick moves a clock up. -/
theorem le_tick (clock : Clock n) (pid : Fin n) : clock ≤ tick clock pid := by
  intro i
  by_cases hi : i = pid
  · subst hi
    rw [tick_self]
    show clock i ≤ clock i + 1
    omega
  · rw [tick_of_ne clock hi]

/-- What a clock is not below, it is not below after a tick. -/
theorem not_tick_le {clock v : Clock n} (h : v ≤ clock) (pid : Fin n) : ¬ tick clock pid ≤ v := by
  intro htick
  have hself : tick clock pid pid ≤ v pid := htick pid
  have hle : v pid ≤ clock pid := h pid
  rw [tick_self] at hself
  omega

/-! ## Clocks as lists -/

/-- `compare_clocks` on lists. -/
def listCompareClocks (v1 v2 : List ℤ) : Comparison :=
  let le := (v1.zip v2).all fun (a, b) => decide (a ≤ b)
  let ge := (v1.zip v2).all fun (a, b) => decide (a ≥ b)
  if le && ge then .equal
  else if le then .before
  else if ge then .after
  else .concurrent

/-- `tick` on a list: `clock[pid] += 1`. -/
def listTick (clock : List ℤ) (pid : ℕ) : Except PyError (List ℤ) :=
  match clock[pid]? with
  | some x => .ok (clock.set pid (x + 1))
  | none => .error .indexError

/-- One pass of the loop of `merge` on lists. -/
def listMergeStep (received clock : List ℤ) (i : ℕ) : Except PyError (List ℤ) :=
  match clock[i]?, received[i]? with
  | some x, some y => .ok (clock.set i (max x y))
  | _, _ => .error .indexError

/-- `merge` on lists. -/
def listMerge (clock received : List ℤ) : Except PyError (List ℤ) :=
  (List.range clock.length).foldlM (listMergeStep received) clock

theorem zip_ofFn (v1 v2 : Clock n) :
    (List.ofFn v1).zip (List.ofFn v2) = List.ofFn fun i => (v1 i, v2 i) := by
  apply List.ext_getElem
  · simp
  · intro k hk hk'
    simp

/-- **The two scans over lists of one length compare every component.** -/
theorem listCompareClocks_ofFn (v1 v2 : Clock n) :
    listCompareClocks (List.ofFn v1) (List.ofFn v2) = compareClocks v1 v2 := by
  have hall : ∀ p : ℤ × ℤ → Bool, ((List.ofFn v1).zip (List.ofFn v2)).all p =
      decide (∀ i, p (v1 i, v2 i) = true) := by
    intro p
    rw [zip_ofFn, Bool.eq_iff_iff, List.all_eq_true, List.forall_mem_ofFn_iff, decide_eq_true_iff]
  simp only [listCompareClocks, compareClocks, hall, decide_eq_true_iff]

theorem set_ofFn (clock : Clock n) (i : Fin n) (x : ℤ) :
    (List.ofFn clock).set i x = List.ofFn (Function.update clock i x) := by
  apply List.ext_getElem
  · simp
  · intro k hk hk'
    rw [List.getElem_set, List.getElem_ofFn, List.getElem_ofFn]
    by_cases hi : (i : ℕ) = k
    · subst hi
      rw [if_pos rfl]
      exact (Function.update_self i x clock).symm
    · have hne : (⟨k, by simpa using hk'⟩ : Fin n) ≠ i := fun he => hi (congrArg Fin.val he).symm
      rw [if_neg hi, Function.update_of_ne hne]

theorem listTick_ofFn (clock : Clock n) (pid : Fin n) :
    listTick (List.ofFn clock) pid = .ok (List.ofFn (tick clock pid)) := by
  have hget : (List.ofFn clock)[(pid : ℕ)]? = some (clock pid) := by simp
  rw [listTick, hget, tick, ← set_ofFn]

/-- The clock during `merge`: the first `k` positions are merged. -/
def mergedTo (clock received : Clock n) (k : ℕ) : Clock n := fun i =>
  if (i : ℕ) < k then merge clock received i else clock i

theorem mergedTo_succ (clock received : Clock n) (pid : Fin n) :
    mergedTo clock received (pid + 1) =
      Function.update (mergedTo clock received pid) pid (max (clock pid) (received pid)) := by
  funext i
  by_cases hi : i = pid
  · subst hi
    rw [Function.update_self, mergedTo, if_pos (Nat.lt_succ_self _), merge]
  · have hne : (i : ℕ) ≠ pid := fun he => hi (Fin.ext he)
    have hlt : (i : ℕ) < pid + 1 ↔ (i : ℕ) < pid := by omega
    rw [Function.update_of_ne hi, mergedTo, mergedTo]
    simp only [hlt]

theorem listMergeStep_ofFn (clock received : Clock n) (pid : Fin n) :
    listMergeStep (List.ofFn received) (List.ofFn (mergedTo clock received pid)) pid =
      .ok (List.ofFn (mergedTo clock received (pid + 1))) := by
  have hclock : (List.ofFn (mergedTo clock received pid))[(pid : ℕ)]? = some (clock pid) := by
    simp [mergedTo]
  have hreceived : (List.ofFn received)[(pid : ℕ)]? = some (received pid) := by
    simp
  rw [listMergeStep, hclock, hreceived, mergedTo_succ, ← set_ofFn]

/-- **Clocks of one length are merged.** -/
theorem listMerge_ofFn (clock received : Clock n) :
    listMerge (List.ofFn clock) (List.ofFn received) = .ok (List.ofFn (merge clock received)) := by
  have hpasses : ∀ k ≤ n, (List.range k).foldlM (listMergeStep (List.ofFn received))
      (List.ofFn clock) = .ok (List.ofFn (mergedTo clock received k)) := by
    intro k
    induction k with
    | zero => exact fun _ => rfl
    | succ k ih =>
        intro hk
        rw [List.range_succ, List.foldlM_append, ih (Nat.le_of_succ_le hk)]
        show [k].foldlM (listMergeStep (List.ofFn received))
          (List.ofFn (mergedTo clock received k)) = _
        rw [List.foldlM_cons, listMergeStep_ofFn clock received ⟨k, hk⟩]
        rfl
  have hall : mergedTo clock received n = merge clock received := by
    funext i
    exact if_pos i.isLt
  rw [listMerge, List.length_ofFn, hpasses n (Nat.le_refl n), hall]

/-! The three comparisons of the module's self-test. -/

example :
    let a := tick (newClock 3) 0
    let b := tick (newClock 3) 1
    let c := tick (merge (newClock 3) a) 1
    compareClocks a c = .before ∧ compareClocks c a = .after ∧
      compareClocks a b = .concurrent := by decide

end VectorClock
