import Mathlib.Algebra.BigOperators.Group.Finset.Basic

/-!
# A sum that changes at one place

A step of one process changes what belongs to this process and leaves the others alone. Here is
what becomes of a sum over all processes: of what they hold (`sum_add_eq`, `sum_update_add`), and of
their ranks, which bounds the steps of a run (`sum_succ_le`).
-/

set_option autoImplicit false

namespace OneChange

variable {ι M : Type} [Fintype ι] [DecidableEq ι] {i : ι}

section Sums

variable [AddCommMonoid M] {f g : ι → M}

/-- Two families that agree but at `i`. -/
theorem sum_add_eq (h : ∀ j, j ≠ i → f j = g j) : ∑ j, f j + g i = ∑ j, g j + f i := by
  have hothers : ∑ j ∈ Finset.univ.erase i, f j = ∑ j ∈ Finset.univ.erase i, g j :=
    Finset.sum_congr rfl fun j hj => h j (Finset.ne_of_mem_erase hj)
  calc ∑ j, f j + g i
      = f i + ∑ j ∈ Finset.univ.erase i, f j + g i := by
        rw [Finset.add_sum_erase _ _ (Finset.mem_univ i)]
    _ = g i + ∑ j ∈ Finset.univ.erase i, g j + f i := by
        rw [hothers, add_right_comm, add_comm (f i), add_right_comm]
    _ = ∑ j, g j + f i := by rw [Finset.add_sum_erase _ _ (Finset.mem_univ i)]

theorem sum_update_add (f : ι → M) (i : ι) (x : M) :
    ∑ j, Function.update f i x j + f i = ∑ j, f j + x := by
  have h := sum_add_eq fun j (hj : j ≠ i) => Function.update_of_ne hj x f
  rwa [Function.update_self] at h

end Sums

/-- When the rank of one process goes down, so does the sum of the ranks. -/
theorem sum_succ_le {f g : ι → ℕ} (hself : f i + 1 ≤ g i) (hothers : ∀ j, j ≠ i → f j = g j) :
    ∑ j, f j + 1 ≤ ∑ j, g j := by
  have hsum := sum_add_eq hothers
  omega

end OneChange
