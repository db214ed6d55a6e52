import Mathlib.Algebra.BigOperators.Fin
import Mathlib.Data.Nat.Count
import Mathlib.Data.Nat.ModEq

/-!
# Rotation

Turn after turn goes to the places `0, 1, …, n - 1` and then to `0` again, so turn `k` is the turn
of `k % n`. `turns n i s` is how many of the first `s` turns are the turns of `i`.
-/

set_option autoImplicit false

namespace Rotation

variable {n i s : ℕ}

def turns (n i s : ℕ) : ℕ := Nat.count (fun k => k % n = i) s

@[simp] theorem turns_zero (n i : ℕ) : turns n i 0 = 0 := Nat.count_zero _

theorem turns_succ (n i s : ℕ) :
    turns n i (s + 1) = turns n i s + if s % n = i then 1 else 0 := Nat.count_succ _ s

/-- **The closed form.** -/
theorem turns_eq (hi : i < n) (s : ℕ) : turns n i s = (s + n - 1 - i) / n := by
  induction s with
  | zero =>
      rw [turns_zero, Nat.zero_add]
      exact (Nat.div_eq_of_lt (by omega)).symm
  | succ s ih =>
      have hdvd : n ∣ s + n - 1 - i + 1 ↔ s % n = i := by
        have hshift : s + n - 1 - i + 1 = s + (n - i) := by omega
        rw [hshift, Nat.dvd_iff_mod_eq_zero, Nat.add_mod]
        have hlt : s % n < n := Nat.mod_lt s (by omega)
        by_cases h0 : i = 0
        · subst h0
          rw [Nat.sub_zero, Nat.mod_self, Nat.add_zero, Nat.mod_mod]
        · rw [Nat.mod_eq_of_lt (by omega : n - i < n)]
          constructor
          · intro h
            by_cases hle : n ≤ s % n + (n - i)
            · rw [Nat.mod_eq_sub_mod hle, Nat.mod_eq_of_lt (by omega)] at h
              omega
            · rw [Nat.mod_eq_of_lt (by omega)] at h
              omega
          · intro h
            rw [h, Nat.add_sub_cancel' (Nat.le_of_lt hi), Nat.mod_self]
      have hnext : s + 1 + n - 1 - i = s + n - 1 - i + 1 := by omega
      rw [turns_succ, ih, hnext, Nat.succ_div]
      simp only [hdvd]

/-- Every turn is the turn of one place. -/
theorem sum_turns (hn : 0 < n) (s : ℕ) : ∑ i : Fin n, turns n i s = s := by
  induction s with
  | zero => simp
  | succ s ih =>
      have hone : ∑ i : Fin n, (if s % n = i then 1 else 0) = 1 := by
        have hval : ∀ i : Fin n, s % n = i ↔ (⟨s % n, Nat.mod_lt s hn⟩ : Fin n) = i := by
          intro i
          rw [Fin.ext_iff]
        simp only [hval, Finset.sum_ite_eq, Finset.mem_univ, if_true]
      simp only [turns_succ, Finset.sum_add_distrib, ih, hone]

/-- No place is more than one turn behind another. -/
theorem turns_le_succ {j : ℕ} (hi : i < n) (hj : j < n) (s : ℕ) :
    turns n i s ≤ turns n j s + 1 := by
  rw [turns_eq hi, turns_eq hj, ← Nat.add_div_right _ (by omega : 0 < n)]
  exact Nat.div_le_div_right (by omega)

/-! ## From one turn of a place to its next -/

/-- The next turn of a place comes after `n` turns. -/
theorem next_turn {k k' : ℕ} (hlt : k < k') (hsame : k' % n = k % n)
    (hbetween : ∀ m, k < m → m < k' → m % n ≠ k % n) : k' = k + n := by
  have hdvd : n ∣ k' - k := (Nat.modEq_iff_dvd' (Nat.le_of_lt hlt)).mp hsame.symm
  have hle : n ≤ k' - k := Nat.le_of_dvd (by omega) hdvd
  by_cases hn : n = 0
  · subst hn
    have := Nat.eq_zero_of_zero_dvd hdvd
    omega
  · have hturn : (k + n) % n = k % n := Nat.add_mod_right k n
    by_contra hne
    exact hbetween (k + n) (by omega) (by omega) hturn

/-- In between every other place has one turn. -/
theorem one_turn_between {j : ℕ} (k : ℕ) (hj : j < n) (hne : j ≠ k % n) :
    ∃! m, k < m ∧ m < k + n ∧ m % n = j := by
  have hk : k % n < n := Nat.mod_lt k (by omega)
  have hdiv : n * (k / n) + k % n = k := Nat.div_add_mod k n
  have huniq : ∀ m m', k < m → m < k + n → k < m' → m' < k + n → m % n = m' % n → m ≤ m' := by
    intro m m' hm hm' hl hl' hmod
    by_contra hgt
    have hdvd : n ∣ m - m' := (Nat.modEq_iff_dvd' (by omega)).mp hmod.symm
    have := Nat.le_of_dvd (by omega) hdvd
    omega
  -- the turn of `j` in the current round when it is still to come, and in the next one otherwise
  have hexists : ∃ m, k < m ∧ m < k + n ∧ m % n = j := by
    by_cases hlater : k % n < j
    · refine ⟨n * (k / n) + j, by omega, by omega, ?_⟩
      rw [Nat.mul_add_mod, Nat.mod_eq_of_lt hj]
    · refine ⟨n * (k / n + 1) + j, ?_, ?_, ?_⟩
      · rw [Nat.mul_succ]
        omega
      · rw [Nat.mul_succ]
        omega
      · rw [Nat.mul_add_mod, Nat.mod_eq_of_lt hj]
  obtain ⟨m, hm, hm', hmod⟩ := hexists
  refine ⟨m, ⟨hm, hm', hmod⟩, ?_⟩
  rintro m' ⟨hl, hl', hmod'⟩
  have hsame : m' % n = m % n := hmod'.trans hmod.symm
  exact Nat.le_antisymm (huniq m' m hl hl' hm hm' hsame) (huniq m m' hm hm' hl hl' hsame.symm)

end Rotation
