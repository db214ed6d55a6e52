import Mathlib.Algebra.BigOperators.Field
import Mathlib.Algebra.Order.BigOperators.Group.Finset
import Mathlib.Algebra.Order.Field.Basic
import Mathlib.Data.Fintype.BigOperators
import Mathlib.Data.Finset.Lattice.Fold
import Mathlib.Tactic.FieldSimp
import Mathlib.Tactic.Linarith
import Mathlib.Tactic.Ring

/-!
# One round of averaging, with some values already new

Every member `i` of a finite group moves from `x i` to the average `x' i` of its own old value
and of one reading `y i j` of each other member `j`. A reading is old or new, it may be off by up
to `δ`, and of two members at least one has read the other's old value (`Readings`). Then the
spread of the group shrinks by the factor `((n - 1) / n) ^ 2`, but for these errors
(`Readings.contraction`): two members differ only through the members one of them has read old and
the other new, at least one member is not of that kind, and a member moves by at most
`(n - 1) / n` of the spread.
-/

set_option autoImplicit false

namespace Averaging

variable {ι K : Type} [Fintype ι] [Field K] [LinearOrder K]

/-! ## The spread of a family -/

def spread [Nonempty ι] (f : ι → K) : K :=
  Finset.univ.sup' Finset.univ_nonempty f - Finset.univ.inf' Finset.univ_nonempty f

theorem spread_le [Nonempty ι] {f : ι → K} {b : K} (h : ∀ i j, f i - f j ≤ b) :
    spread f ≤ b := by
  obtain ⟨i, -, hi⟩ := Finset.exists_mem_eq_sup' Finset.univ_nonempty f
  obtain ⟨j, -, hj⟩ := Finset.exists_mem_eq_inf' Finset.univ_nonempty f
  unfold spread
  rw [hi, hj]
  exact h i j

variable [IsStrictOrderedRing K]

/-! ## Readings -/

omit [IsStrictOrderedRing K] in
/-- The reading `a` of the value `v` is off by at most `δ`. -/
def Near (δ v a : K) : Prop := |a - v| ≤ δ

/-- The members have moved from `x` to `x'`, each to the average of its own old value and its
readings `y` of the others. -/
structure Readings (δ : K) (x x' : ι → K) (y : ι → ι → K) : Prop where
  own : ∀ i, y i i = x i
  oldOrNew : ∀ i j, Near δ (x j) (y i j) ∨ Near δ (x' j) (y i j)
  /-- Two members have not both read each other's new values. -/
  notBothNew : ∀ i j, i ≠ j → Near δ (x j) (y i j) ∨ Near δ (x i) (y j i)
  average : ∀ i, (Fintype.card ι : K) * x' i = ∑ j, y i j

namespace Readings

variable {δ : K} {x x' : ι → K} {y : ι → ι → K} {b : K}

theorem sum_erase_le (f : ι → K) (i : ι) (hb : ∀ j, |f j| ≤ b) :
    |∑ j, f j| ≤ |f i| + (Fintype.card ι - 1 : K) * b := by
  classical
  have hcard : ((Finset.univ.erase i).card : K) = Fintype.card ι - 1 := by
    have hpos : 1 ≤ Fintype.card ι := Fintype.card_pos_iff.mpr ⟨i⟩
    rw [Finset.card_erase_of_mem (Finset.mem_univ i), Finset.card_univ, Nat.cast_sub hpos,
      Nat.cast_one]
  have hothers : |∑ j ∈ Finset.univ.erase i, f j| ≤ (Fintype.card ι - 1 : K) * b :=
    calc |∑ j ∈ Finset.univ.erase i, f j|
        ≤ ∑ j ∈ Finset.univ.erase i, |f j| := Finset.abs_sum_le_sum_abs _ _
      _ ≤ (Finset.univ.erase i).card • b := Finset.sum_le_card_nsmul _ _ _ (fun j _ => hb j)
      _ = (Fintype.card ι - 1 : K) * b := by rw [nsmul_eq_mul, hcard]
  rw [← Finset.add_sum_erase _ _ (Finset.mem_univ i)]
  exact (abs_add_le _ _).trans (add_le_add_right hothers _)

/-- No member moves by more than `(n - 1) / n` of the distance its readings allow. -/
theorem move_le (h : Readings δ x x' y) (hb : ∀ i j k, |y i k - x j| ≤ b) (j : ι) :
    (Fintype.card ι : K) * |x' j - x j| ≤ (Fintype.card ι - 1 : K) * b := by
  have hpos : (0 : K) ≤ Fintype.card ι := Nat.cast_nonneg _
  have hsum : (Fintype.card ι : K) * (x' j - x j) = ∑ k, (y j k - x j) := by
    rw [mul_sub, h.average j, Finset.sum_sub_distrib, Finset.sum_const, Finset.card_univ,
      nsmul_eq_mul]
  have hle := sum_erase_le (fun k => y j k - x j) j (fun k => hb j j k)
  calc (Fintype.card ι : K) * |x' j - x j|
      = |(Fintype.card ι : K) * (x' j - x j)| := by rw [abs_mul, abs_of_nonneg hpos]
    _ = |∑ k, (y j k - x j)| := by rw [hsum]
    _ ≤ |y j j - x j| + (Fintype.card ι - 1 : K) * b := hle
    _ = (Fintype.card ι - 1 : K) * b := by rw [h.own, sub_self, abs_zero, zero_add]

theorem nonneg_of_near {v a : K} (h : Near δ v a) : 0 ≤ δ := (abs_nonneg _).trans h

/-- Two readings of one member differ at most by how far it moved, and by their errors. -/
theorem reading_sub_le (h : Readings δ x x' y) (p q j : ι) :
    |y p j - y q j| ≤ |x' j - x j| + 2 * δ := by
  have hlow := neg_abs_le (x' j - x j)
  have hhigh := le_abs_self (x' j - x j)
  rw [abs_le]
  rcases h.oldOrNew p j with hp | hp <;> rcases h.oldOrNew q j with hq | hq
  all_goals
    obtain ⟨hp, hp'⟩ := abs_le.mp hp
    obtain ⟨hq, hq'⟩ := abs_le.mp hq
    constructor <;> linarith

/-- **One round of averaging contracts the spread.** -/
theorem contraction [Nonempty ι] (h : Readings δ x x' y) (hb : ∀ i j k, |y i k - x j| ≤ b)
    (p q : ι) :
    x' p - x' q
      ≤ (((Fintype.card ι - 1 : K)) / Fintype.card ι) ^ 2 * b + 2 * δ := by
  have hcard : (0 : K) < Fintype.card ι := Nat.cast_pos.mpr Fintype.card_pos
  have hone : (1 : K) ≤ Fintype.card ι := by
    exact_mod_cast (Fintype.card_pos : 0 < Fintype.card ι)
  have hbnn : 0 ≤ b := le_trans (abs_nonneg _) (hb p p p)
  have hδ : 0 ≤ δ := by
    rcases h.oldOrNew p p with hr | hr <;> exact nonneg_of_near hr
  by_cases hpq : p = q
  · rw [hpq, sub_self]
    positivity
  · -- one of the two has read the other's old value: that member separates them by the error only
    have hagree : ∃ j, |y p j - y q j| ≤ 2 * δ := by
      rcases h.notBothNew p q hpq with hr | hr
      · refine ⟨q, ?_⟩
        rw [h.own q]
        exact hr.trans (by linarith)
      · refine ⟨p, ?_⟩
        rw [h.own p, abs_sub_comm]
        exact hr.trans (by linarith)
    obtain ⟨j, hj⟩ := hagree
    -- the other members separate the two by how far they moved
    have hterm : ∀ k, |y p k - y q k|
        ≤ (Fintype.card ι - 1 : K) / Fintype.card ι * b + 2 * δ := by
      intro k
      have hmove := h.move_le hb k
      have hread := h.reading_sub_le p q k
      have hdiv : |x' k - x k| ≤ (Fintype.card ι - 1 : K) / Fintype.card ι * b := by
        rw [div_mul_eq_mul_div, le_div_iff₀ hcard, mul_comm]
        exact hmove
      linarith
    have hsum : (Fintype.card ι : K) * (x' p - x' q) = ∑ k, (y p k - y q k) := by
      rw [mul_sub, h.average p, h.average q, Finset.sum_sub_distrib]
    have hle := le_trans (le_abs_self _) (sum_erase_le (fun k => y p k - y q k) j hterm)
    rw [← hsum] at hle
    have hall : (Fintype.card ι : K) * (x' p - x' q)
        ≤ (Fintype.card ι - 1 : K) * ((Fintype.card ι - 1 : K) / Fintype.card ι * b)
          + Fintype.card ι * (2 * δ) := by
      linarith
    calc x' p - x' q
        = (Fintype.card ι : K) * (x' p - x' q) / Fintype.card ι := by
          rw [mul_div_cancel_left₀ _ (ne_of_gt hcard)]
      _ ≤ ((Fintype.card ι - 1 : K) * ((Fintype.card ι - 1 : K) / Fintype.card ι * b)
            + Fintype.card ι * (2 * δ)) / Fintype.card ι :=
          div_le_div_of_nonneg_right hall (le_of_lt hcard)
      _ = ((Fintype.card ι - 1 : K) / Fintype.card ι) ^ 2 * b + 2 * δ := by
          field_simp

end Readings

/-! ## A disturbance in every `k`-th round -/

section Disturbance

variable {ρ s b : K} {k m : ℕ}

omit [LinearOrder K] [IsStrictOrderedRing K]

/-- What is left of `s` after `m` rounds, each of which shrinks it by the factor `ρ`, but every
`k`-th of which adds `b` instead. -/
def disturbed (ρ s b : K) (k m : ℕ) : K :=
  ρ ^ (m - m / k) * s + b * ρ ^ (m % k) / (1 - ρ ^ (k - 1))

theorem disturbed_shrink (hm : (m + 1) % k ≠ 0) :
    disturbed ρ s b k (m + 1) = ρ * disturbed ρ s b k m := by
  have hdiv : (m + 1) / k = m / k := Nat.succ_div_of_not_dvd fun h => hm (Nat.mod_eq_zero_of_dvd h)
  have hle : m / k ≤ m := Nat.div_le_self m k
  have hmod : (m + 1) % k = m % k + 1 := by
    have h := Nat.div_add_mod m k
    have h' := Nat.div_add_mod (m + 1) k
    rw [hdiv] at h'
    omega
  rw [disturbed, disturbed, hdiv, hmod, Nat.sub_add_comm hle, pow_succ, pow_succ]
  ring

theorem disturbed_add (hρ : ρ ^ (k - 1) ≠ 1) (hm : (m + 1) % k = 0) :
    disturbed ρ s b k (m + 1) = disturbed ρ s b k m + b := by
  have hdiv : (m + 1) / k = m / k + 1 := Nat.succ_div_of_dvd (Nat.dvd_of_mod_eq_zero hm)
  have hmod : m % k = k - 1 := by
    have h := Nat.div_add_mod m k
    have h' := Nat.div_add_mod (m + 1) k
    rw [hdiv, hm, Nat.mul_succ] at h'
    omega
  have hsub : m + 1 - (m / k + 1) = m - m / k := by omega
  have hne : 1 - ρ ^ (k - 1) ≠ 0 := fun h => hρ (sub_eq_zero.mp h).symm
  rw [disturbed, disturbed, hdiv, hm, hmod, hsub, pow_zero, mul_one, add_assoc]
  congr 1
  field_simp
  ring

end Disturbance

end Averaging
