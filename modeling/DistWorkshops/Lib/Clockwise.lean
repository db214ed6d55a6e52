import Mathlib.Data.Int.ModEq
import Mathlib.Tactic.Linarith
import Mathlib.Tactic.Ring

/-!
# Clockwise distances on a ring of `R` positions

`dist R a b` is how far one goes clockwise from `a` to `b`, between `0` and `R - 1`. `span R a b`
is the same for a walk that leaves `a` first, so that a full turn counts as `R` and not as `0`:
it is between `1` and `R`. The positions strictly between `a` and `b` are those of a smaller
span (`Between`), and walking to one of them shortens the rest of the way (`span_of_between`).
-/

set_option autoImplicit false

namespace Clockwise

variable {R : ℤ}

def dist (R a b : ℤ) : ℤ := (b - a) % R

/-- The clockwise distance from `a` to `b` of a walk of at least one step. -/
def span (R a b : ℤ) : ℤ := dist R (a + 1) b + 1

/-- `x` lies strictly between `a` and `b`, clockwise; from `a` to `a` lies the whole ring. -/
def Between (R x a b : ℤ) : Prop := 0 < dist R a x ∧ dist R a x < span R a b

theorem dist_nonneg (hR : 0 < R) (a b : ℤ) : 0 ≤ dist R a b :=
  Int.emod_nonneg _ (ne_of_gt hR)

theorem dist_lt (hR : 0 < R) (a b : ℤ) : dist R a b < R := Int.emod_lt_of_pos _ hR

/-- Between positions in `[0, R)`, the distance is the difference, plus a turn when it wraps. -/
theorem dist_eq {a b : ℤ} (ha : 0 ≤ a) (ha' : a < R) (hb : 0 ≤ b) (hb' : b < R) :
    dist R a b = if a ≤ b then b - a else b - a + R := by
  unfold dist
  by_cases h : a ≤ b
  · rw [if_pos h]
    exact Int.emod_eq_of_lt (by omega) (by omega)
  · rw [if_neg h, ← Int.add_emod_right]
    exact Int.emod_eq_of_lt (by omega) (by omega)

/-- Reducing the ends modulo `R` does not change a distance. -/
theorem dist_emod (a b : ℤ) : dist R (a % R) (b % R) = dist R a b := by
  unfold dist
  exact (Int.emod_emod_of_dvd _ (dvd_refl R)) ▸ (Int.sub_emod b a R).symm

theorem span_emod_right (a b : ℤ) : span R a (b % R) = span R a b := by
  unfold span dist
  rw [Int.emod_sub_emod]

theorem span_pos (hR : 0 < R) (a b : ℤ) : 0 < span R a b := by
  have := dist_nonneg hR (a + 1) b
  unfold span
  omega

theorem span_le (hR : 0 < R) (a b : ℤ) : span R a b ≤ R := by
  have := dist_lt hR (a + 1) b
  unfold span
  omega

/-- A span is the distance, or a full turn. -/
theorem span_eq (hR : 0 < R) (a b : ℤ) :
    span R a b = if dist R a b = 0 then R else dist R a b := by
  have hnn := dist_nonneg hR a b
  have hlt := dist_lt hR a b
  have hstep : dist R (a + 1) b = (dist R a b - 1) % R := by
    unfold dist
    rw [Int.emod_sub_emod]
    congr 1
    ring
  unfold span
  by_cases h : dist R a b = 0
  · -- at distance 0 the walk of at least one step goes all the way round
    rw [if_pos h, hstep, h, ← Int.add_emod_right, Int.emod_eq_of_lt (by omega) (by omega)]
    ring
  · rw [if_neg h, hstep, Int.emod_eq_of_lt (by omega) (by omega)]
    ring

theorem between_iff (hR : 0 < R) (x a b : ℤ) : Between R x a b ↔ span R a x < span R a b := by
  have hnn := dist_nonneg hR a x
  have hle := span_le hR a b
  have heq := span_eq hR a x
  unfold Between
  by_cases h : dist R a x = 0
  · rw [if_pos h] at heq
    omega
  · rw [if_neg h] at heq
    omega

theorem Between.ne {x a b : ℤ} (h : Between R x a b) : x ≠ a := by
  rintro rfl
  have h0 : dist R x x = 0 := by
    unfold dist
    rw [sub_self, Int.zero_emod]
  have := h.1
  omega

/-- Walking to a position strictly between `a` and `b` leaves the rest of the way. -/
theorem span_of_between (hR : 0 < R) {x a b : ℤ} (h : Between R x a b) :
    span R x b = span R a b - dist R a x := by
  obtain ⟨hpos, hlt⟩ := h
  have hle := span_le hR a b
  have hcongr : dist R (x + 1) b = (dist R (a + 1) b - dist R a x) % R := by
    unfold dist
    rw [← Int.sub_emod]
    congr 1
    ring
  unfold span at hlt hle ⊢
  rw [hcongr, Int.emod_eq_of_lt (by omega) (by omega)]
  ring

/-- Starting `k` positions further on shortens the way by `k`, or takes it round once more. -/
theorem dist_add (hR : 0 < R) {k : ℤ} (hk : 0 ≤ k) (hk' : k < R) (a b : ℤ) :
    dist R (a + k) b = if k ≤ dist R a b then dist R a b - k else dist R a b - k + R := by
  have hnn := dist_nonneg hR a b
  have hlt := dist_lt hR a b
  have hcongr : dist R (a + k) b = (dist R a b - k) % R := by
    unfold dist
    rw [Int.emod_sub_emod]
    congr 1
    ring
  by_cases h : k ≤ dist R a b
  · rw [if_pos h, hcongr]
    exact Int.emod_eq_of_lt (by omega) (by omega)
  · rw [if_neg h, hcongr, ← Int.add_emod_right]
    exact Int.emod_eq_of_lt (by omega) (by omega)

/-- Of two walks to the same end, the shorter one begins on the way of the longer one. -/
theorem dist_of_span_lt (hR : 0 < R) {a b x : ℤ} (h : span R x b < span R a b) :
    dist R a x = span R a b - span R x b := by
  have hpos := span_pos hR x b
  have hle := span_le hR a b
  have hcongr : dist R a x = (dist R (a + 1) b - dist R (x + 1) b) % R := by
    unfold dist
    rw [← Int.sub_emod]
    congr 1
    ring
  unfold span at h hpos hle ⊢
  rw [hcongr, Int.emod_eq_of_lt (by omega) (by omega)]
  ring

theorem between_of_span_lt (hR : 0 < R) {a b x : ℤ} (h : span R x b < span R a b) :
    Between R x a b := by
  have hdist := dist_of_span_lt hR h
  have hpos := span_pos hR x b
  exact ⟨by omega, by omega⟩

/-- The distance from a position passed on the way is what is left of the span. -/
theorem dist_of_span_le (hR : 0 < R) {a b x : ℤ} (h : span R a x ≤ span R a b) :
    dist R x b = span R a b - span R a x := by
  have hpos := span_pos hR a x
  have hle := span_le hR a b
  have hcongr : dist R x b = (dist R (a + 1) b - dist R (a + 1) x) % R := by
    unfold dist
    rw [← Int.sub_emod]
    congr 1
    ring
  unfold span at h hpos hle ⊢
  rw [hcongr, Int.emod_eq_of_lt (by omega) (by omega)]
  ring

/-- The same of a walk that may stay where it is. -/
theorem dist_of_dist_le (hR : 0 < R) {a b x : ℤ} (h : dist R a x ≤ dist R a b) :
    dist R x b = dist R a b - dist R a x := by
  have hnn := dist_nonneg hR a x
  have hlt := dist_lt hR a b
  have hcongr : dist R x b = (dist R a b - dist R a x) % R := by
    unfold dist
    rw [← Int.sub_emod]
    congr 1
    ring
  rw [hcongr]
  exact Int.emod_eq_of_lt (by omega) (by omega)

theorem dist_of_dist_ge (hR : 0 < R) {a b x : ℤ} (h : dist R x b ≤ dist R a b) :
    dist R a x = dist R a b - dist R x b := by
  have hnn := dist_nonneg hR x b
  have hlt := dist_lt hR a b
  have hcongr : dist R a x = (dist R a b - dist R x b) % R := by
    unfold dist
    rw [← Int.sub_emod]
    congr 1
    ring
  rw [hcongr]
  exact Int.emod_eq_of_lt (by omega) (by omega)

/-- Different positions in `[0, R)` have different distances from any point. -/
theorem dist_inj {k a b : ℤ} (ha : 0 ≤ a) (ha' : a < R) (hb : 0 ≤ b) (hb' : b < R)
    (h : dist R k a = dist R k b) : a = b := by
  -- equal distances from `k` are equal positions modulo `R`
  have hmod : a - k ≡ b - k [ZMOD R] := h
  have hadd : a - k + k ≡ b - k + k [ZMOD R] := hmod.add_right k
  rw [sub_add_cancel, sub_add_cancel] at hadd
  have heq : a % R = b % R := hadd
  rwa [Int.emod_eq_of_lt ha ha', Int.emod_eq_of_lt hb hb'] at heq

theorem span_inj {k a b : ℤ} (ha : 0 ≤ a) (ha' : a < R) (hb : 0 ≤ b) (hb' : b < R)
    (h : span R k a = span R k b) : a = b := by
  have hdist : dist R (k + 1) a = dist R (k + 1) b := by
    unfold span at h
    omega
  exact dist_inj ha ha' hb hb' hdist

end Clockwise
