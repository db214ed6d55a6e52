import Mathlib.Algebra.Order.BigOperators.Group.Multiset
import Mathlib.Algebra.BigOperators.Group.Multiset.Basic
import Mathlib.Data.Int.Log
import DistWorkshops.Lib.PyFloat

/-!
# Double precision

The arithmetic of doubles, with rounding to the nearest: an exact result is rounded to a multiple
of its last place, and overflows to an infinity. The sign of a zero is left out.

Numbers on a grid `2 ^ e` are doubles while they have at most 53 digits, so sums of such numbers
are exact in any order (`IsDot.exact`), whether a product is rounded before it is added or not.
-/

set_option autoImplicit false

namespace Double

open Decimal PyFloat

/-! ## Rounding -/

/-- The exponent of the last place of the doubles about as large as `q`. -/
def lastPlace (q : ℚ) : ℤ := max (Int.log 2 |q| - 52) (-1074)

def nearest (q : ℚ) : ℚ := roundHalfEven (q / 2 ^ lastPlace q) * 2 ^ lastPlace q

def round (q : ℚ) : PyFloat :=
  if |nearest q| < 2 ^ 1024 then num (nearest q) else infinity (decide (q < 0))

/-- A number read exactly becomes a double. -/
def rounded : PyFloat → PyFloat
  | num q => round q
  | x => x

/-! ## Operations -/

def add : PyFloat → PyFloat → PyFloat
  | nan, _ => nan
  | _, nan => nan
  | num p, num q => round (p + q)
  | num _, infinity s => infinity s
  | infinity s, num _ => infinity s
  | infinity s, infinity t => if s = t then infinity s else nan

def sub (x y : PyFloat) : PyFloat := add x y.neg

def mul : PyFloat → PyFloat → PyFloat
  | nan, _ => nan
  | _, nan => nan
  | num p, num q => round (p * q)
  | num p, infinity s => if p = 0 then nan else infinity (decide (p < 0) ^^ s)
  | infinity s, num q => if q = 0 then nan else infinity (s ^^ decide (q < 0))
  | infinity s, infinity t => infinity (s ^^ t)

/-- `a * b + x` with one rounding. -/
def fma : PyFloat → PyFloat → PyFloat → PyFloat
  | num a, num b, num x => round (a * b + x)
  | num _, num _, x => x
  | a, b, x => add (mul a b) x

/-- The sum of the products of some pairs, in some order of the additions, some of them fused. -/
inductive IsDot : Multiset (PyFloat × PyFloat) → PyFloat → Prop where
  | zero : IsDot 0 (num 0)
  | product (a b : PyFloat) : IsDot {(a, b)} (mul a b)
  | fused (a b : PyFloat) {s : Multiset (PyFloat × PyFloat)} {x : PyFloat} (h : IsDot s x) :
      IsDot ((a, b) ::ₘ s) (fma a b x)
  | add {s t : Multiset (PyFloat × PyFloat)} {x y : PyFloat} (hx : IsDot s x) (hy : IsDot t y) :
      IsDot (s + t) (add x y)

/-! ## Grids -/

/-- Multiples of `2 ^ e`. -/
def OnGrid (e : ℤ) (q : ℚ) : Prop := ∃ m : ℤ, q = m * 2 ^ e

/-- A multiple of `2 ^ e` of at most 53 digits. -/
structure Fits (e : ℤ) (q : ℚ) : Prop where
  onGrid : OnGrid e q
  abs_le : |q| ≤ 2 ^ 53 * 2 ^ e

/-- The exponents of the last places, up to those next to the largest doubles. -/
structure Exponent (e : ℤ) : Prop where
  ge : -1074 ≤ e
  le : e ≤ 970

section Grid

variable {e f : ℤ} {p q : ℚ}

theorem two_zpow_pos (e : ℤ) : (0 : ℚ) < 2 ^ e := zpow_pos (by norm_num) e

theorem OnGrid.zero (e : ℤ) : OnGrid e 0 := ⟨0, by simp⟩

theorem OnGrid.intCast (z : ℤ) : OnGrid 0 z := ⟨z, by simp⟩

theorem OnGrid.add (hp : OnGrid e p) (hq : OnGrid e q) : OnGrid e (p + q) := by
  obtain ⟨m, rfl⟩ := hp
  obtain ⟨k, rfl⟩ := hq
  exact ⟨m + k, by push_cast; ring⟩

theorem OnGrid.neg (hp : OnGrid e p) : OnGrid e (-p) := by
  obtain ⟨m, rfl⟩ := hp
  exact ⟨-m, by push_cast; ring⟩

theorem OnGrid.mul (hp : OnGrid e p) (hq : OnGrid f q) : OnGrid (e + f) (p * q) := by
  obtain ⟨m, rfl⟩ := hp
  obtain ⟨k, rfl⟩ := hq
  refine ⟨m * k, ?_⟩
  rw [zpow_add₀ (by norm_num)]
  push_cast
  ring

theorem OnGrid.multiset_sum {s : Multiset ℚ} (h : ∀ q ∈ s, OnGrid e q) : OnGrid e s.sum := by
  induction s using Multiset.induction with
  | empty => exact OnGrid.zero e
  | cons q s ih =>
      rw [Multiset.sum_cons]
      exact (h q (Multiset.mem_cons_self q s)).add
        (ih fun p hp => h p (Multiset.mem_cons_of_mem hp))

/-- A finer grid has the points of a coarser one. -/
theorem OnGrid.of_le (h : OnGrid e q) (hle : f ≤ e) : OnGrid f q := by
  obtain ⟨m, rfl⟩ := h
  refine ⟨m * 2 ^ (e - f).toNat, ?_⟩
  have hexp : e = (e - f).toNat + f := by omega
  have hsplit : (2 : ℚ) ^ e = 2 ^ (e - f).toNat * 2 ^ f := by
    conv_lhs => rw [hexp]
    rw [zpow_add₀ (by norm_num), zpow_natCast]
  rw [hsplit]
  push_cast
  ring

theorem roundHalfEven_intCast (z : ℤ) : roundHalfEven (z : ℚ) = z :=
  le_antisymm (roundHalfEven_le le_rfl) (le_roundHalfEven le_rfl)

theorem nearest_of_onGrid (h : OnGrid (lastPlace q) q) : nearest q = q := by
  obtain ⟨m, hm⟩ := h
  have hpos := two_zpow_pos (lastPlace q)
  have hdiv : q / 2 ^ lastPlace q = m := (div_eq_iff hpos.ne').mpr hm
  rw [nearest, hdiv, roundHalfEven_intCast]
  exact hm.symm

/-- Up to 53 digits the last place is not above the grid. -/
theorem lastPlace_le (he : -1074 ≤ e) (hq : q ≠ 0) (hlt : |q| < 2 ^ 53 * 2 ^ e) :
    lastPlace q ≤ e := by
  refine max_le ?_ he
  have hpow : (2 : ℚ) ^ 53 * 2 ^ e = ((2 : ℕ) : ℚ) ^ (53 + e) := by
    rw [zpow_add₀ (by norm_num)]
    norm_num
  rw [hpow, Int.lt_zpow_iff_log_lt (by decide) (abs_pos.mpr hq)] at hlt
  omega

/-- **What fits is not rounded.** -/
theorem round_of_fits (he : Exponent e) (h : Fits e q) : round q = num q := by
  have hnearest : nearest q = q := by
    rcases eq_or_ne q 0 with rfl | hq
    · exact nearest_of_onGrid (OnGrid.zero _)
    rcases h.abs_le.lt_or_eq with hlt | heq
    · exact nearest_of_onGrid (h.onGrid.of_le (lastPlace_le he.ge hq hlt))
    · -- a power of two, which has few digits on a coarser grid
      have hcoarse : OnGrid (e + 1) q := by
        have habs : |q| = ((2 ^ 52 : ℤ) : ℚ) * 2 ^ (e + 1) := by
          rw [heq, zpow_add₀ (by norm_num), zpow_one]
          push_cast
          ring
        rcases abs_choice q with hsign | hsign
        · exact ⟨2 ^ 52, hsign ▸ habs⟩
        · refine ⟨-2 ^ 52, ?_⟩
          rw [hsign] at habs
          rw [neg_eq_iff_eq_neg.mp habs]
          push_cast
          ring
      have hlt : |q| < 2 ^ 53 * 2 ^ (e + 1) := by
        rw [heq, zpow_add₀ (by norm_num), zpow_one]
        have hpos := two_zpow_pos e
        linarith
      exact nearest_of_onGrid
        (hcoarse.of_le (lastPlace_le (he.ge.trans (Int.le_add_one le_rfl)) hq hlt))
  have hfinite : |q| < 2 ^ 1024 := by
    calc |q| ≤ 2 ^ 53 * 2 ^ e := h.abs_le
      _ ≤ 2 ^ 53 * 2 ^ (970 : ℤ) :=
        mul_le_mul_of_nonneg_left (zpow_le_zpow_right₀ (by norm_num) he.le) (by positivity)
      _ = 2 ^ 1023 := (pow_add (2 : ℚ) 53 970).symm
      _ < 2 ^ 1024 := pow_lt_pow_right₀ (by norm_num) (by decide)
  rw [round, hnearest, if_pos hfinite]

theorem add_of_fits (he : Exponent e) (h : Fits e (p + q)) : add (num p) (num q) = num (p + q) :=
  round_of_fits he h

theorem sub_of_fits (he : Exponent e) (h : Fits e (p - q)) :
    sub (num p) (num q) = num (p - q) := by
  rw [sub_eq_add_neg] at h ⊢
  exact round_of_fits he h

/-- `0.1` is not a tenth, and beyond 53 digits not every integer is a double. -/
example : round (1 / 10) = num (3602879701896397 / 2 ^ 55) ∧
    add (num (2 ^ 53)) (num 1) = num (2 ^ 53) := by
  decide +kernel

/-! ## Sums in any order -/

def toRat : PyFloat → ℚ
  | num q => q
  | _ => 0

/-- The exact product of a pair. -/
def exactProduct (pair : PyFloat × PyFloat) : ℚ := toRat pair.1 * toRat pair.2

/-- The pair is finite, and its product lies on the grid. -/
def PairOnGrid (e : ℤ) (pair : PyFloat × PyFloat) : Prop :=
  ∃ a b : ℚ, pair = (num a, num b) ∧ OnGrid e (a * b)

variable {s : Multiset (PyFloat × PyFloat)} {x : PyFloat}

theorem fits_sum (hs : ∀ pair ∈ s, PairOnGrid e pair)
    (hsum : (s.map fun pair => |exactProduct pair|).sum ≤ 2 ^ 53 * 2 ^ e) :
    Fits e (s.map exactProduct).sum := by
  constructor
  · refine OnGrid.multiset_sum fun q hq => ?_
    obtain ⟨pair, hpair, rfl⟩ := Multiset.mem_map.mp hq
    obtain ⟨a, b, rfl, hgrid⟩ := hs pair hpair
    exact hgrid
  · refine (Multiset.abs_sum_le_sum_abs).trans ?_
    rwa [Multiset.map_map]

/-- **Sums on a grid are exact**, whatever the order of the additions. -/
theorem IsDot.exact (he : Exponent e) (h : IsDot s x) (hs : ∀ pair ∈ s, PairOnGrid e pair)
    (hsum : (s.map fun pair => |exactProduct pair|).sum ≤ 2 ^ 53 * 2 ^ e) :
    x = num (s.map exactProduct).sum := by
  have hnonneg : ∀ t : Multiset (PyFloat × PyFloat),
      0 ≤ (t.map fun pair => |exactProduct pair|).sum := fun t => by
    refine Multiset.sum_nonneg fun q hq => ?_
    obtain ⟨pair, -, rfl⟩ := Multiset.mem_map.mp hq
    exact abs_nonneg _
  induction h with
  | zero => rfl
  | product a b =>
      have hfits := fits_sum hs hsum
      obtain ⟨a, b, heq, -⟩ := hs _ (Multiset.mem_singleton_self _)
      obtain ⟨rfl, rfl⟩ := Prod.mk.inj heq
      rw [Multiset.map_singleton, Multiset.sum_singleton] at hfits ⊢
      exact round_of_fits he hfits
  | @fused a b s x h ih =>
      have hfits := fits_sum hs hsum
      obtain ⟨a, b, heq, -⟩ := hs _ (Multiset.mem_cons_self _ s)
      obtain ⟨rfl, rfl⟩ := Prod.mk.inj heq
      rw [Multiset.map_cons, Multiset.sum_cons] at hfits hsum ⊢
      have hrest : (s.map fun pair => |exactProduct pair|).sum ≤ 2 ^ 53 * 2 ^ e := by
        linarith [abs_nonneg (exactProduct (num a, num b))]
      rw [ih (fun pair hpair => hs pair (Multiset.mem_cons_of_mem hpair)) hrest]
      exact round_of_fits he hfits
  | @add s t x y hx hy ihx ihy =>
      have hfits := fits_sum hs hsum
      rw [Multiset.map_add, Multiset.sum_add] at hfits hsum ⊢
      rw [ihx (fun pair hpair => hs pair (Multiset.mem_add.mpr (Or.inl hpair)))
          (by linarith [hnonneg t]),
        ihy (fun pair hpair => hs pair (Multiset.mem_add.mpr (Or.inr hpair)))
          (by linarith [hnonneg s])]
      exact round_of_fits he hfits

end Grid

end Double
