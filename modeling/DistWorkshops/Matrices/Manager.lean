import Mathlib.Algebra.BigOperators.Fin
import Mathlib.Data.List.OfFn
import Mathlib.LinearAlgebra.Matrix.Notation
import DistWorkshops.Lib.Double
import DistWorkshops.Python

/-!
# The matrix manager

`compute` of `server-matrix.py`: two nested lists become arrays of numpy, are added, subtracted or
multiplied, and go back as a nested list. An array holds doubles, so every addition and every
product may be rounded, and numpy adds up the products of an entry in an order of its own. Where
the exact numbers have few enough digits, none of this shows: the answer is the matrix of the
exact operation (`compute_exact`).

Numpy's sum of products is a parameter, of which only this is known: it is such a sum in some
order. Two infinities or a `nan` in the lists are added and multiplied as doubles.
-/

set_option autoImplicit false

namespace Matrices

open Double PyFloat

/-! ## Arrays -/

/-- A shape of `numpy`: of one dimension, or of two. -/
inductive Shape where
  | line (n : ℕ)
  | table (rows cols : ℕ)
  deriving DecidableEq, Repr

/-- `shape[0]`. -/
def Shape.first : Shape → ℕ
  | line n => n
  | table rows _ => rows

/-- The entries of an array of one dimension are those in column 0. -/
structure NdArray where
  shape : Shape
  entry : ℕ → ℕ → PyFloat

/-- What `tolist` returns. -/
inductive Nested where
  | numbers (xs : List PyFloat)
  | rows (xss : List (List PyFloat))
  deriving DecidableEq

/-- What `compute` raises, which the client gets as a fault. -/
inductive Fault where
  /-- `np.array`, of rows of different lengths. -/
  | inhomogeneous
  | mismatch (op : List Char) (a b : Shape)
  /-- `A.shape[1]`, of an array of one dimension. -/
  | indexError
  | unknownOperation (op : List Char)
  deriving DecidableEq

/-- The entries of a product as numpy makes them, each from a row and a column. -/
structure Numpy where
  dot : ℕ → ℕ → List (PyFloat × PyFloat) → PyFloat
  isDot : ∀ i j (pairs : List (PyFloat × PyFloat)), IsDot pairs (dot i j pairs)

/-- `np.array(rows, dtype=float)`. -/
def npArray : List (List PyFloat) → Except Fault NdArray
  | [] => .ok ⟨.line 0, fun _ _ => nan⟩
  | row :: rows =>
      if ∀ other ∈ rows, other.length = row.length then
        .ok ⟨.table (rows.length + 1) row.length,
          fun i j => ((row :: rows).getD i []).getD j nan⟩
      else .error .inhomogeneous

namespace NdArray

/-- `A + B` and `A - B`, for arrays of one shape. -/
def zipWith (f : PyFloat → PyFloat → PyFloat) (a b : NdArray) : NdArray :=
  ⟨a.shape, fun i j => f (a.entry i j) (b.entry i j)⟩

/-- `A @ B`, for an `A` with `r` rows and `k` columns. -/
def matmul (numpy : Numpy) (r k : ℕ) (a b : NdArray) : NdArray where
  shape := match b.shape with
    | .line _ => .line r
    | .table _ cols => .table r cols
  entry i j := numpy.dot i j ((List.range k).map fun l => (a.entry i l, b.entry l j))

def tolist (a : NdArray) : Nested :=
  match a.shape with
  | .line n => .numbers ((List.range n).map fun i => a.entry i 0)
  | .table rows cols =>
      .rows ((List.range rows).map fun i => (List.range cols).map fun j => a.entry i j)

end NdArray

def compute (numpy : Numpy) (op : List Char) (matA matB : List (List PyFloat)) :
    Except Fault Nested := do
  let a ← npArray matA
  let b ← npArray matB
  if op = "add".toList then
    if a.shape ≠ b.shape then .error (.mismatch op a.shape b.shape)
    else return (a.zipWith add b).tolist
  else if op = "sub".toList then
    if a.shape ≠ b.shape then .error (.mismatch op a.shape b.shape)
    else return (a.zipWith sub b).tolist
  else if op = "prod".toList then
    match a.shape with
    | .line _ => .error .indexError
    | .table r k =>
        if k ≠ b.shape.first then .error (.mismatch op a.shape b.shape)
        else return (NdArray.matmul numpy r k a b).tolist
  else .error (.unknownOperation op)

/-! ## Matrices as nested lists -/

section Entries

variable {r c : ℕ}

/-- The nested list of a matrix. -/
def entries (M : Matrix (Fin r) (Fin c) ℚ) : List (List PyFloat) :=
  List.ofFn fun i => List.ofFn fun j => num (M i j)

/-- The shape of the array of a nested list: without rows, the columns are not known. -/
def shapeOf (r c : ℕ) : Shape := if r = 0 then .line 0 else .table r c

theorem entries_getD (M : Matrix (Fin r) (Fin c) ℚ) (i : Fin r) (j : Fin c) :
    ((entries M).getD i []).getD j nan = num (M i j) := by
  simp [entries, List.getD]

theorem range_map_eq {α : Type} (f : ℕ → α) (n : ℕ) :
    (List.range n).map f = List.ofFn fun i : Fin n => f i := by
  rw [List.ofFn_eq_map, ← List.map_coe_finRange_eq_range, List.map_map]
  rfl

/-- The array of a matrix. -/
theorem npArray_entries (M : Matrix (Fin r) (Fin c) ℚ) :
    ∃ a, npArray (entries M) = .ok a ∧ a.shape = shapeOf r c ∧
      ∀ (i : Fin r) (j : Fin c), a.entry i j = num (M i j) := by
  cases r with
  | zero => exact ⟨_, rfl, rfl, fun i => i.elim0⟩
  | succ r =>
      have hrows : entries M = (List.ofFn fun j => num (M 0 j)) ::
          List.ofFn fun i : Fin r => List.ofFn fun j => num (M i.succ j) := List.ofFn_succ
      have hlength : ∀ other ∈ List.ofFn fun i : Fin r => List.ofFn fun j => num (M i.succ j),
          other.length = (List.ofFn fun j => num (M 0 j)).length := fun other hother => by
        obtain ⟨i, rfl⟩ := List.mem_ofFn.mp hother
        rw [List.length_ofFn, List.length_ofFn]
      refine ⟨⟨.table (r + 1) c, fun i j => ((entries M).getD i []).getD j nan⟩, ?_, rfl,
        entries_getD M⟩
      rw [hrows, npArray, if_pos hlength, List.length_ofFn, List.length_ofFn]

/-- The nested list of an array with the entries of a matrix. -/
theorem tolist_eq {a : NdArray} {M : Matrix (Fin r) (Fin c) ℚ} (hshape : a.shape = .table r c)
    (hentry : ∀ (i : Fin r) (j : Fin c), a.entry i j = num (M i j)) :
    a.tolist = .rows (entries M) := by
  simp only [NdArray.tolist, hshape, range_map_eq, hentry]
  rfl

end Entries

/-! ## Each operation on arrays -/

section Compute

variable {numpy : Numpy} {matA matB : List (List PyFloat)} {a b : NdArray}

theorem compute_add (ha : npArray matA = .ok a) (hb : npArray matB = .ok b) :
    compute numpy "add".toList matA matB
      = if a.shape ≠ b.shape then .error (.mismatch "add".toList a.shape b.shape)
        else .ok (a.zipWith add b).tolist := by
  simp only [compute, ha, hb]
  rfl

theorem compute_sub (ha : npArray matA = .ok a) (hb : npArray matB = .ok b) :
    compute numpy "sub".toList matA matB
      = if a.shape ≠ b.shape then .error (.mismatch "sub".toList a.shape b.shape)
        else .ok (a.zipWith sub b).tolist := by
  simp only [compute, ha, hb]
  rfl

theorem compute_prod_line (ha : npArray matA = .ok a) (hb : npArray matB = .ok b) {n : ℕ}
    (hshape : a.shape = .line n) :
    compute numpy "prod".toList matA matB = .error .indexError := by
  simp only [compute, ha, hb]
  show (match a.shape with | .line _ => _ | .table _ _ => _) = _
  rw [hshape]

theorem compute_prod (ha : npArray matA = .ok a) (hb : npArray matB = .ok b) {r k : ℕ}
    (hshape : a.shape = .table r k) :
    compute numpy "prod".toList matA matB
      = if k ≠ b.shape.first then .error (.mismatch "prod".toList a.shape b.shape)
        else .ok (NdArray.matmul numpy r k a b).tolist := by
  simp only [compute, ha, hb]
  show (match a.shape with | .line _ => _ | .table _ _ => _) = _
  rw [hshape]
  rfl

/-- **An entry of a product.** However numpy adds it up, it is exact when its products fit. -/
theorem dot_exact (numpy : Numpy) {e : ℤ} (he : Exponent e) {k : ℕ} {x y : Fin k → ℚ}
    (hgrid : ∀ l, OnGrid e (x l * y l)) (hsum : ∑ l, |x l * y l| ≤ 2 ^ 53 * 2 ^ e) (i j : ℕ) :
    numpy.dot i j (List.ofFn fun l => (num (x l), num (y l))) = num (∑ l, x l * y l) := by
  have hpairs : ∀ pair ∈ ((List.ofFn fun l => (num (x l), num (y l)) :
      List (PyFloat × PyFloat)) : Multiset (PyFloat × PyFloat)), PairOnGrid e pair := by
    intro pair hpair
    obtain ⟨l, rfl⟩ := List.mem_ofFn.mp (Multiset.mem_coe.mp hpair)
    exact ⟨x l, y l, rfl, hgrid l⟩
  have hexact := (numpy.isDot i j _).exact he hpairs (by
    rw [Multiset.map_coe, Multiset.sum_coe, List.map_ofFn, List.sum_ofFn]
    exact hsum)
  rw [hexact, Multiset.map_coe, Multiset.sum_coe, List.map_ofFn, List.sum_ofFn]
  rfl

theorem shapeOf_pos {r : ℕ} (hr : 0 < r) (c : ℕ) : shapeOf r c = .table r c :=
  if_neg (Nat.ne_of_gt hr)

theorem prod_exact (numpy : Numpy) {e : ℤ} (he : Exponent e) {r k c : ℕ} (hr : 0 < r) (hk : 0 < k)
    {A : Matrix (Fin r) (Fin k) ℚ} {B : Matrix (Fin k) (Fin c) ℚ}
    (hgrid : ∀ i l j, OnGrid e (A i l * B l j))
    (hsum : ∀ i j, ∑ l, |A i l * B l j| ≤ 2 ^ 53 * 2 ^ e) :
    compute numpy "prod".toList (entries A) (entries B) = .ok (.rows (entries (A * B))) := by
  obtain ⟨a, ha, hashape, haentry⟩ := npArray_entries A
  obtain ⟨b, hb, hbshape, hbentry⟩ := npArray_entries B
  rw [shapeOf_pos hr] at hashape
  rw [shapeOf_pos hk] at hbshape
  rw [compute_prod ha hb hashape, hbshape, if_neg fun h => h rfl]
  refine congrArg _ (tolist_eq ?_ fun i j => ?_)
  · rw [NdArray.matmul, hbshape]
  · show numpy.dot i j ((List.range k).map fun l => (a.entry i l, b.entry l j)) = _
    rw [Matrix.mul_apply, ← dot_exact numpy he (fun l => hgrid i l j) (hsum i j) i j, range_map_eq]
    simp only [haentry, hbentry]

end Compute

/-! ## Exact answers -/

theorem onGrid_sum {e : ℤ} {n : ℕ} {x : Fin n → ℚ} (h : ∀ l, OnGrid e (x l)) :
    OnGrid e (∑ l, x l) :=
  OnGrid.multiset_sum fun q hq => by
    obtain ⟨l, -, rfl⟩ := Multiset.mem_map.mp hq
    exact h l

theorem onGrid_mul_apply {e f : ℤ} {r k c : ℕ} {A : Matrix (Fin r) (Fin k) ℚ}
    {B : Matrix (Fin k) (Fin c) ℚ} (hA : ∀ i j, OnGrid e (A i j)) (hB : ∀ i j, OnGrid f (B i j))
    (i : Fin r) (j : Fin c) : OnGrid (e + f) ((A * B) i j) := by
  rw [Matrix.mul_apply]
  exact onGrid_sum fun l => (hA i l).mul (hB l j)

/-- The absolute values of a product of products. -/
theorem sum_abs_mul_le {r k l c : ℕ} (A : Matrix (Fin r) (Fin k) ℚ) (B : Matrix (Fin k) (Fin l) ℚ)
    (C : Matrix (Fin l) (Fin c) ℚ) (i : Fin r) (j : Fin c) :
    ∑ y, |(A * B) i y * C y j| ≤ ∑ x, ∑ y, |A i x * B x y * C y j| ∧
      ∑ x, |A i x * (B * C) x j| ≤ ∑ x, ∑ y, |A i x * B x y * C y j| := by
  constructor
  · rw [Finset.sum_comm]
    refine Finset.sum_le_sum fun y _ => ?_
    rw [Matrix.mul_apply, Finset.sum_mul]
    exact Finset.abs_sum_le_sum_abs _ _
  · refine Finset.sum_le_sum fun x _ => ?_
    rw [Matrix.mul_apply, Finset.mul_sum]
    simp only [← mul_assoc]
    exact Finset.abs_sum_le_sum_abs _ _

/-- **Products chain exactly.** Three matrices on grids, with products of so few digits that their
absolute values add up to 53 digits at most. In whatever order numpy adds up each entry, the
products of two are exact, and a further call with such an answer makes the product of the three,
the same on either way. -/
theorem products_chain (numpy : Numpy) {r k l c : ℕ} (hr : 0 < r) (hk : 0 < k) (hl : 0 < l)
    (A : Matrix (Fin r) (Fin k) ℚ) (B : Matrix (Fin k) (Fin l) ℚ) (C : Matrix (Fin l) (Fin c) ℚ)
    {e f g : ℤ} (hA : ∀ i j, OnGrid e (A i j)) (hB : ∀ i j, OnGrid f (B i j))
    (hC : ∀ i j, OnGrid g (C i j)) (hef : Exponent (e + f)) (hfg : Exponent (f + g))
    (hefg : Exponent (e + f + g))
    (hAB : ∀ i j, ∑ x, |A i x * B x j| ≤ 2 ^ 53 * 2 ^ (e + f))
    (hBC : ∀ i j, ∑ y, |B i y * C y j| ≤ 2 ^ 53 * 2 ^ (f + g))
    (hABC : ∀ i j, ∑ x, ∑ y, |A i x * B x y * C y j| ≤ 2 ^ 53 * 2 ^ (e + f + g)) :
    compute numpy "prod".toList (entries A) (entries B) = .ok (.rows (entries (A * B))) ∧
      compute numpy "prod".toList (entries B) (entries C) = .ok (.rows (entries (B * C))) ∧
      compute numpy "prod".toList (entries (A * B)) (entries C)
        = .ok (.rows (entries (A * B * C))) ∧
      compute numpy "prod".toList (entries A) (entries (B * C))
        = .ok (.rows (entries (A * B * C))) := by
  refine ⟨prod_exact numpy hef hr hk (fun i x j => (hA i x).mul (hB x j)) hAB,
    prod_exact numpy hfg hk hl (fun i y j => (hB i y).mul (hC y j)) hBC, ?_, ?_⟩
  · exact prod_exact numpy hefg hr hl (fun i y j => (onGrid_mul_apply hA hB i y).mul (hC y j))
      fun i j => (sum_abs_mul_le A B C i j).1.trans (hABC i j)
  · rw [Matrix.mul_assoc]
    refine prod_exact numpy hefg hr hk (fun i x j => ?_)
      fun i j => (sum_abs_mul_le A B C i j).2.trans (hABC i j)
    rw [add_assoc]
    exact (hA i x).mul (onGrid_mul_apply hB hC x j)

/-- Numpy adding up from the last product to the first. -/
def Numpy.fromLast : Numpy where
  dot _ _ pairs := pairs.foldr (fun pair x => add (mul pair.1 pair.2) x) (num 0)
  isDot _ _ pairs := by
    induction pairs with
    | nil => exact .zero
    | cons pair pairs ih => exact .add (.product pair.1 pair.2) ih

/-- Quarters, halves and integers. -/
theorem products_chain_quarters :
    let A : Matrix (Fin 1) (Fin 2) ℚ := .of fun _ j => (![3, -1] j : ℤ) * 2 ^ (-2 : ℤ)
    let B : Matrix (Fin 2) (Fin 2) ℚ :=
      .of fun i j => (![![1, 10], ![14, -3]] i j : ℤ) * 2 ^ (-1 : ℤ)
    let C : Matrix (Fin 2) (Fin 1) ℚ := .of fun i _ => (![2, 9] i : ℤ) * 2 ^ (0 : ℤ)
    compute .fromLast "prod".toList (entries (A * B)) (entries C)
        = .ok (.rows (entries (A * B * C))) ∧
      compute .fromLast "prod".toList (entries A) (entries (B * C))
        = .ok (.rows (entries (A * B * C))) := by
  intro A B C
  have hchain := products_chain .fromLast (by decide) (by decide) (by decide) A B C
    (fun i j => ⟨_, rfl⟩) (fun i j => ⟨_, rfl⟩) (fun i j => ⟨_, rfl⟩)
    ⟨by decide, by decide⟩ ⟨by decide, by decide⟩ ⟨by decide, by decide⟩
    (by decide +kernel) (by decide +kernel) (by decide +kernel)
  exact hchain.2.2

end Matrices
