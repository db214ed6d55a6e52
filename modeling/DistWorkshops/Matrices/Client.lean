import DistWorkshops.Matrices.Manager

/-!
# A session of the matrix manager

`client-matrix.py` reads an operation and two matrices, typed or random, calls `compute` and shows
its answer or its fault. For matrices of integers of few enough digits, the client shows what exact
arithmetic gives, in every case: the matrix, an array of zeros when there is nothing to add up, or
the fault of the first check that fails (`session_exact`).

XML-RPC carries integers, doubles and lists unchanged. What a number is typed as is any text that
reads as it.
-/

set_option autoImplicit false

namespace Matrices

open Text Decimal Double PyFloat

/-! ## The client -/

/-- What is typed for a matrix. -/
structure Typed where
  mode : List Char
  rows : List Char
  cols : List Char
  /-- The lines of a matrix that is not random. -/
  lines : ℕ → List Char

/-- What ends the client before the call. -/
inductive InputError where
  /-- `input` at the end of the input. -/
  | endOfInput
  | notAnInteger (s : List Char)
  | notANumber (s : List Char)
  | rowLength
  /-- A random matrix with a negative size. -/
  | negativeDimensions
  deriving DecidableEq

def operations : List (List Char) := ["add", "sub", "prod"].map String.toList

/-- What the server's answer comes to at the client. -/
abbrev Answer := Except Fault Nested

section Client

variable (unicode : Unicode) (lower : List Char → List Char)

/-- `int(input(...))`. -/
def readInt (s : List Char) : Except InputError ℤ :=
  match int? unicode s with
  | some z => .ok z
  | none => .error (.notAnInteger s)

/-- `int(input(...) or 3)`. -/
def readSize (s : List Char) : Except InputError ℤ :=
  if s.isEmpty then .ok 3 else readInt unicode s

def readNumber (s : List Char) : Except InputError PyFloat :=
  match float? unicode s with
  | some x => .ok (rounded x)
  | none => .error (.notANumber s)

def readRow (cols : ℤ) (line : List Char) : Except InputError (List PyFloat) := do
  let row ← (split line).mapM (readNumber unicode)
  if (row.length : ℤ) ≠ cols then .error .rowLength else return row

/-- `read_matrix`, with the random numbers less one as an argument. -/
def readMatrix (typed : Typed) (draw : ℕ → ℕ → Fin 9) :
    Except InputError (List (List PyFloat)) :=
  if lower (strip typed.mode) = "m".toList then do
    let rows ← readInt unicode typed.rows
    let cols ← readInt unicode typed.cols
    (List.range rows.toNat).mapM fun i => readRow unicode cols (typed.lines i)
  else do
    let rows ← readSize unicode typed.rows
    let cols ← readSize unicode typed.cols
    if rows < 0 ∨ cols < 0 then .error .negativeDimensions
    else return (List.range rows.toNat).map fun i =>
      (List.range cols.toNat).map fun j => num ((draw i j : ℕ) + 1 : ℕ)

/-- The operation is asked for until it is one of the three. -/
def readOperation (inputs : List (List Char)) : Except InputError (List Char) :=
  match (inputs.map fun s => lower (strip s)).find? fun op => operations.contains op with
  | some op => .ok op
  | none => .error .endOfInput

/-- `main`, from the operation on. -/
def session (numpy : Numpy) (inputs : List (List Char)) (typedA typedB : Typed)
    (drawA drawB : ℕ → ℕ → Fin 9) : Except InputError Answer := do
  let op ← readOperation lower inputs
  let matA ← readMatrix unicode lower typedA drawA
  let matB ← readMatrix unicode lower typedB drawB
  return compute numpy op matA matB

end Client

/-! ## Matrices of integers -/

/-- The matrix of some integers. -/
def block (r c : ℕ) (a : ℕ → ℕ → ℤ) : Matrix (Fin r) (Fin c) ℚ := .of fun i j => (a i j : ℚ)

/-- What is typed, and drawn, is a matrix of integers. -/
inductive Enters (unicode : Unicode) (lower : List Char → List Char) (typed : Typed)
    (draw : ℕ → ℕ → Fin 9) (r c : ℕ) : (ℕ → ℕ → ℤ) → Prop where
  | random (hmode : lower (strip typed.mode) ≠ "m".toList)
      (hrows : readSize unicode typed.rows = .ok r) (hcols : readSize unicode typed.cols = .ok c) :
      Enters unicode lower typed draw r c fun i j => (draw i j : ℕ) + 1
  | manual (a : ℕ → ℕ → ℤ) (hmode : lower (strip typed.mode) = "m".toList)
      (hrows : readInt unicode typed.rows = .ok r) (hcols : readInt unicode typed.cols = .ok c)
      (hlines : ∀ i < r, (split (typed.lines i)).map (float? unicode)
        = (List.range c).map fun j => some (num (a i j))) :
      Enters unicode lower typed draw r c a

theorem entries_block (r c : ℕ) (a : ℕ → ℕ → ℤ) :
    entries (block r c a)
      = (List.range r).map fun i => (List.range c).map fun j => num (a i j) := by
  simp only [range_map_eq]
  rfl

/-- An integer of at most 53 digits is a double. -/
theorem fits_intCast {z : ℤ} (h : |z| ≤ 2 ^ 53) : Fits 0 (z : ℚ) := by
  refine ⟨OnGrid.intCast z, ?_⟩
  rw [zpow_zero, mul_one]
  exact_mod_cast h

theorem exponent_zero : Exponent 0 := ⟨by decide, by decide⟩

section Reading

variable {unicode : Unicode} {lower : List Char → List Char} {typed : Typed}
  {draw : ℕ → ℕ → Fin 9} {r c : ℕ} {a : ℕ → ℕ → ℤ}

theorem mapM_readNumber {texts : List (List Char)} {xs : List PyFloat}
    (h : texts.map (float? unicode) = xs.map some) :
    texts.mapM (readNumber unicode) = .ok (xs.map rounded) := by
  induction texts generalizing xs with
  | nil =>
      cases xs with
      | nil => rfl
      | cons x xs => cases h
  | cons s texts ih =>
      cases xs with
      | nil => cases h
      | cons x xs =>
          obtain ⟨hs, htexts⟩ := List.cons.inj h
          have hread : readNumber unicode s = .ok (rounded x) := by rw [readNumber, hs]
          rw [List.mapM_cons, hread, ih htexts]
          rfl

theorem readMatrix_enters (h : Enters unicode lower typed draw r c a)
    (ha : ∀ i < r, ∀ j < c, |a i j| ≤ 2 ^ 53) :
    readMatrix unicode lower typed draw = .ok (entries (block r c a)) := by
  rw [entries_block]
  cases h with
  | random hmode hrows hcols =>
      have hsizes : ¬ ((r : ℤ) < 0 ∨ (c : ℤ) < 0) := by omega
      rw [readMatrix, if_neg hmode, hrows, hcols]
      show (if (r : ℤ) < 0 ∨ (c : ℤ) < 0 then Except.error InputError.negativeDimensions
        else Except.ok _) = _
      rw [if_neg hsizes]
      simp only [Int.toNat_natCast]
      push_cast
      rfl
  | manual a hmode hrows hcols hlines =>
      rw [readMatrix, if_pos hmode, hrows, hcols]
      show (List.range (r : ℤ).toNat).mapM _ = _
      rw [Int.toNat_natCast]
      refine mapM_ok fun i hi => ?_
      have hi' := List.mem_range.mp hi
      have hrow : (split (typed.lines i)).mapM (readNumber unicode)
          = .ok (((List.range c).map fun j => num (a i j)).map rounded) :=
        mapM_readNumber ((hlines i hi').trans (by rw [List.map_map]; rfl))
      have hrounded : ((List.range c).map fun j => num (a i j)).map rounded
          = (List.range c).map fun j => num (a i j) := by
        rw [List.map_map]
        refine List.map_congr_left fun j hj => ?_
        exact round_of_fits exponent_zero (fits_intCast (ha i hi' j (List.mem_range.mp hj)))
      rw [hrounded] at hrow
      rw [readRow, hrow]
      refine if_neg fun hne => hne ?_
      rw [List.length_map, List.length_range]

end Reading

/-! ## The answer of exact arithmetic -/

/-- The nested list of an array with the entries of a matrix. -/
def nested {r c : ℕ} (M : Matrix (Fin r) (Fin c) ℚ) : Nested :=
  if r = 0 then .numbers [] else .rows (entries M)

/-- What the client shows for an `r` by `k` and an `r'` by `c` matrix of integers. -/
def exactAnswer (op : List Char) (r k r' c : ℕ) (a b : ℕ → ℕ → ℤ) : Answer :=
  if op = "prod".toList then
    if r = 0 then .error .indexError
    else if k ≠ r' then .error (.mismatch op (shapeOf r k) (shapeOf r' c))
    else if k = 0 then .ok (.numbers (List.replicate r (num 0)))
    else .ok (.rows (entries (block r k a * block k c b)))
  else if shapeOf r k ≠ shapeOf r' c then .error (.mismatch op (shapeOf r k) (shapeOf r' c))
  else if op = "add".toList then .ok (nested (block r k a + block r k b))
  else .ok (nested (block r k a - block r k b))

theorem shapeOf_first (r c : ℕ) : (shapeOf r c).first = r := by
  unfold shapeOf
  split
  · exact ‹r = 0›.symm
  · rfl

theorem shapeOf_inj {r k r' c : ℕ} (hr : 0 < r) (h : shapeOf r k = shapeOf r' c) :
    r = r' ∧ k = c := by
  rw [shapeOf_pos hr] at h
  unfold shapeOf at h
  split at h
  · cases h
  · exact Shape.table.inj h

/-- The integers of a matrix are small. -/
def Bounded (N r c : ℕ) (a : ℕ → ℕ → ℤ) : Prop := ∀ i < r, ∀ j < c, |a i j| ≤ N

instance (N r c : ℕ) (a : ℕ → ℕ → ℤ) : Decidable (Bounded N r c a) :=
  inferInstanceAs (Decidable (∀ i < r, ∀ j < c, |a i j| ≤ N))

section Exact

variable {numpy : Numpy} {N r k r' c : ℕ} {a b : ℕ → ℕ → ℤ}

/-- An operation on each entry of two arrays of one shape. -/
theorem zipWith_tolist {f : PyFloat → PyFloat → PyFloat} {g : ℤ → ℤ → ℤ}
    (hf : ∀ x y : ℤ, |x| ≤ N → |y| ≤ N → f (num x) (num y) = num (g x y))
    (ha : Bounded N r k a) (hb : Bounded N r' c b) (hshape : shapeOf r k = shapeOf r' c)
    {s t : NdArray} (hs : s.shape = shapeOf r k)
    (hsentry : ∀ (i : Fin r) (j : Fin k), s.entry i j = num (block r k a i j))
    (htentry : ∀ (i : Fin r') (j : Fin c), t.entry i j = num (block r' c b i j)) :
    (s.zipWith f t).tolist = nested (block r k fun i j => g (a i j) (b i j)) := by
  rcases Nat.eq_zero_or_pos r with rfl | hr
  · rw [NdArray.tolist, show (s.zipWith f t).shape = .line 0 from hs]
    rfl
  · obtain ⟨rfl, rfl⟩ := shapeOf_inj hr hshape
    rw [nested, if_neg (Nat.ne_of_gt hr)]
    refine tolist_eq (hs.trans (shapeOf_pos hr k)) fun i j => ?_
    show f (s.entry i j) (t.entry i j) = _
    rw [hsentry i j, htentry i j]
    exact hf _ _ (ha i i.isLt j j.isLt) (hb i i.isLt j j.isLt)

theorem abs_add_le_of_bounded (hN : 2 * N ≤ 2 ^ 53) {x y : ℤ} (hx : |x| ≤ N) (hy : |y| ≤ N) :
    |x + y| ≤ 2 ^ 53 := by
  have hsum := abs_add_le x y
  have hN' : (2 * N : ℤ) ≤ 2 ^ 53 := by exact_mod_cast hN
  linarith

theorem add_intCast (hN : 2 * N ≤ 2 ^ 53) {x y : ℤ} (hx : |x| ≤ N) (hy : |y| ≤ N) :
    add (num x) (num y) = num ((x + y : ℤ) : ℚ) := by
  have hfits := fits_intCast (abs_add_le_of_bounded hN hx hy)
  rw [Int.cast_add] at hfits ⊢
  exact add_of_fits exponent_zero hfits

theorem sub_intCast (hN : 2 * N ≤ 2 ^ 53) {x y : ℤ} (hx : |x| ≤ N) (hy : |y| ≤ N) :
    sub (num x) (num y) = num ((x - y : ℤ) : ℚ) := by
  have hfits := fits_intCast (abs_add_le_of_bounded hN hx ((abs_neg y).trans_le hy))
  rw [← sub_eq_add_neg, Int.cast_sub] at hfits
  rw [Int.cast_sub]
  exact sub_of_fits exponent_zero hfits

theorem sum_abs_le (hN : k * (N * N) ≤ 2 ^ 53) (ha : Bounded N r k a) (hb : Bounded N k c b)
    (i : Fin r) (j : Fin c) :
    ∑ l, |block r k a i l * block k c b l j| ≤ 2 ^ 53 * 2 ^ (0 : ℤ) := by
  have hone : ∀ l : Fin k, |block r k a i l * block k c b l j| ≤ ((N * N : ℕ) : ℚ) := fun l => by
    have hx := ha i i.isLt l l.isLt
    have hy := hb l l.isLt j j.isLt
    have hprod : |a i l * b l j| ≤ (N * N : ℕ) := by
      rw [abs_mul]
      push_cast
      exact mul_le_mul hx hy (abs_nonneg _) (Int.natCast_nonneg N)
    show |(a i l : ℚ) * (b l j : ℚ)| ≤ _
    exact_mod_cast hprod
  calc ∑ l, |block r k a i l * block k c b l j| ≤ ∑ _l : Fin k, ((N * N : ℕ) : ℚ) :=
        Finset.sum_le_sum fun l _ => hone l
    _ = ((k * (N * N) : ℕ) : ℚ) := by
        rw [Finset.sum_const, Finset.card_univ, Fintype.card_fin, nsmul_eq_mul]
        push_cast
        rfl
    _ ≤ 2 ^ 53 * 2 ^ (0 : ℤ) := by
        rw [zpow_zero, mul_one]
        exact_mod_cast hN

theorem prod_exactAnswer (hN : k * (N * N) ≤ 2 ^ 53) (ha : Bounded N r k a)
    (hb : Bounded N r' c b) :
    compute numpy "prod".toList (entries (block r k a)) (entries (block r' c b))
      = exactAnswer "prod".toList r k r' c a b := by
  obtain ⟨s, hs, hsshape, hsentry⟩ := npArray_entries (block r k a)
  obtain ⟨t, ht, htshape, htentry⟩ := npArray_entries (block r' c b)
  rw [exactAnswer, if_pos rfl]
  rcases Nat.eq_zero_or_pos r with rfl | hr
  · rw [if_pos rfl]
    exact compute_prod_line hs ht hsshape
  rw [if_neg (Nat.ne_of_gt hr)]
  have hstable : s.shape = .table r k := hsshape.trans (shapeOf_pos hr k)
  by_cases hk : k = r'
  · subst hk
    rw [if_neg fun h => h rfl]
    rcases Nat.eq_zero_or_pos k with rfl | hkpos
    · -- no products to add up
      rw [if_pos rfl, compute_prod hs ht hstable, htshape, shapeOf_first, if_neg fun h => h rfl]
      refine congrArg _ ?_
      have hzero : ∀ i : ℕ, numpy.dot i 0 [] = num 0 := fun i =>
        dot_exact numpy exponent_zero (k := 0) (x := fun l => l.elim0) (y := fun l => l.elim0)
          (fun l => l.elim0) (by simp) i 0
      have hline : (NdArray.matmul numpy r 0 s t).shape = .line r := by
        rw [NdArray.matmul, htshape]
        rfl
      rw [NdArray.tolist, hline]
      show Nested.numbers ((List.range r).map fun i => numpy.dot i 0 []) = _
      simp only [hzero, List.map_const', List.length_range]
    · rw [if_neg (Nat.ne_of_gt hkpos)]
      exact prod_exact numpy exponent_zero hr hkpos
        (fun i l j => (OnGrid.intCast (a i l)).mul (OnGrid.intCast (b l j)))
        (sum_abs_le hN ha hb)
  · rw [if_pos hk, compute_prod hs ht hstable, htshape, shapeOf_first, if_pos hk, hsshape]

theorem block_add : (block r k fun i j => a i j + b i j) = block r k a + block r k b := by
  ext i j
  exact Int.cast_add _ _

theorem block_sub : (block r k fun i j => a i j - b i j) = block r k a - block r k b := by
  ext i j
  exact Int.cast_sub _ _

theorem compute_exactAnswer {op : List Char} (hop : op ∈ operations) (hsum : 2 * N ≤ 2 ^ 53)
    (hprod : k * (N * N) ≤ 2 ^ 53) (ha : Bounded N r k a) (hb : Bounded N r' c b) :
    compute numpy op (entries (block r k a)) (entries (block r' c b))
      = exactAnswer op r k r' c a b := by
  obtain ⟨s, hs, hsshape, hsentry⟩ := npArray_entries (block r k a)
  obtain ⟨t, ht, htshape, htentry⟩ := npArray_entries (block r' c b)
  simp only [operations, List.map_cons, List.map_nil, List.mem_cons, List.not_mem_nil,
    or_false] at hop
  obtain rfl | rfl | rfl := hop
  · have hnot : "add".toList ≠ "prod".toList := by decide
    rw [compute_add hs ht, exactAnswer, if_neg hnot, hsshape, htshape]
    by_cases hshape : shapeOf r k = shapeOf r' c
    · rw [if_neg (not_not.mpr hshape), if_neg (not_not.mpr hshape), if_pos rfl, ← block_add]
      exact congrArg _ (zipWith_tolist (fun _ _ => add_intCast hsum) ha hb hshape hsshape
        hsentry htentry)
    · rw [if_pos hshape, if_pos hshape]
  · have hnot : "sub".toList ≠ "prod".toList := by decide
    have hnot' : "sub".toList ≠ "add".toList := by decide
    rw [compute_sub hs ht, exactAnswer, if_neg hnot, hsshape, htshape]
    by_cases hshape : shapeOf r k = shapeOf r' c
    · rw [if_neg (not_not.mpr hshape), if_neg (not_not.mpr hshape), if_neg hnot',
        ← block_sub]
      exact congrArg _ (zipWith_tolist (fun _ _ => sub_intCast hsum) ha hb hshape hsshape
        hsentry htentry)
    · rw [if_pos hshape, if_pos hshape]
  · exact prod_exactAnswer hprod ha hb

end Exact

/-- **A session is exact on integers.** The matrices are random, or typed in any texts that read as
their integers, and no integer is greater than `N`, where twice `N` and the sum of as many squares
of `N` as the first matrix has columns have 53 digits. Whatever their sizes, the client shows the
answer of exact arithmetic, in whatever order numpy adds up. -/
theorem session_exact (unicode : Unicode) (lower : List Char → List Char) (numpy : Numpy)
    (inputs : List (List Char)) (op : List Char) (typedA typedB : Typed)
    (drawA drawB : ℕ → ℕ → Fin 9) (N r k r' c : ℕ) (a b : ℕ → ℕ → ℤ)
    (hop : readOperation lower inputs = .ok op)
    (hA : Enters unicode lower typedA drawA r k a) (hB : Enters unicode lower typedB drawB r' c b)
    (ha : Bounded N r k a) (hb : Bounded N r' c b) (hsum : 2 * N ≤ 2 ^ 53)
    (hprod : k * (N * N) ≤ 2 ^ 53) :
    session unicode lower numpy inputs typedA typedB drawA drawB
      = .ok (exactAnswer op r k r' c a b) := by
  have hmem : op ∈ operations := by
    unfold readOperation at hop
    split at hop
    · obtain rfl := Except.ok.inj hop
      exact List.contains_iff_mem.mp (List.find?_some ‹_›)
    · cases hop
  have hdigits : ∀ {r c : ℕ} {a : ℕ → ℕ → ℤ}, Bounded N r c a →
      ∀ i < r, ∀ j < c, |a i j| ≤ 2 ^ 53 := fun h i hi j hj => by
    have hN : (N : ℤ) ≤ 2 ^ 53 := by
      have hN' : (2 * N : ℤ) ≤ 2 ^ 53 := by exact_mod_cast hsum
      linarith [Int.natCast_nonneg N]
    exact (h i hi j hj).trans hN
  rw [session, hop, readMatrix_enters hA (hdigits ha), readMatrix_enters hB (hdigits hb)]
  exact congrArg Except.ok (compute_exactAnswer hmem hsum hprod ha hb)

/-- A random matrix of two rows and three columns by a column typed as decimals. -/
theorem session_exact_typed :
    let typedA : Typed := ⟨"r".toList, "2".toList, [], fun _ => []⟩
    let typedB : Typed := ⟨" M".toList, "3".toList, " 1".toList, fun i =>
      ["1.0".toList, "-20e-1".toList, " 3 ".toList].getD i []⟩
    let draw : ℕ → ℕ → Fin 9 := fun i j => if i = j then ⟨8, by decide⟩ else ⟨4, by decide⟩
    session .ascii (List.map Char.toLower) .fromLast ["mul".toList, "PROD ".toList] typedA typedB
        draw draw
      = .ok (exactAnswer "prod".toList 2 3 3 1 (fun i j => (draw i j : ℕ) + 1)
          fun i _ => [1, -2, 3].getD i 0) := by
  intro typedA typedB draw
  exact session_exact .ascii (List.map Char.toLower) .fromLast _ "prod".toList typedA typedB draw
    draw 9 2 3 3 1 _ _ (by decide) (.random (by decide) (by decide) (by decide))
    (.manual _ (by decide) (by decide) (by decide) (by decide +kernel)) (by decide +kernel)
    (by decide +kernel) (by decide) (by decide)

end Matrices
