import Mathlib.Data.Nat.Notation

/-!
# The Python runtime

The exceptions the modelled functions may raise, and the library calls that several of the
modelled programs share. A function that may raise returns `Except PyError`.
-/

set_option autoImplicit false

/-- The exceptions the modelled programs raise or let through. -/
inductive PyError where
  | indexError
  | keyError
  | typeError
  | valueError
  | attributeError
  | recursionError
  deriving DecidableEq, Repr

/-- `random.choice(xs)`: the element at a random position `draw`, reduced to the length of
`xs`, so that every natural number is a draw and every element is drawn by some number. It
raises `IndexError` on the empty list. -/
def randomChoice {α : Type} (xs : List α) (draw : ℕ) : Except PyError α :=
  match xs[draw % xs.length]? with
  | some x => .ok x
  | none => .error .indexError

theorem randomChoice_nil {α : Type} (draw : ℕ) :
    randomChoice ([] : List α) draw = .error .indexError := rfl

theorem randomChoice_mem {α : Type} {xs : List α} (hne : xs ≠ []) (draw : ℕ) :
    ∃ x ∈ xs, randomChoice xs draw = .ok x := by
  have hpos : 0 < xs.length := List.length_pos_iff.mpr hne
  have hlt : draw % xs.length < xs.length := Nat.mod_lt _ hpos
  refine ⟨xs[draw % xs.length], List.getElem_mem hlt, ?_⟩
  rw [randomChoice, List.getElem?_eq_getElem hlt]

/-- Every element is drawn by its position. -/
theorem randomChoice_surj {α : Type} {xs : List α} {x : α} (hx : x ∈ xs) :
    ∃ draw, randomChoice xs draw = .ok x := by
  obtain ⟨i, hi, rfl⟩ := List.getElem_of_mem hx
  refine ⟨i, ?_⟩
  rw [randomChoice, Nat.mod_eq_of_lt hi, List.getElem?_eq_getElem hi]

/-! ## Loops that collect results -/

theorem mapM_ok {α β ε : Type} {f : α → Except ε β} {g : α → β} {xs : List α}
    (h : ∀ x ∈ xs, f x = .ok (g x)) : xs.mapM f = .ok (xs.map g) := by
  induction xs with
  | nil => rfl
  | cons x xs ih =>
      rw [List.mapM_cons, h x List.mem_cons_self, ih fun y hy => h y (List.mem_cons_of_mem x hy)]
      rfl

theorem mapM_cons_error {α β : Type} {f : α → Except PyError β} {x : α} {e : PyError}
    (h : f x = .error e) (xs : List α) : (x :: xs).mapM f = .error e := by
  rw [List.mapM_cons, h]
  rfl
