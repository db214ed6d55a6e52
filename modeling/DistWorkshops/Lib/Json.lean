import Mathlib.Data.Rat.Defs

/-!
# JSON values

The values `json.loads` returns. A string is a list of code points, lone surrogates included. A
number is an integer without a bound or a float, with its exact value when it is finite.
-/

set_option autoImplicit false

inductive Json where
  | null
  | bool (b : Bool)
  | int (n : ℤ)
  | float (q : ℚ)
  | infinity (negative : Bool)
  | nan
  | str (s : List (Fin 0x110000))
  | arr (items : List Json)
  | obj (entries : List (List (Fin 0x110000) × Json))

namespace Json

/-- A string: code points, of which those from `0xD800` to `0xDFFF` are lone surrogates. -/
abbrev Str := List (Fin 0x110000)

theorem toNat_lt (c : Char) : c.toNat < 0x110000 := by
  rcases c.valid with h | h
  · exact Nat.lt_trans h (by decide)
  · exact h.2

/-- The string of a literal of the source. -/
def text (s : String) : Str := s.toList.map fun c => ⟨c.toNat, toNat_lt c⟩

/-- A code point that is half of a pair of UTF-16, and no character. -/
def isSurrogate (c : Fin 0x110000) : Bool := decide (0xD800 ≤ c.val ∧ c.val ≤ 0xDFFF)

/-- The characters of a string; a string with a lone surrogate has none. -/
def chars? (s : Str) : Option (List Char) :=
  if s.any isSurrogate then none else some (s.map fun c => Char.ofNat c.val)

theorem chars?_eq_none_iff (s : Str) : chars? s = none ↔ ∃ c ∈ s, isSurrogate c = true := by
  rw [chars?, ← List.any_eq_true]
  cases s.any isSurrogate with
  | true => simp
  | false => simp

/-- The entry of an object under a key. -/
def field? (document : Json) (key : Str) : Option Json :=
  match document with
  | .obj entries => entries.lookup key
  | _ => none

theorem field?_obj (entries : List (Str × Json)) (key : Str) :
    (Json.obj entries).field? key = entries.lookup key := rfl

end Json
