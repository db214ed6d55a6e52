import DistWorkshops.Lib.Decimal

/-!
# Floats

The values of Python's `float`, with exact rationals for the finite ones: what `float(s)` reads,
and the comparisons, all of which are false on `nan`. A number is not rounded to the nearest
double, and one that is out of their range stays a number.
-/

set_option autoImplicit false

inductive PyFloat where
  | num (q : ℚ)
  | infinity (negative : Bool)
  | nan
  deriving DecidableEq

namespace PyFloat

open Text Decimal

/-! ## Values -/

def neg : PyFloat → PyFloat
  | num q => num (-q)
  | infinity negative => infinity (!negative)
  | nan => nan

/-- `x - q`, for a finite `q`. -/
def sub (x : PyFloat) (q : ℚ) : PyFloat :=
  match x with
  | num p => num (p - q)
  | infinity negative => infinity negative
  | nan => nan

def abs : PyFloat → PyFloat
  | num q => num |q|
  | infinity _ => infinity false
  | nan => nan

/-- `x <= q`, for a finite `q`. -/
def le (x : PyFloat) (q : ℚ) : Bool :=
  match x with
  | num p => decide (p ≤ q)
  | infinity negative => negative
  | nan => false

/-- `x > q`, for a finite `q`. -/
def gt (x : PyFloat) (q : ℚ) : Bool :=
  match x with
  | num p => decide (p > q)
  | infinity negative => !negative
  | nan => false

/-! ## Reading -/

/-- Digits, or nothing at all. -/
def optionalNumerals? (unicode : Unicode) : List Char → Option (List ℕ)
  | [] => some []
  | c :: cs => numerals? unicode (c :: cs)

/-- Digits with at most one point, before, between or after them. -/
def mantissa? (unicode : Unicode) (s : List Char) : Option ℚ :=
  let whole := s.takeWhile (· ≠ '.')
  match s.dropWhile (· ≠ '.') with
  | [] => (numerals? unicode whole).map fun ds => (value ds : ℚ)
  | _ :: fraction =>
      if whole.isEmpty && fraction.isEmpty then none
      else do
        let ds ← optionalNumerals? unicode whole
        let fs ← optionalNumerals? unicode fraction
        return (value (ds ++ fs) : ℚ) / 10 ^ fs.length

/-- A character that is not the `e` of an exponent. -/
def inMantissa (c : Char) : Bool := c ≠ 'e' && c ≠ 'E'

def number? (unicode : Unicode) (s : List Char) : Option ℚ :=
  match s.dropWhile inMantissa with
  | [] => mantissa? unicode s
  | _ :: exponent => do
      let m ← mantissa? unicode (s.takeWhile inMantissa)
      let e ← signed? unicode exponent
      return m * 10 ^ e

/-- A number without a sign, or a special value in any case. -/
def unsigned? (unicode : Unicode) (s : List Char) : Option PyFloat :=
  let lower := s.map Char.toLower
  if lower = "inf".toList ∨ lower = "infinity".toList then some (infinity false)
  else if lower = "nan".toList then some nan
  else (number? unicode s).map num

/-- `float(s)`; there is none when it raises `ValueError`. -/
def float? (unicode : Unicode) (s : List Char) : Option PyFloat :=
  let (negative, cs) := Decimal.unsigned (trim s)
  (unsigned? unicode cs).map fun x => if negative then x.neg else x

/-! ## Reading a fixed-point format -/

theorem optionalNumerals?_of_isDigit (unicode : Unicode) {cs : List Char}
    (h : ∀ c ∈ cs, c.isDigit = true) :
    optionalNumerals? unicode cs = some (cs.map fun c => c.toNat - '0'.toNat) := by
  cases cs with
  | nil => rfl
  | cons c cs => exact numerals?_of_isDigit unicode (List.cons_ne_nil c cs) h

/-- Digits, a point, and digits: the digits are read as one number. -/
theorem mantissa?_point (unicode : Unicode) {ws fs : List Char} (hne : ws ≠ [])
    (hw : ∀ c ∈ ws, c.isDigit = true) (hf : ∀ c ∈ fs, c.isDigit = true) :
    mantissa? unicode (ws ++ '.' :: fs)
      = some ((Nat.ofDigitChars 10 (ws ++ fs) 0 : ℚ) / 10 ^ fs.length) := by
  have hpoint : ∀ c ∈ ws, decide (c ≠ '.') = true := fun c hc =>
    decide_eq_true (ne_of_isDigit (hw c hc) (by decide))
  have htake : (ws ++ '.' :: fs).takeWhile (· ≠ '.') = ws := by
    rw [List.takeWhile_append_of_pos hpoint]
    simp
  have hdrop : (ws ++ '.' :: fs).dropWhile (· ≠ '.') = '.' :: fs := by
    rw [List.dropWhile_append_of_pos hpoint]
    simp
  have hempty : (ws.isEmpty && fs.isEmpty) = false := by
    rw [List.isEmpty_eq_false_iff.mpr hne, Bool.false_and]
  simp only [mantissa?, htake, hdrop, hempty]
  rw [optionalNumerals?_of_isDigit unicode hw, optionalNumerals?_of_isDigit unicode hf,
    ← value_of_isDigit, List.map_append]
  simp

/-- A text that starts with a digit is no special value. -/
theorem unsigned?_of_isDigit (unicode : Unicode) {c : Char} (cs : List Char)
    (hc : c.isDigit = true) :
    unsigned? unicode (c :: cs) = (number? unicode (c :: cs)).map num := by
  have hlower : c.toLower = c := by
    have hdigit := (isDigit_iff c).mp hc
    have hupper : ¬ ('A'.val ≤ c.val ∧ c.val ≤ 'Z'.val) := by
      have hle : ('A'.val ≤ c.val ∧ c.val ≤ 'Z'.val) ↔ 65 ≤ c.toNat ∧ c.toNat ≤ 90 := Iff.rfl
      rw [hle]
      omega
    exact dif_neg hupper
  have hhead : ∀ (d : Char) (ds : List Char), d.isDigit = false →
      (c :: cs).map Char.toLower ≠ d :: ds := by
    intro d ds hd heq
    rw [List.map_cons, hlower] at heq
    exact ne_of_isDigit hc hd (List.cons.inj heq).1
  have hinf : (c :: cs).map Char.toLower ≠ "inf".toList := hhead 'i' _ (by decide)
  have hinfinity : (c :: cs).map Char.toLower ≠ "infinity".toList := hhead 'i' _ (by decide)
  have hnan : (c :: cs).map Char.toLower ≠ "nan".toList := hhead 'n' _ (by decide)
  simp only [unsigned?]
  rw [if_neg (not_or.mpr ⟨hinf, hinfinity⟩), if_neg hnan]

/-- **`float(f"{q:.kf}")` is `round(q, k)`**, for a `q` that is not negative. -/
theorem float?_fixed (unicode : Unicode) {k : ℕ} (hk : 0 < k) {q : ℚ} (hq : 0 ≤ q) :
    float? unicode (fixed k q) = some (num (roundTo k q)) := by
  have hmantissa : mantissa? unicode (fixed k q) = some (roundTo k q) := by
    obtain ⟨n, hn, hfixed⟩ := fixed_of_nonneg k hq
    have hmod : n % 10 ^ k < 10 ^ k := Nat.mod_lt n (Nat.pow_pos (by decide))
    calc mantissa? unicode (fixed k q)
        = some ((Nat.ofDigitChars 10 (digits (n / 10 ^ k)
            ++ (digits (n % 10 ^ k)).leftpad k '0') 0 : ℚ)
            / 10 ^ ((digits (n % 10 ^ k)).leftpad k '0').length) := by
          rw [hfixed]
          exact mantissa?_point unicode (digits_ne_nil _) (fun c hc => isDigit_of_mem_digits hc)
            (fun c hc => isDigit_of_mem_leftpad hc)
      _ = some ((n : ℚ) / 10 ^ k) := by
          rw [ofDigitChars_fixed hk hmod, length_leftpad hk hmod, Nat.div_add_mod']
      _ = some (roundTo k q) := by
          rw [roundTo, hn]
          rfl
  have hexponent : (fixed k q).dropWhile inMantissa = [] := by
    rw [List.dropWhile_eq_nil_iff]
    intro c hc
    rcases mem_fixed hq hc with hdigit | rfl
    · have he : c ≠ 'e' := ne_of_isDigit hdigit (by decide)
      have hE : c ≠ 'E' := ne_of_isDigit hdigit (by decide)
      simp [inMantissa, he, hE]
    · decide
  have hnumber : number? unicode (fixed k q) = some (roundTo k q) := by
    simp only [number?, hexponent, hmantissa]
  obtain ⟨c, cs, hcs, hc⟩ := fixed_head k hq
  rw [float?, trim_solid (fixed_solid hq)]
  rw [hcs] at hnumber ⊢
  rw [unsigned_of_isDigit cs hc]
  simp only [unsigned?_of_isDigit unicode cs hc, hnumber, Option.map_some]
  rfl

end PyFloat
