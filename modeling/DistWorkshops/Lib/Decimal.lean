import Mathlib.Algebra.Order.Floor.Ring
import Mathlib.Data.Rat.Floor
import Mathlib.Tactic.Linarith
import DistWorkshops.Lib.Text

/-!
# Decimal numbers

How numbers are written and read: `str` and `int` of an integer, and the format `.kf` of a
rational, which rounds half to even. Reading accepts what Python does: every decimal digit of the
Unicode database, single underscores between digits, a sign, white space around. The limit of 4300
digits, from which on `int` and `str` raise `ValueError`, is left out.
-/

set_option autoImplicit false

namespace Decimal

open Text

/-! ## Digits -/

/-- `str(n)`. -/
def digits (n : ℕ) : List Char := Nat.toDigits 10 n

/-- `str` of an integer. -/
def intText : ℤ → List Char
  | .ofNat n => digits n
  | .negSucc n => '-' :: digits (n + 1)

/-- The values of a non-empty run of digits, with single underscores between them. -/
def numerals? (unicode : Unicode) : List Char → Option (List ℕ)
  | [] => none
  | [c] => (unicode.decimal c).map fun d => [d]
  | c :: '_' :: cs => do
      let d ← unicode.decimal c
      let ds ← numerals? unicode cs
      return d :: ds
  | c :: c' :: cs => do
      let d ← unicode.decimal c
      let ds ← numerals? unicode (c' :: cs)
      return d :: ds

def value (ds : List ℕ) : ℕ := ds.foldl (fun n d => 10 * n + d) 0

theorem digits_ne_nil (n : ℕ) : digits n ≠ [] := Nat.toDigits_ne_nil

theorem isDigit_of_mem_digits {n : ℕ} {c : Char} (h : c ∈ digits n) : c.isDigit = true :=
  Nat.isDigit_of_mem_toDigits (by decide) (by decide) h

theorem not_mem_digits {c : Char} (hc : c.isDigit = false) (n : ℕ) : c ∉ digits n := by
  intro h
  rw [isDigit_of_mem_digits h] at hc
  cases hc

theorem isDigit_iff (c : Char) : c.isDigit = true ↔ 48 ≤ c.toNat ∧ c.toNat ≤ 57 :=
  Char.isDigit_iff_toNat

theorem not_isSpace_of_isDigit {c : Char} (h : c.isDigit = true) : isSpace c = false := by
  have hc := (isDigit_iff c).mp h
  simp [isSpace]
  omega

theorem ne_of_isDigit {c d : Char} (hc : c.isDigit = true) (hd : d.isDigit = false) : c ≠ d := by
  rintro rfl
  rw [hc] at hd
  cases hd

theorem solid_of_isDigit {cs : List Char} (h : ∀ c ∈ cs, c.isDigit = true) : Solid cs :=
  fun c hc => not_isSpace_of_isDigit (h c hc)

/-- Reading ASCII digits. -/
theorem numerals?_of_isDigit (unicode : Unicode) {cs : List Char} (hne : cs ≠ [])
    (h : ∀ c ∈ cs, c.isDigit = true) :
    numerals? unicode cs = some (cs.map fun c => c.toNat - '0'.toNat) := by
  have hdecimal : ∀ c : Char, c.isDigit = true →
      unicode.decimal c = some (c.toNat - '0'.toNat) := by
    intro c hc
    have hlt : c.toNat < 128 := by
      have := (isDigit_iff c).mp hc
      omega
    rw [unicode.decimal_ascii c hlt, if_pos hc]
  induction cs with
  | nil => exact absurd rfl hne
  | cons c cs ih =>
      have hc := hdecimal c (h c List.mem_cons_self)
      cases cs with
      | nil =>
          rw [numerals?, hc]
          rfl
      | cons c' cs =>
          have hrest := ih (List.cons_ne_nil c' cs) fun d hd => h d (List.mem_cons_of_mem c hd)
          have hc' : c' ≠ '_' :=
            ne_of_isDigit (h c' (List.mem_cons_of_mem c List.mem_cons_self)) (by decide)
          rw [numerals?, hc, hrest]
          · rfl
          · exact hc'

theorem value_of_isDigit (cs : List Char) :
    value (cs.map fun c => c.toNat - '0'.toNat) = Nat.ofDigitChars 10 cs 0 := by
  rw [value, List.foldl_map, Nat.ofDigitChars_eq_foldl]

/-- Reading a number back. -/
theorem numerals?_digits (unicode : Unicode) (n : ℕ) :
    ∃ ds, numerals? unicode (digits n) = some ds ∧ value ds = n := by
  refine ⟨_, numerals?_of_isDigit unicode (digits_ne_nil n) fun c hc => isDigit_of_mem_digits hc,
    ?_⟩
  rw [value_of_isDigit]
  exact Nat.ofDigitChars_ten_toDigits

theorem value_append (ds es : List ℕ) :
    value (ds ++ es) = value ds * 10 ^ es.length + value es := by
  have hfoldl : ∀ n, es.foldl (fun n d => 10 * n + d) n = n * 10 ^ es.length + value es := by
    unfold value
    induction es with
    | nil => intro n; simp
    | cons e es ih =>
        intro n
        rw [List.foldl_cons, ih, List.foldl_cons, ih (10 * 0 + e), List.length_cons, Nat.pow_succ]
        ring
  rw [value, List.foldl_append, hfoldl]
  rfl

/-- Further digits leave the value alone only if it is zero. -/
theorem value_append_eq_iff {ds es : List ℕ} (hne : es ≠ []) :
    value (ds ++ es) = value ds ↔ value (ds ++ es) = 0 := by
  have hpos : 0 < es.length := List.length_pos_iff.mpr hne
  have hten : 10 ≤ 10 ^ es.length := Nat.le_self_pow (Nat.pos_iff_ne_zero.mp hpos) 10
  have hle : value ds * 10 ≤ value ds * 10 ^ es.length := Nat.mul_le_mul_left _ hten
  rw [value_append]
  constructor
  · intro h
    omega
  · intro h
    omega

theorem numerals?_ne_nil {unicode : Unicode} {cs : List Char} {ds : List ℕ}
    (h : numerals? unicode cs = some ds) : ds ≠ [] := by
  fun_induction numerals? unicode cs generalizing ds with
  | case1 => cases h
  | case2 c =>
      obtain ⟨d, -, rfl⟩ := Option.map_eq_some_iff.mp h
      exact List.cons_ne_nil d []
  | case3 c cs ih =>
      obtain ⟨d, -, h⟩ := Option.bind_eq_some_iff.mp h
      obtain ⟨es, -, h⟩ := Option.bind_eq_some_iff.mp h
      rw [← Option.some.inj h]
      exact List.cons_ne_nil d es
  | case4 c c' cs hc' ih =>
      obtain ⟨d, -, h⟩ := Option.bind_eq_some_iff.mp h
      obtain ⟨es, -, h⟩ := Option.bind_eq_some_iff.mp h
      rw [← Option.some.inj h]
      exact List.cons_ne_nil d es

/-- What ASCII numerals look like: digits only, or digits up to an underscore and more digits. -/
theorem numerals?_ascii (unicode : Unicode) {cs : List Char} (hascii : ∀ c ∈ cs, c.toNat < 128)
    {ds : List ℕ} (h : numerals? unicode cs = some ds) :
    cs ≠ [] ∧ ((∀ c ∈ cs, c.isDigit = true) ∨
      ∃ front back es, cs = front ++ '_' :: back ∧ (∀ c ∈ front, c.isDigit = true) ∧
        front ≠ [] ∧ es ≠ [] ∧ ds = (front.map fun c => c.toNat - '0'.toNat) ++ es) := by
  have hdigit : ∀ c : Char, c.toNat < 128 → ∀ d, unicode.decimal c = some d →
      c.isDigit = true ∧ d = c.toNat - '0'.toNat := by
    intro c hc d hd
    rw [unicode.decimal_ascii c hc] at hd
    by_cases hdig : c.isDigit = true
    · rw [if_pos hdig] at hd
      exact ⟨hdig, (Option.some.inj hd).symm⟩
    · rw [if_neg hdig] at hd
      cases hd
  fun_induction numerals? unicode cs generalizing ds with
  | case1 => cases h
  | case2 c =>
      obtain ⟨d, hd, -⟩ := Option.map_eq_some_iff.mp h
      have hc := hdigit c (hascii c List.mem_cons_self) d hd
      refine ⟨List.cons_ne_nil c [], Or.inl fun x hx => ?_⟩
      rw [List.mem_singleton.mp hx]
      exact hc.1
  | case3 c cs ih =>
      obtain ⟨d, hd, h⟩ := Option.bind_eq_some_iff.mp h
      obtain ⟨es, hes, h⟩ := Option.bind_eq_some_iff.mp h
      obtain ⟨hc, rfl⟩ := hdigit c (hascii c List.mem_cons_self) d hd
      refine ⟨List.cons_ne_nil c _, Or.inr ⟨[c], cs, es, rfl, ?_, List.cons_ne_nil c [], ?_, ?_⟩⟩
      · intro x hx
        rw [List.mem_singleton.mp hx]
        exact hc
      · exact numerals?_ne_nil hes
      · exact (Option.some.inj h).symm
  | case4 c c' cs hc' ih =>
      obtain ⟨d, hd, h⟩ := Option.bind_eq_some_iff.mp h
      obtain ⟨es, hes, h⟩ := Option.bind_eq_some_iff.mp h
      obtain ⟨hc, rfl⟩ := hdigit c (hascii c List.mem_cons_self) d hd
      refine ⟨List.cons_ne_nil c _, ?_⟩
      rw [← Option.some.inj h]
      obtain ⟨-, hall | ⟨front, back, fs, hcs, hfront, hne, hfs, rfl⟩⟩ :=
        ih (fun x hx => hascii x (List.mem_cons_of_mem c hx)) hes
      · exact Or.inl (List.forall_mem_cons.mpr ⟨hc, hall⟩)
      · have hall : ∀ x ∈ c :: front, x.isDigit = true := List.forall_mem_cons.mpr ⟨hc, hfront⟩
        refine Or.inr ⟨c :: front, back, fs, ?_, hall, List.cons_ne_nil c front, hfs, rfl⟩
        rw [hcs]
        rfl

/-! ## Integers -/

/-- A sign, if there is one: whether it is a minus, and the rest. -/
def unsigned : List Char → Bool × List Char
  | '-' :: cs => (true, cs)
  | '+' :: cs => (false, cs)
  | cs => (false, cs)

theorem unsigned_of_ne {c : Char} (hminus : c ≠ '-') (hplus : c ≠ '+') (cs : List Char) :
    unsigned (c :: cs) = (false, c :: cs) := by
  rw [unsigned]
  · intro cs' hcs
    exact hminus (List.cons.inj hcs).1
  · intro cs' hcs
    exact hplus (List.cons.inj hcs).1

theorem unsigned_of_isDigit {c : Char} (cs : List Char) (h : c.isDigit = true) :
    unsigned (c :: cs) = (false, c :: cs) :=
  unsigned_of_ne (ne_of_isDigit h (by decide)) (ne_of_isDigit h (by decide)) cs

/-- The sign is that of the first character. -/
theorem unsigned_append {s : List Char} (hne : s ≠ []) (t : List Char) :
    unsigned (s ++ t) = ((unsigned s).1, (unsigned s).2 ++ t) := by
  obtain ⟨c, cs, rfl⟩ := List.exists_cons_of_ne_nil hne
  by_cases hminus : c = '-'
  · subst hminus
    rfl
  · by_cases hplus : c = '+'
    · subst hplus
      rfl
    · rw [List.cons_append, unsigned_of_ne hminus hplus, unsigned_of_ne hminus hplus]
      rfl

theorem mem_of_mem_unsigned {c : Char} {s : List Char} (h : c ∈ (unsigned s).2) : c ∈ s := by
  fun_cases unsigned s with
  | case1 cs => exact List.mem_cons_of_mem '-' h
  | case2 cs => exact List.mem_cons_of_mem '+' h
  | case3 => rwa [unsigned] at h <;> assumption

/-- A number with a sign. -/
def signed? (unicode : Unicode) (s : List Char) : Option ℤ :=
  let (negative, cs) := unsigned s
  (numerals? unicode cs).map fun ds => if negative then -(value ds : ℤ) else value ds

theorem sign_inj (negative : Bool) {m n : ℕ} :
    ((if negative then -(m : ℤ) else m) = if negative then -(n : ℤ) else n) ↔ m = n := by
  cases negative <;> simp

theorem sign_eq_zero_iff (negative : Bool) {n : ℕ} :
    (if negative then -(n : ℤ) else n) = 0 ↔ n = 0 := by
  cases negative <;> simp

theorem signed?_eq_some {unicode : Unicode} {s : List Char} {z : ℤ}
    (h : signed? unicode s = some z) :
    ∃ ds, numerals? unicode (unsigned s).2 = some ds ∧
      z = if (unsigned s).1 then -(value ds : ℤ) else value ds := by
  obtain ⟨ds, hds, rfl⟩ := Option.map_eq_some_iff.mp h
  exact ⟨ds, hds, rfl⟩

/-- `int(s)`; there is none when it raises `ValueError`. -/
def int? (unicode : Unicode) (s : List Char) : Option ℤ := signed? unicode (trim s)

theorem int?_solid (unicode : Unicode) {s : List Char} (hs : Solid s) :
    int? unicode s = signed? unicode s := by
  rw [int?, trim_solid hs]

/-- Digits without a sign are read as their value. -/
theorem int?_of_isDigit (unicode : Unicode) {cs : List Char} (hne : cs ≠ [])
    (h : ∀ c ∈ cs, c.isDigit = true) :
    int? unicode cs = some (Nat.ofDigitChars 10 cs 0 : ℤ) := by
  have hunsigned : unsigned cs = (false, cs) := by
    obtain ⟨c, cs, rfl⟩ := List.exists_cons_of_ne_nil hne
    exact unsigned_of_isDigit cs (h c List.mem_cons_self)
  rw [int?_solid unicode (solid_of_isDigit h), signed?, hunsigned]
  simp only [numerals?_of_isDigit unicode hne h, Option.map_some, value_of_isDigit]
  rfl

/-- **`int(str(z))` is `z`.** -/
theorem int?_intText (unicode : Unicode) (z : ℤ) : int? unicode (intText z) = some z := by
  cases z with
  | ofNat n =>
      have hdigits : Nat.ofDigitChars 10 (digits n) 0 = n := Nat.ofDigitChars_ten_toDigits
      have hint := int?_of_isDigit unicode (digits_ne_nil n) fun c hc => isDigit_of_mem_digits hc
      rwa [hdigits] at hint
  | negSucc n =>
      obtain ⟨ds, hds, hvalue⟩ := numerals?_digits unicode (n + 1)
      have hminus : Solid ('-' :: digits (n + 1)) := by
        intro c hc
        rcases List.mem_cons.mp hc with rfl | hc
        · decide
        · exact not_isSpace_of_isDigit (isDigit_of_mem_digits hc)
      rw [intText, int?, trim_solid hminus, signed?, unsigned]
      simp only [hds, Option.map_some, hvalue]
      rfl

/-! ## Rounding -/

/-- The nearest integer, the even one of two. -/
def roundHalfEven (q : ℚ) : ℤ :=
  let below := ⌊q⌋
  let rest := q - below
  if rest < 1 / 2 then below
  else if rest > 1 / 2 then below + 1
  else if below % 2 = 0 then below else below + 1

/-- `round(q, k)`. -/
def roundTo (k : ℕ) (q : ℚ) : ℚ := roundHalfEven (q * 10 ^ k) / 10 ^ k

theorem roundHalfEven_cases (q : ℚ) :
    roundHalfEven q = ⌊q⌋ ∨ roundHalfEven q = ⌊q⌋ + 1 ∧ (⌊q⌋ : ℚ) < q := by
  unfold roundHalfEven
  by_cases hlt : q - ⌊q⌋ < 1 / 2
  · exact Or.inl (if_pos hlt)
  · have hbelow : (⌊q⌋ : ℚ) < q := by linarith
    simp only [if_neg hlt]
    by_cases hgt : q - ⌊q⌋ > 1 / 2
    · exact Or.inr ⟨if_pos hgt, hbelow⟩
    · rw [if_neg hgt]
      by_cases heven : ⌊q⌋ % 2 = 0
      · exact Or.inl (if_pos heven)
      · exact Or.inr ⟨if_neg heven, hbelow⟩

theorem le_roundHalfEven {q : ℚ} {n : ℤ} (h : (n : ℚ) ≤ q) : n ≤ roundHalfEven q := by
  have hfloor : n ≤ ⌊q⌋ := Int.le_floor.mpr h
  rcases roundHalfEven_cases q with hq | ⟨hq, -⟩
  · omega
  · omega

theorem roundHalfEven_le {q : ℚ} {n : ℤ} (h : q ≤ n) : roundHalfEven q ≤ n := by
  rcases roundHalfEven_cases q with hq | ⟨hq, hlt⟩
  · rw [hq]
    exact Int.floor_le_iff.mpr (by linarith)
  · have hfloor : ⌊q⌋ < n := by
      have : (⌊q⌋ : ℚ) < n := by linarith
      exact_mod_cast this
    omega

/-- **Rounding moves a number by a half at most.** -/
theorem abs_roundHalfEven_sub_le (q : ℚ) : |(roundHalfEven q : ℚ) - q| ≤ 1 / 2 := by
  have hle : (⌊q⌋ : ℚ) ≤ q := Int.floor_le q
  have hlt : q < ⌊q⌋ + 1 := Int.lt_floor_add_one q
  rw [abs_le]
  unfold roundHalfEven
  by_cases hbelow : q - ⌊q⌋ < 1 / 2
  · simp only [if_pos hbelow]
    constructor <;> linarith
  · simp only [if_neg hbelow]
    by_cases habove : q - ⌊q⌋ > 1 / 2
    · rw [if_pos habove]
      push_cast
      constructor <;> linarith
    · rw [if_neg habove]
      by_cases heven : ⌊q⌋ % 2 = 0
      · rw [if_pos heven]
        constructor <;> linarith
      · rw [if_neg heven]
        push_cast
        constructor <;> linarith

theorem abs_roundTo_sub_le (k : ℕ) (q : ℚ) : |roundTo k q - q| ≤ 1 / 2 / 10 ^ k := by
  have hpow : (0 : ℚ) < 10 ^ k := pow_pos (by decide) k
  have hscale : roundTo k q - q = ((roundHalfEven (q * 10 ^ k) : ℚ) - q * 10 ^ k) / 10 ^ k := by
    rw [roundTo, sub_div, mul_div_cancel_right₀ q (ne_of_gt hpow)]
  rw [hscale, abs_div, abs_of_pos hpow]
  exact div_le_div_of_nonneg_right (abs_roundHalfEven_sub_le _) (le_of_lt hpow)

theorem roundTo_nonpos (k : ℕ) {q : ℚ} (h : q ≤ 0) : roundTo k q ≤ 0 := by
  have hround : roundHalfEven (q * 10 ^ k) ≤ 0 := by
    apply roundHalfEven_le
    rw [Int.cast_zero]
    exact mul_nonpos_of_nonpos_of_nonneg h (pow_nonneg (by decide) k)
  apply div_nonpos_of_nonpos_of_nonneg
  · exact_mod_cast hround
  · exact pow_nonneg (by decide) k

/-! ## Fixed-point formats -/

/-- `f"{q:.kf}"`, for a positive `k`. -/
def fixed (k : ℕ) (q : ℚ) : List Char :=
  let scaled := (roundHalfEven (|q| * 10 ^ k)).toNat
  (if q < 0 then ['-'] else []) ++ digits (scaled / 10 ^ k) ++
    '.' :: (digits (scaled % 10 ^ k)).leftpad k '0'

/-- What is written for a number that is not negative: two runs of digits, the parts of the
scaled number before and after the point. -/
theorem fixed_of_nonneg (k : ℕ) {q : ℚ} (hq : 0 ≤ q) :
    ∃ n : ℕ, roundHalfEven (q * 10 ^ k) = n ∧
      fixed k q = digits (n / 10 ^ k) ++ '.' :: (digits (n % 10 ^ k)).leftpad k '0' := by
  have hscaled : 0 ≤ roundHalfEven (q * 10 ^ k) := by
    apply le_roundHalfEven
    rw [Int.cast_zero]
    exact mul_nonneg hq (pow_nonneg (by decide) k)
  have hn := (Int.toNat_of_nonneg hscaled).symm
  refine ⟨_, hn, ?_⟩
  rw [fixed, if_neg (not_lt.mpr hq), abs_of_nonneg hq]
  rfl

theorem isDigit_of_mem_leftpad {k n : ℕ} {c : Char}
    (h : c ∈ (digits n).leftpad k '0') : c.isDigit = true := by
  rcases List.mem_append.mp h with h | h
  · rw [List.eq_of_mem_replicate h]
    rfl
  · exact isDigit_of_mem_digits h

/-- Zeros in front of the digits do not change the number. -/
theorem ofDigitChars_leftpad (k n : ℕ) :
    Nat.ofDigitChars 10 ((digits n).leftpad k '0') 0 = n := by
  have hdigits : Nat.ofDigitChars 10 (digits n) 0 = n := Nat.ofDigitChars_ten_toDigits
  rw [List.leftpad, Nat.ofDigitChars_append, Nat.ofDigitChars_replicate_zero, Nat.mul_zero, hdigits]

theorem leftpad_digits_injective (k : ℕ) :
    Function.Injective fun n => (digits n).leftpad k '0' := by
  intro m n h
  have hvalue := congrArg (fun cs => Nat.ofDigitChars 10 cs 0) h
  simpa only [ofDigitChars_leftpad] using hvalue

theorem length_leftpad {k n : ℕ} (hk : 0 < k) (hn : n < 10 ^ k) :
    ((digits n).leftpad k '0').length = k := by
  have hle : (digits n).length ≤ k := (Nat.length_toDigits_le_iff (by decide) hk).mpr hn
  rw [List.leftpad, List.length_append, List.length_replicate]
  omega

/-- The digits before and after the point, read as one number. -/
theorem ofDigitChars_fixed {k a b : ℕ} (hk : 0 < k) (hb : b < 10 ^ k) :
    Nat.ofDigitChars 10 (digits a ++ (digits b).leftpad k '0') 0 = a * 10 ^ k + b := by
  have hlen : 10 ^ ((digits b).length) * 10 ^ (k - (digits b).length) = 10 ^ k := by
    have hle : (digits b).length ≤ k := (Nat.length_toDigits_le_iff (by decide) hk).mpr hb
    rw [← Nat.pow_add]
    congr 1
    omega
  have hdigits : ∀ n, Nat.ofDigitChars 10 (digits n) 0 = n := fun n =>
    Nat.ofDigitChars_ten_toDigits
  calc Nat.ofDigitChars 10 (digits a ++ (digits b).leftpad k '0') 0
      = Nat.ofDigitChars 10 (digits b) (10 ^ (k - (digits b).length) * a) := by
        rw [List.leftpad, Nat.ofDigitChars_append, Nat.ofDigitChars_append, hdigits,
          Nat.ofDigitChars_replicate_zero]
    _ = 10 ^ (digits b).length * (10 ^ (k - (digits b).length) * a) + b := by
        rw [Nat.ofDigitChars_eq_ofDigitChars_zero, hdigits]
    _ = a * 10 ^ k + b := by
        rw [← Nat.mul_assoc, hlen, Nat.mul_comm]

/-- The characters of the format are digits and the point. -/
theorem mem_fixed {k : ℕ} {q : ℚ} (hq : 0 ≤ q) {c : Char} (hc : c ∈ fixed k q) :
    c.isDigit = true ∨ c = '.' := by
  obtain ⟨n, -, hfixed⟩ := fixed_of_nonneg k hq
  rw [hfixed] at hc
  rcases List.mem_append.mp hc with hc | hc
  · exact Or.inl (isDigit_of_mem_digits hc)
  · rcases List.mem_cons.mp hc with hc | hc
    · exact Or.inr hc
    · exact Or.inl (isDigit_of_mem_leftpad hc)

theorem fixed_solid {k : ℕ} {q : ℚ} (hq : 0 ≤ q) : Solid (fixed k q) := by
  intro c hc
  rcases mem_fixed hq hc with hdigit | rfl
  · exact not_isSpace_of_isDigit hdigit
  · decide

/-- The format starts with a digit. -/
theorem fixed_head (k : ℕ) {q : ℚ} (hq : 0 ≤ q) :
    ∃ c cs, fixed k q = c :: cs ∧ c.isDigit = true := by
  obtain ⟨n, -, hfixed⟩ := fixed_of_nonneg k hq
  cases hdigits : digits (n / 10 ^ k) with
  | nil => exact absurd hdigits (digits_ne_nil _)
  | cons c cs =>
      refine ⟨c, _, by rw [hfixed, hdigits]; rfl, isDigit_of_mem_digits (n := n / 10 ^ k) ?_⟩
      rw [hdigits]
      exact List.mem_cons_self

/-- The length of the format of a number below `10 ^ m`. -/
theorem length_fixed {k m : ℕ} (hk : 0 < k) {q : ℚ} (hq : 0 ≤ q) (hlt : q < 10 ^ m) :
    (fixed k q).length ≤ m + k + 2 := by
  obtain ⟨n, hn, hfixed⟩ := fixed_of_nonneg k hq
  have hpow : 0 < 10 ^ k := Nat.pow_pos (by decide)
  have hscaled : n ≤ 10 ^ m * 10 ^ k := by
    have hle : roundHalfEven (q * 10 ^ k) ≤ (10 ^ m * 10 ^ k : ℕ) := by
      apply roundHalfEven_le
      push_cast
      exact mul_le_mul_of_nonneg_right (le_of_lt hlt) (pow_nonneg (by decide) k)
    omega
  have hwhole : n / 10 ^ k < 10 ^ (m + 1) := by
    calc n / 10 ^ k ≤ 10 ^ m := Nat.div_le_of_le_mul (by rw [Nat.mul_comm]; exact hscaled)
      _ < 10 ^ (m + 1) := Nat.pow_lt_pow_right (by decide) (Nat.lt_succ_self m)
  have hdigits : (digits (n / 10 ^ k)).length ≤ m + 1 :=
    (Nat.length_toDigits_le_iff (by decide) (Nat.succ_pos m)).mpr hwhole
  have hpad := length_leftpad hk (Nat.mod_lt n hpow)
  rw [hfixed, List.length_append, List.length_cons, hpad]
  omega

end Decimal
