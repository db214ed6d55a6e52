import DistWorkshops.Lib.Decimal
import DistWorkshops.Lib.Fields

/-!
# Conversions of `scanf`

`%s` and `%d` of the C library in the "C" locale. A conversion skips blanks and takes the longest
run it can use; there is no result when it cannot use a character. `number?_eq_int?_iff` says when
`%d` and Python's `int` read one number from a field.
-/

set_option autoImplicit false

namespace Scanf

open Text Decimal

/-- `isspace`. -/
def isBlank (c : Char) : Bool := c == ' ' || decide (9 ≤ c.toNat ∧ c.toNat ≤ 13)

def skip (s : List Char) : List Char := s.dropWhile isBlank

/-- `%s`, and what it leaves. -/
def word? (s : List Char) : Option (List Char × List Char) :=
  match (skip s).takeWhile fun c => !isBlank c with
  | [] => none
  | c :: w => some (c :: w, (skip s).dropWhile fun c => !isBlank c)

/-- `%d` with the number itself, whether or not an `int` can hold it, and what it leaves. -/
def number? (s : List Char) : Option (ℤ × List Char) :=
  let (negative, cs) := unsigned (skip s)
  match cs.takeWhile Char.isDigit with
  | [] => none
  | d :: ds =>
      let n := Nat.ofDigitChars 10 (d :: ds) 0
      some (if negative then -(n : ℤ) else n, cs.dropWhile Char.isDigit)

theorem isSpace_of_isBlank {c : Char} (h : isBlank c = true) : isSpace c = true := by
  simp only [isBlank, Bool.or_eq_true, beq_iff_eq, decide_eq_true_eq] at h
  rcases h with rfl | hc
  · decide
  · simp only [isSpace, decide_eq_true hc, Bool.true_or]

theorem not_isBlank_of_not_isSpace {c : Char} (h : isSpace c = false) : isBlank c = false := by
  by_contra hc
  rw [isSpace_of_isBlank (Bool.not_eq_false _ ▸ hc)] at h
  cases h

theorem skip_eq_self {s : List Char} (h : ∀ c ∈ s.head?, isBlank c = false) : skip s = s :=
  @dropWhile_run isBlank [] s nofun h

/-! ## Words -/

theorem word?_run {front w rest : List Char} (hfront : ∀ c ∈ front, isBlank c = true) (hne : w ≠ [])
    (hw : ∀ c ∈ w, isBlank c = false) (hrest : Ends isBlank rest) :
    word? (front ++ (w ++ rest)) = some (w, rest) := by
  have hskip : skip (front ++ (w ++ rest)) = w ++ rest :=
    dropWhile_run hfront (head?_append hne hw)
  have hstop : ∀ c ∈ rest.head?, (!isBlank c) = false := fun c hc => by rw [hrest c hc]; rfl
  rw [word?, hskip, takeWhile_run (not_space_iff.mpr hw) hstop,
    dropWhile_run (not_space_iff.mpr hw) hstop]
  cases w with
  | nil => exact absurd rfl hne
  | cons c w => rfl

theorem word?_eq_some {s w rest : List Char} (h : word? s = some (w, rest)) :
    ∃ front, s = front ++ (w ++ rest) ∧ (∀ c ∈ front, isBlank c = true) ∧ w ≠ [] ∧
      (∀ c ∈ w, isBlank c = false) ∧ Ends isBlank rest := by
  obtain ⟨front, t, rfl, hfront, ht⟩ := exists_run isBlank s
  obtain ⟨v, tail, rfl, hv, htail⟩ := exists_run (fun c => !isBlank c) t
  rw [not_space_iff] at hv
  have hends : Ends isBlank tail := fun c hc => by simpa using htail c hc
  cases v with
  | nil =>
      have hskip : skip (front ++ ([] ++ tail)) = tail := dropWhile_run hfront ht
      have hstop : tail.takeWhile (fun c => !isBlank c) = [] := @takeWhile_run _ [] tail nofun htail
      rw [word?, hskip, hstop] at h
      cases h
  | cons c v =>
      rw [word?_run hfront (List.cons_ne_nil c v) hv hends] at h
      obtain ⟨rfl, rfl⟩ := Prod.mk.inj (Option.some.inj h)
      exact ⟨front, rfl, hfront, List.cons_ne_nil c v, hv, hends⟩

/-! ## Numbers -/

/-- A text whose sign, if it has one, is followed by a digit. -/
def StartsNumber (s : List Char) : Prop := ∃ c ∈ (unsigned s).2.head?, c.isDigit = true

/-- A sign or none, and digits only. -/
def Numeral (s : List Char) : Prop :=
  (unsigned s).2 ≠ [] ∧ ∀ c ∈ (unsigned s).2, c.isDigit = true

instance (s : List Char) : Decidable (Numeral s) := inferInstanceAs (Decidable (_ ∧ _))

/-- A number begins with a sign or a digit. -/
theorem StartsNumber.head {s : List Char} (h : StartsNumber s) :
    ∀ c ∈ s.head?, isSpace c = false := by
  obtain ⟨d, hd, hdigit⟩ := h
  intro c hc
  cases s with
  | nil => cases hc
  | cons e s =>
      obtain rfl := Option.some.inj hc
      by_cases hminus : e = '-'
      · subst hminus
        decide
      · by_cases hplus : e = '+'
        · subst hplus
          decide
        · rw [unsigned_of_ne hminus hplus] at hd
          rw [Option.some.inj hd]
          exact not_isSpace_of_isDigit hdigit

theorem Numeral.int? {s : List Char} (h : Numeral s) (hs : Solid s) (unicode : Unicode) :
    ∃ z, Decimal.int? unicode s = some z := by
  have hnumerals := numerals?_of_isDigit unicode h.1 h.2
  rw [← Option.isSome_iff_exists, int?_solid unicode hs, signed?]
  simp only [hnumerals]
  rfl

/-- The number of a run of digits after a sign. -/
theorem number?_run {s digits rest : List Char} {negative : Bool}
    (hs : unsigned (skip s) = (negative, digits ++ rest)) (hne : digits ≠ [])
    (hdigits : ∀ c ∈ digits, c.isDigit = true) (hrest : ∀ c ∈ rest.head?, c.isDigit = false) :
    number? s = some (if negative then -(Nat.ofDigitChars 10 digits 0 : ℤ)
      else Nat.ofDigitChars 10 digits 0, rest) := by
  rw [number?, hs]
  simp only [takeWhile_run hdigits hrest, dropWhile_run hdigits hrest]
  cases digits with
  | nil => exact absurd rfl hne
  | cons d ds => rfl

theorem number?_isSome_iff (s : List Char) :
    (number? s).isSome = true ↔ StartsNumber (skip s) := by
  obtain ⟨digits, rest, hs, hdigits, hrest⟩ := exists_run Char.isDigit (unsigned (skip s)).2
  cases digits with
  | nil =>
      have hnone : number? s = none := by
        have hstop : (unsigned (skip s)).2.takeWhile Char.isDigit = [] := by
          rw [hs]
          exact @takeWhile_run Char.isDigit [] rest nofun hrest
        rw [number?]
        simp only [hstop]
      rw [hnone, StartsNumber, hs]
      constructor
      · nofun
      · rintro ⟨c, hc, hdigit⟩
        rw [hrest c hc] at hdigit
        cases hdigit
  | cons d ds =>
      have hsome := number?_run (Prod.ext_iff.mpr ⟨rfl, hs⟩) (List.cons_ne_nil d ds) hdigits hrest
      rw [hsome, StartsNumber, hs]
      exact ⟨fun _ => ⟨d, rfl, hdigits d List.mem_cons_self⟩, fun _ => rfl⟩

section Field

variable {field tail : List Char}

/-- A field begins where it stands. -/
theorem unsigned_field (hne : field ≠ []) (hfield : Solid field) :
    unsigned (skip (field ++ tail)) = ((unsigned field).1, (unsigned field).2 ++ tail) := by
  rw [skip_eq_self, unsigned_append hne]
  exact head?_append hne fun c hc => not_isBlank_of_not_isSpace (hfield c hc)

theorem Numeral.ne_nil (h : Numeral field) : field ≠ [] := by
  rintro rfl
  exact h.1 rfl

/-- `%d` takes the whole of a plain numeral. -/
theorem number?_numeral (hfield : Solid field) (h : Numeral field) (htail : Ends isSpace tail) :
    number? (field ++ tail) = some (if (unsigned field).1
      then -(Nat.ofDigitChars 10 (unsigned field).2 0 : ℤ)
      else Nat.ofDigitChars 10 (unsigned field).2 0, tail) := by
  apply number?_run (unsigned_field h.ne_nil hfield) h.1 h.2
  intro c hc
  by_contra hdigit
  have hspace := htail c hc
  rw [not_isSpace_of_isDigit (Bool.not_eq_false _ ▸ hdigit)] at hspace
  cases hspace

/-- `%d` stops at an underscore. -/
theorem number?_underscore {front back : List Char} (hne : field ≠ []) (hfield : Solid field)
    (hback : (unsigned field).2 = front ++ '_' :: back) (hfne : front ≠ [])
    (hfront : ∀ c ∈ front, c.isDigit = true) :
    number? (field ++ tail) = some (if (unsigned field).1
      then -(Nat.ofDigitChars 10 front 0 : ℤ) else Nat.ofDigitChars 10 front 0,
        '_' :: (back ++ tail)) := by
  have hunsigned : unsigned (skip (field ++ tail)) =
      ((unsigned field).1, front ++ ('_' :: (back ++ tail))) := by
    rw [unsigned_field hne hfield, hback, List.append_assoc]
    rfl
  apply number?_run hunsigned hfne hfront
  intro c hc
  rw [← Option.some.inj hc]
  rfl

/-- **`%d` reads what `int` reads from a field exactly when the field is a plain numeral, or zero**:
`%d` stops at an underscore, where `int` goes on. -/
theorem number?_eq_int?_iff (unicode : Unicode) {z : ℤ} (hascii : ∀ c ∈ field, c.toNat < 128)
    (hfield : Solid field) (htail : Ends isSpace tail) (hint : int? unicode field = some z) :
    (∃ more, number? (field ++ tail) = some (z, more)) ↔ Numeral field ∨ z = 0 := by
  rw [int?_solid unicode hfield] at hint
  obtain ⟨ds, hds, rfl⟩ := signed?_eq_some hint
  have hne : field ≠ [] := by
    rintro rfl
    cases hds
  have hbody := fun c hc => hascii c (mem_of_mem_unsigned hc)
  obtain ⟨hsome, hall | ⟨front, back, es, hback, hfront, hfne, hes, rfl⟩⟩ :=
    numerals?_ascii unicode hbody hds
  · -- digits only
    have hnumeral : Numeral field := ⟨hsome, hall⟩
    have hvalue := numerals?_of_isDigit unicode hsome hall
    rw [hds] at hvalue
    rw [number?_numeral hfield hnumeral htail, Option.some.inj hvalue, value_of_isDigit]
    exact ⟨fun _ => Or.inl hnumeral, fun _ => ⟨tail, rfl⟩⟩
  · -- an underscore after the first digits
    have hnot : ¬ Numeral field := by
      rintro ⟨-, hdigits⟩
      have hunderscore := hdigits '_' (by
        rw [hback]
        exact List.mem_append_right _ List.mem_cons_self)
      cases hunderscore
    have hzero : value ((front.map fun c => c.toNat - '0'.toNat) ++ es)
          = Nat.ofDigitChars 10 front 0 ↔
        value ((front.map fun c => c.toNat - '0'.toNat) ++ es) = 0 := by
      rw [← value_of_isDigit]
      exact value_append_eq_iff hes
    rw [number?_underscore hne hfield hback hfne hfront, sign_eq_zero_iff, ← hzero]
    constructor
    · rintro ⟨more, hmore⟩
      have hvalue := (Prod.mk.inj (Option.some.inj hmore)).1
      exact Or.inr ((sign_inj _).mp hvalue).symm
    · rintro (hnum | hvalue)
      · exact absurd hnum hnot
      · rw [hvalue]
        exact ⟨_, rfl⟩

end Field

/-! ## A word and a number -/

/-- `"%s %d"`; there is no result unless both are converted. -/
def wordNumber? (s : List Char) : Option (List Char × ℤ) := do
  let (word, rest) ← word? s
  let (number, _) ← number? (skip rest)
  return (word, number)

/-- **The word is the first field, and the number begins the second one.** -/
theorem wordNumber?_eq_some_iff {s word : List Char} {z : ℤ} :
    wordNumber? s = some (word, z) ↔
      ∃ rest more, Fields isBlank s word rest ∧ number? rest = some (z, more) := by
  constructor
  · intro h
    obtain ⟨⟨w, t⟩, hw, h⟩ := Option.bind_eq_some_iff.mp h
    obtain ⟨⟨n, more⟩, hn, h⟩ := Option.bind_eq_some_iff.mp h
    obtain ⟨rfl, rfl⟩ := Prod.mk.inj (Option.some.inj h)
    obtain ⟨front, rfl, hfront, hne, hword, hends⟩ := word?_eq_some hw
    obtain ⟨gap, rest, rfl, hgap, hrest⟩ := exists_run isBlank t
    have hskip : skip (gap ++ rest) = rest := dropWhile_run hgap hrest
    rw [hskip] at hn
    refine ⟨rest, more, ⟨front, gap, rfl, hfront, hne, hword, ?_, hgap, hrest⟩, hn⟩
    -- without a blank after the word nothing is left for the number
    rintro rfl
    cases rest with
    | nil => cases hn
    | cons c rest =>
        have hc := hends c rfl
        rw [hrest c rfl] at hc
        cases hc
  · rintro ⟨rest, more, ⟨front, gap, rfl, hfront, hne, hword, hgap, hblanks, hrest⟩, hn⟩
    have hskip : skip (gap ++ rest) = rest := dropWhile_run hblanks hrest
    have hw : word? (front ++ (word ++ (gap ++ rest))) = some (word, gap ++ rest) :=
      word?_run hfront hne hword (head?_append hgap hblanks)
    simp only [wordNumber?, hw, Option.bind_eq_bind, Option.bind_some, hskip, hn]
    rfl

end Scanf
