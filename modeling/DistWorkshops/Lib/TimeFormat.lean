import Mathlib.Data.List.Monad
import DistWorkshops.Lib.Calendar
import DistWorkshops.Lib.Decimal

/-!
# Times as texts

`strftime` and `strptime` with the format `%Y-%m-%d %H:%M:%S`. Reading matches a regular
expression: a pattern gives what may be matched in the order in which it is tried, so that the
first match of the whole format counts, and nothing may be left behind it. Numbers need not be
padded, but a year has four digits.

What is written is read back, up to the end of the year 9999 (`strptime?_strftime`).
-/

set_option autoImplicit false

namespace TimeFormat

open Text Decimal Calendar

/-! ## Writing -/

/-- A number with at least two digits. -/
def two (n : ℕ) : List Char := (digits n).leftpad 2 '0'

def strftime (time : Time) : List Char :=
  digits time.date.year ++ '-' :: (two time.date.month ++ '-' :: (two time.date.day ++ ' ' ::
    (two time.hour ++ ':' :: (two time.minute ++ ':' :: two time.second))))

/-! ## Reading -/

/-- What a pattern may match at the front of a text: the number, and what is left. -/
abbrev Pattern := List Char → List (ℕ × List Char)

/-- `[a-b]` for two digits. -/
def inRange (a b : ℕ) : Pattern
  | [] => []
  | c :: rest => if 48 + a ≤ c.toNat ∧ c.toNat ≤ 48 + b then [(c.toNat - 48, rest)] else []

/-- `\d`. -/
def anyDigit (unicode : Unicode) : Pattern
  | [] => []
  | c :: rest => ((unicode.decimal c).map fun d => (d, rest)).toList

/-- One pattern and then one for another digit. -/
def pair (p q : Pattern) : Pattern := fun s =>
  (p s).flatMap fun r => (q r.2).map fun r' => (10 * r.1 + r'.1, r'.2)

def alternatives (ps : List Pattern) : Pattern := fun s => ps.flatMap fun p => p s

def literal (c : Char) : List Char → List (List Char)
  | [] => []
  | d :: rest => if d = c then [rest] else []

/-- `\s+`, the longest match first. -/
def spaces : List Char → List (List Char)
  | [] => []
  | c :: rest => if isSpace c then spaces rest ++ [rest] else []

section Reading

variable (unicode : Unicode)

def year : Pattern :=
  pair (pair (pair (anyDigit unicode) (anyDigit unicode)) (anyDigit unicode)) (anyDigit unicode)

def month : Pattern :=
  alternatives [pair (inRange 1 1) (inRange 0 2), pair (inRange 0 0) (inRange 1 9), inRange 1 9]

def day : Pattern :=
  alternatives [pair (inRange 3 3) (inRange 0 1), pair (inRange 1 2) (anyDigit unicode),
    pair (inRange 0 0) (inRange 1 9), inRange 1 9, fun s => (literal ' ' s).flatMap (inRange 1 9)]

def hour : Pattern :=
  alternatives [pair (inRange 2 2) (inRange 0 3), pair (inRange 0 1) (anyDigit unicode),
    anyDigit unicode]

def minute : Pattern :=
  alternatives [pair (inRange 0 5) (anyDigit unicode), anyDigit unicode]

def second : Pattern :=
  alternatives [pair (inRange 6 6) (inRange 0 1), pair (inRange 0 5) (anyDigit unicode),
    anyDigit unicode]

/-- A number, the separator behind it, and what comes after both. -/
def field {β : Type} (p : Pattern) (separator : List Char → List (List Char))
    (k : ℕ → List Char → List β) (s : List Char) : List β :=
  (p s).flatMap fun r => (separator r.2).flatMap (k r.1)

/-- The matches of the format. -/
def matches? : List Char → List (Time × List Char) :=
  field (year unicode) (literal '-') fun year =>
    field month (literal '-') fun month =>
      field (day unicode) spaces fun day =>
        field (hour unicode) (literal ':') fun hour =>
          field (minute unicode) (literal ':') fun minute s =>
            (second unicode s).map fun r => (⟨⟨year, month, day⟩, hour, minute, r.1⟩, r.2)

/-- The first match has to be the whole text, and its date has to exist. -/
def strptime? (s : List Char) : Option Time :=
  match (matches? unicode s).head? with
  | some (time, []) => if time.date.Valid then some time else none
  | _ => none

end Reading

/-! ## Digits -/

theorem toNat_digitChar : ∀ d < 10, d.digitChar.toNat = 48 + d := by decide

theorem digitChar_isDigit : ∀ d < 10, d.digitChar.isDigit = true := by decide

theorem two_eq : ∀ n < 100, two n = [(n / 10).digitChar, (n % 10).digitChar] := by decide +kernel

/-- A text that begins with a digit. -/
def StartsWithDigit (s : List Char) : Prop := ∃ d, d < 10 ∧ ∃ rest, s = d.digitChar :: rest

section Patterns

variable {unicode : Unicode} {d : ℕ} {rest : List Char}

theorem inRange_digit (hd : d < 10) (a b : ℕ) :
    inRange a b (d.digitChar :: rest) = if a ≤ d ∧ d ≤ b then [(d, rest)] else [] := by
  simp only [inRange, toNat_digitChar d hd, Nat.add_sub_cancel_left, Nat.add_le_add_iff_left]

theorem anyDigit_of_isDigit {c : Char} (hc : c.isDigit = true) :
    anyDigit unicode (c :: rest) = [(c.toNat - 48, rest)] := by
  have hlt : c.toNat < 128 := by
    have := (isDigit_iff c).mp hc
    omega
  simp only [anyDigit, unicode.decimal_ascii c hlt, hc, if_true, Option.map_some,
    Option.toList_some]
  rfl

theorem anyDigit_digit (hd : d < 10) : anyDigit unicode (d.digitChar :: rest) = [(d, rest)] := by
  rw [anyDigit_of_isDigit (digitChar_isDigit d hd), toNat_digitChar d hd, Nat.add_sub_cancel_left]

theorem literal_digit {c : Char} (hc : c.isDigit = false) (hd : d < 10) :
    literal c (d.digitChar :: rest) = [] :=
  if_neg (ne_of_isDigit (digitChar_isDigit d hd) hc)

theorem spaces_digit (hd : d < 10) : spaces (d.digitChar :: rest) = [] :=
  if_neg (by rw [not_isSpace_of_isDigit (digitChar_isDigit d hd)]; exact Bool.false_ne_true)

/-- After a first match that goes on to the separator, the others do not matter: they leave a
digit. -/
theorem field_of_first {β : Type} {p : Pattern} {n : ℕ} {s s' rest : List Char}
    {others : List (ℕ × List Char)} {separator : List Char → List (List Char)}
    (k : ℕ → List Char → List β) (hp : p s = (n, s') :: others)
    (hothers : ∀ r ∈ others, StartsWithDigit r.2) (hs : separator s' = [rest])
    (hdigit : ∀ d < 10, ∀ t, separator (d.digitChar :: t) = []) :
    field p separator k s = k n rest := by
  have hnone : (others.flatMap fun r => (separator r.2).flatMap (k r.1)) = [] := by
    refine List.flatMap_eq_nil_iff.mpr fun r hr => ?_
    obtain ⟨d, hd, t, ht⟩ := hothers r hr
    rw [ht, hdigit d hd t]
    rfl
  rw [field, hp, List.flatMap_cons, hs, hnone, List.append_nil]
  exact List.flatMap_singleton _ _

theorem year_of_digits {c₁ c₂ c₃ c₄ : Char} (h₁ : c₁.isDigit = true) (h₂ : c₂.isDigit = true)
    (h₃ : c₃.isDigit = true) (h₄ : c₄.isDigit = true) (rest : List Char) :
    year unicode (c₁ :: c₂ :: c₃ :: c₄ :: rest) =
      [(10 * (10 * (10 * (c₁.toNat - 48) + (c₂.toNat - 48)) + (c₃.toNat - 48)) + (c₄.toNat - 48),
        rest)] := by
  simp only [year, pair, anyDigit_of_isDigit h₁, anyDigit_of_isDigit h₂, anyDigit_of_isDigit h₃,
    anyDigit_of_isDigit h₄, List.flatMap_cons, List.flatMap_nil, List.map_cons, List.map_nil,
    List.append_nil]

variable {n : ℕ}

/-- What a pattern for two digits does in `two n`: the whole of it first, and then at most its first
digit. -/
def ReadsTwo (p : Pattern) (n : ℕ) : Prop :=
  ∀ rest, ∃ others, p (two n ++ rest) = (n, rest) :: others ∧ ∀ r ∈ others, StartsWithDigit r.2

theorem month_two (h1 : 1 ≤ n) (h2 : n ≤ 12) : ReadsTwo month n := by
  intro rest
  have ht : n / 10 < 10 := by omega
  have hu : n % 10 < 10 := Nat.mod_lt _ (by decide)
  rw [two_eq n (by omega)]
  simp only [List.cons_append, List.nil_append, month, alternatives, pair, List.flatMap_cons,
    List.flatMap_nil, inRange_digit ht]
  by_cases hten : n < 10
  · -- `0` and a digit
    have h0 : n / 10 = 0 := by omega
    have hn : n % 10 = n := by omega
    refine ⟨[], ?_, fun r hr => by cases hr⟩
    simp [h0, hn, inRange_digit (show n < 10 from hten), h1]
    omega
  · have h0 : n / 10 = 1 := by omega
    have hle : n % 10 ≤ 2 := by omega
    have hn : 10 + n % 10 = n := by omega
    refine ⟨[(1, (n % 10).digitChar :: rest)], by simp [h0, inRange_digit hu, hle, hn], ?_⟩
    intro r hr
    rw [List.mem_singleton.mp hr]
    exact ⟨n % 10, hu, rest, rfl⟩

theorem day_two (h1 : 1 ≤ n) (h2 : n ≤ 31) : ReadsTwo (day unicode) n := by
  intro rest
  have ht : n / 10 < 10 := by omega
  have hu : n % 10 < 10 := Nat.mod_lt _ (by decide)
  have hblank : literal ' ' ((n / 10).digitChar :: (n % 10).digitChar :: rest) = [] :=
    literal_digit rfl ht
  rw [two_eq n (by omega)]
  simp only [List.cons_append, List.nil_append, day, alternatives, pair, List.flatMap_cons,
    List.flatMap_nil, inRange_digit ht, hblank]
  have hother : ∀ r ∈ [(n / 10, (n % 10).digitChar :: rest)], StartsWithDigit r.2 := by
    intro r hr
    rw [List.mem_singleton.mp hr]
    exact ⟨n % 10, hu, rest, rfl⟩
  by_cases hten : n < 10
  · have h0 : n / 10 = 0 := by omega
    have hn : n % 10 = n := by omega
    refine ⟨[], ?_, fun r hr => by cases hr⟩
    simp [h0, hn, inRange_digit (show n < 10 from hten), h1]
    omega
  refine ⟨_, ?_, hother⟩
  by_cases hthirty : n < 30
  · -- `1` or `2` and any digit
    have h3 : ¬ (3 ≤ n / 10 ∧ n / 10 ≤ 3) := by omega
    have h12 : 1 ≤ n / 10 ∧ n / 10 ≤ 2 := by omega
    have h0 : ¬ (0 ≤ n / 10 ∧ n / 10 ≤ 0) := by omega
    have h19 : 1 ≤ n / 10 ∧ n / 10 ≤ 9 := by omega
    have hn : 10 * (n / 10) + n % 10 = n := Nat.div_add_mod n 10
    rw [if_neg h3, if_pos h12, if_neg h0, if_pos h19]
    simp [anyDigit_digit hu, hn]
  · have h3 : n / 10 = 3 := by omega
    have hle : n % 10 ≤ 1 := by omega
    have hn : 30 + n % 10 = n := by omega
    simp [h3, inRange_digit hu, hle, hn]

theorem hour_two (h : n < 24) : ReadsTwo (hour unicode) n := by
  intro rest
  have ht : n / 10 < 10 := by omega
  have hu : n % 10 < 10 := Nat.mod_lt _ (by decide)
  have hn : 10 * (n / 10) + n % 10 = n := Nat.div_add_mod n 10
  rw [two_eq n (by omega)]
  simp only [List.cons_append, List.nil_append, hour, alternatives, pair, List.flatMap_cons,
    List.flatMap_nil, inRange_digit ht, anyDigit_digit ht]
  -- one digit may be an hour by itself, with the other one left
  refine ⟨[(n / 10, (n % 10).digitChar :: rest)], ?_, ?_⟩
  · by_cases htwenty : n < 20
    · have h2 : ¬ (2 ≤ n / 10 ∧ n / 10 ≤ 2) := by omega
      have h01 : 0 ≤ n / 10 ∧ n / 10 ≤ 1 := by omega
      rw [if_neg h2, if_pos h01]
      simp [anyDigit_digit hu, hn]
    · have h2 : n / 10 = 2 := by omega
      have hle : n % 10 ≤ 3 := by omega
      rw [h2] at hn ⊢
      simp [inRange_digit hu, hle, hn]
  · intro r hr
    rw [List.mem_singleton.mp hr]
    exact ⟨n % 10, hu, rest, rfl⟩

theorem minute_two (h : n < 60) : ReadsTwo (minute unicode) n := by
  intro rest
  have ht : n / 10 < 10 := by omega
  have hu : n % 10 < 10 := Nat.mod_lt _ (by decide)
  have h05 : 0 ≤ n / 10 ∧ n / 10 ≤ 5 := by omega
  have hn : 10 * (n / 10) + n % 10 = n := Nat.div_add_mod n 10
  rw [two_eq n (by omega)]
  simp only [List.cons_append, List.nil_append, minute, alternatives, pair, List.flatMap_cons,
    List.flatMap_nil, inRange_digit ht, anyDigit_digit ht, if_pos h05]
  refine ⟨[(n / 10, (n % 10).digitChar :: rest)], by simp [anyDigit_digit hu, hn], ?_⟩
  intro r hr
  rw [List.mem_singleton.mp hr]
  exact ⟨n % 10, hu, rest, rfl⟩

theorem second_two (h : n < 60) : ReadsTwo (second unicode) n := by
  intro rest
  have ht : n / 10 < 10 := by omega
  have h6 : ¬ (6 ≤ n / 10 ∧ n / 10 ≤ 6) := by omega
  obtain ⟨others, hminute, hothers⟩ := @minute_two unicode _ h rest
  refine ⟨others, ?_, hothers⟩
  -- a leap second begins with `6`, and the other two ways are those of a minute
  rw [← hminute, two_eq n (by omega)]
  simp only [List.cons_append, List.nil_append, second, minute, alternatives, pair,
    List.flatMap_cons, List.flatMap_nil, inRange_digit ht, if_neg h6]

end Patterns

/-! ## Reading what was written -/

section RoundTrip

variable (unicode : Unicode) {time : Time}

/-- A field of two digits, with its separator behind it. -/
theorem field_two {β : Type} {p : Pattern} {n : ℕ} (h : ReadsTwo p n) {c : Char} {s : List Char}
    {separator : List Char → List (List Char)} (k : ℕ → List Char → List β)
    (hs : separator (c :: s) = [s]) (hdigit : ∀ d < 10, ∀ t, separator (d.digitChar :: t) = []) :
    field p separator k (two n ++ c :: s) = k n s := by
  obtain ⟨others, hp, hothers⟩ := h (c :: s)
  exact field_of_first k hp hothers hs hdigit

theorem literal_self (c : Char) (s : List Char) : literal c (c :: s) = [s] := if_pos rfl

theorem spaces_two {n : ℕ} (hn : n < 100) (s : List Char) :
    spaces (' ' :: (two n ++ s)) = [two n ++ s] := by
  have hrest : spaces (two n ++ s) = [] := by
    rw [two_eq n hn]
    exact spaces_digit (by omega)
  show (if isSpace ' ' then spaces (two n ++ s) ++ [two n ++ s] else []) = _
  rw [hrest, if_pos (by decide)]
  rfl

theorem digits_four {n : ℕ} (h1 : 1000 ≤ n) (h2 : n < 10000) :
    digits n = [(n / 1000).digitChar, (n / 100 % 10).digitChar, (n / 10 % 10).digitChar,
      (n % 10).digitChar] := by
  rw [digits, Nat.toDigits_of_base_le (by decide) (by omega),
    Nat.toDigits_of_base_le (by decide) (by omega), Nat.toDigits_of_base_le (by decide) (by omega),
    Nat.toDigits_of_lt_base (by omega)]
  simp only [List.cons_append, List.nil_append, Nat.div_div_eq_div_mul]

/-- A year of four digits is read. -/
theorem year_digits {n : ℕ} (h1 : 1000 ≤ n) (h2 : n < 10000) (rest : List Char) :
    year unicode (digits n ++ rest) = [(n, rest)] := by
  rw [digits_four h1 h2]
  simp only [List.cons_append, List.nil_append]
  rw [year_of_digits (digitChar_isDigit _ (by omega)) (digitChar_isDigit _ (by omega))
    (digitChar_isDigit _ (by omega)) (digitChar_isDigit _ (by omega))]
  rw [toNat_digitChar _ (by omega), toNat_digitChar _ (by omega), toNat_digitChar _ (by omega),
    toNat_digitChar _ (by omega)]
  have hn : 10 * (10 * (10 * (48 + n / 1000 - 48) + (48 + n / 100 % 10 - 48))
      + (48 + n / 10 % 10 - 48)) + (48 + n % 10 - 48) = n := by omega
  rw [hn]

/-- A time of the day. -/
def InDay (time : Time) : Prop := time.hour < 24 ∧ time.minute < 60 ∧ time.second < 60

theorem daysInMonth_le : ∀ leap : Bool, ∀ month < 13, daysInMonth leap month ≤ 31 := by decide

/-- **What is written is read back**, up to the end of the year 9999. -/
theorem strptime?_strftime (hvalid : time.date.Valid) (hday : InDay time)
    (h1 : 1000 ≤ time.date.year) (h2 : time.date.year < 10000) :
    strptime? unicode (strftime time) = some time := by
  obtain ⟨-, hmonth, hmonth', hday1, hday2⟩ := id hvalid
  obtain ⟨hhour, hminute, hsecond⟩ := hday
  have hday31 := hday2.trans (daysInMonth_le _ _ (by omega))
  -- a field that stops before its second digit finds no separator
  have hminus : ∀ d < 10, ∀ t, literal '-' (d.digitChar :: t) = [] := fun d hd t =>
    literal_digit rfl hd
  have hcolon : ∀ d < 10, ∀ t, literal ':' (d.digitChar :: t) = [] := fun d hd t =>
    literal_digit rfl hd
  have hspaces : ∀ d < 10, ∀ t, spaces (d.digitChar :: t) = [] := fun d hd t => spaces_digit hd
  obtain ⟨others, hlast, -⟩ := @second_two unicode _ hsecond []
  rw [List.append_nil] at hlast
  -- the first way to read the text is the right one, and it leaves nothing
  have hmatches : matches? unicode (strftime time) = (time, [])
      :: others.map fun r => (⟨time.date, time.hour, time.minute, r.1⟩, r.2) := by
    rw [matches?, strftime, field_of_first _ (year_digits unicode h1 h2 _) (by simp)
      (literal_self '-' _) hminus, field_two (month_two hmonth hmonth') _ (literal_self '-' _)
      hminus, field_two (day_two hday1 hday31) _ (spaces_two (by omega) _) hspaces,
      field_two (hour_two hhour) _ (literal_self ':' _) hcolon,
      field_two (minute_two hminute) _ (literal_self ':' _) hcolon, hlast]
    rfl
  rw [strptime?, hmatches]
  simp [hvalid]

end RoundTrip

end TimeFormat
