import DistWorkshops.Lib.Batch
import DistWorkshops.Lib.Decimal

set_option autoImplicit false

/-! # Conditions of a query

The part of a `SELECT` after its table: nothing, or a `WHERE` that compares one column with a
text, with an integer, or with a list of integers. A server reads it from the text of the query,
so a program that pastes values into that text has to write them in a way that reads back.
-/

namespace Sql

open Decimal

/-! ## Values -/

inductive Value where
  | null
  | int (n : ℤ)
  | text (s : List Char)
  deriving DecidableEq

/-- A column that may be `NULL`. -/
def Value.ofText : Option (List Char) → Value
  | none => .null
  | some s => .text s

theorem Value.eq_some_of_ofText {v : Option (List Char)} {s : List Char}
    (h : Value.ofText v = .text s) : v = some s := by
  cases v with
  | none => cases h
  | some t =>
      cases h
      rfl

theorem Value.int_ne_text (n : ℤ) (s : List Char) : Value.int n ≠ .text s := nofun

/-- How the batch output shows a value. -/
def Value.cell : Value → List Char
  | .null => ['N', 'U', 'L', 'L']
  | .int n => intText n
  | .text s => Batch.escape s

/-! ## Literals -/

/-- A text with every quote doubled. -/
def doubled (s : List Char) : List Char := s.flatMap fun c => if c = '\'' then ['\'', '\''] else [c]

/-- The value of a string literal and what follows it, read after the opening quote. Two quotes
stand for one, and a backslash for the character after it. -/
def readQuoted : List Char → Option (List Char × List Char)
  | [] => none
  | [c] => if c = '\'' then some ([], []) else none
  | c :: d :: s =>
      if c = '\'' then
        if d = '\'' then (readQuoted s).map fun (value, rest) => ('\'' :: value, rest)
        else some ([], d :: s)
      else if c = '\\' then
        (readQuoted s).map fun (value, rest) =>
          (match d with
            | '0' => '\x00' :: value
            | 'n' => '\n' :: value
            | 't' => '\t' :: value
            | 'r' => '\r' :: value
            | 'b' => '\x08' :: value
            | 'Z' => '\x1a' :: value
            | '%' => '\\' :: '%' :: value
            | '_' => '\\' :: '_' :: value
            | d => d :: value, rest)
      else (readQuoted (d :: s)).map fun (value, rest) => (c :: value, rest)

def readNat? (s : List Char) : Option ℕ :=
  if s ≠ [] ∧ s.all Char.isDigit then some (Nat.ofDigitChars 10 s 0) else none

def readInt? : List Char → Option ℤ
  | '-' :: s => (readNat? s).map fun n => -(n : ℤ)
  | s => (readNat? s).map fun n => (n : ℤ)

theorem readNat?_digits (n : ℕ) : readNat? (digits n) = some n := by
  have hall : (digits n).all Char.isDigit = true :=
    List.all_eq_true.mpr fun c hc => isDigit_of_mem_digits hc
  rw [readNat?, if_pos ⟨digits_ne_nil n, hall⟩]
  exact congrArg some Nat.ofDigitChars_ten_toDigits

/-- **An integer is read back.** -/
theorem readInt?_intText (n : ℤ) : readInt? (intText n) = some n := by
  cases n with
  | ofNat n =>
      have hsign : ∀ s, digits n ≠ '-' :: s := by
        intro s hs
        apply not_mem_digits (c := '-') (by decide) n
        rw [hs]
        exact List.mem_cons_self
      rw [intText, readInt?, readNat?_digits]
      · rfl
      · exact hsign
  | negSucc n =>
      rw [intText, readInt?, readNat?_digits]
      rfl

theorem mapM_readInt? (ns : List ℤ) : (ns.map intText).mapM readInt? = some ns := by
  induction ns with
  | nil => rfl
  | cons n ns ih =>
      rw [List.map_cons, List.mapM_cons, readInt?_intText, ih]
      rfl

/-- What an integer is written with. -/
theorem mem_intText {n : ℤ} {c : Char} (h : c ∈ intText n) : c = '-' ∨ c.isDigit = true := by
  cases n with
  | ofNat n => exact Or.inr (isDigit_of_mem_digits h)
  | negSucc n =>
      rcases List.mem_cons.mp h with h | h
      · exact Or.inl h
      · exact Or.inr (isDigit_of_mem_digits h)

theorem not_mem_intText {c : Char} (hminus : c ≠ '-') (hdigit : c.isDigit = false) (n : ℤ) :
    c ∉ intText n := by
  intro hc
  rcases mem_intText hc with hc | hc
  · exact hminus hc
  · rw [hdigit] at hc
    cases hc

theorem doubled_quote (s : List Char) : doubled ('\'' :: s) = '\'' :: '\'' :: doubled s := rfl

theorem doubled_cons {c : Char} (hc : c ≠ '\'') (s : List Char) :
    doubled (c :: s) = c :: doubled s := by
  rw [doubled, List.flatMap_cons, if_neg hc]
  rfl

theorem mem_doubled {c : Char} {s : List Char} : c ∈ doubled s ↔ c ∈ s := by
  have hchar : ∀ d : Char, c ∈ (if d = '\'' then ['\'', '\''] else [d]) ↔ c = d := by
    intro d
    split_ifs with hd
    · subst hd
      simp
    · exact List.mem_singleton
  rw [doubled, List.mem_flatMap]
  simp only [hchar, exists_eq_right']

/-- Words without the character at which a text is cut. -/
theorem takeWhile_words {d : Char} {w : List Char} (h : d ∉ w) (s : List Char) :
    (w ++ s).takeWhile (· ≠ d) = w ++ s.takeWhile (· ≠ d) := by
  apply List.takeWhile_append_of_pos
  intro c hc
  rw [decide_eq_true_eq]
  rintro rfl
  exact h hc

/-- A literal that is cut at one of its characters. -/
theorem takeWhile_doubled {d : Char} (hd : d ≠ '\'') {s : List Char} (hs : d ∈ s)
    (rest : List Char) :
    (doubled s ++ rest).takeWhile (· ≠ d) = doubled (s.takeWhile (· ≠ d)) := by
  induction s with
  | nil => cases hs
  | cons c s ih =>
      by_cases hc : c = d
      · subst hc
        rw [doubled_cons hd, List.cons_append, List.takeWhile_cons_of_neg (by simp),
          List.takeWhile_cons_of_neg (by simp)]
        rfl
      · have hmem : d ∈ s := (List.mem_cons.mp hs).resolve_left fun he => hc he.symm
        have hrest := ih hmem
        rw [List.takeWhile_cons_of_pos (by simpa using hc)]
        by_cases hquote : c = '\''
        · subst hquote
          rw [doubled_quote, doubled_quote, List.cons_append, List.cons_append,
            List.takeWhile_cons_of_pos (by simpa using hc),
            List.takeWhile_cons_of_pos (by simpa using hc), hrest]
        · rw [doubled_cons hquote, doubled_cons hquote, List.cons_append,
            List.takeWhile_cons_of_pos (by simpa using hc), hrest]

/-! ## The cases of a literal -/

theorem readQuoted_singleton {c : Char} (hc : c ≠ '\'') : readQuoted [c] = none := if_neg hc

theorem readQuoted_quotes (s : List Char) :
    readQuoted ('\'' :: '\'' :: s) =
      (readQuoted s).map fun (value, rest) => ('\'' :: value, rest) := rfl

theorem readQuoted_close {d : Char} (hd : d ≠ '\'') (s : List Char) :
    readQuoted ('\'' :: d :: s) = some ([], d :: s) := (if_pos rfl).trans (if_neg hd)

theorem readQuoted_plain {c : Char} (hquote : c ≠ '\'') (hback : c ≠ '\\') {s : List Char}
    (hne : s ≠ []) :
    readQuoted (c :: s) = (readQuoted s).map fun (value, rest) => (c :: value, rest) := by
  obtain ⟨d, t, rfl⟩ := List.exists_cons_of_ne_nil hne
  exact (if_neg hquote).trans (if_neg hback)

/-- A text without backslashes is read back from between its quotes. -/
theorem readQuoted_doubled {s : List Char} (h : '\\' ∉ s) :
    readQuoted (doubled s ++ ['\'']) = some (s, []) := by
  induction s with
  | nil => rfl
  | cons c s ih =>
      rw [List.mem_cons, not_or] at h
      have hs := ih h.2
      by_cases hc : c = '\''
      · subst hc
        rw [doubled_quote, List.cons_append, List.cons_append, readQuoted_quotes, hs]
        rfl
      · have hback : ¬c = '\\' := fun he => h.1 he.symm
        have hne : doubled s ++ ['\''] ≠ [] :=
          List.append_ne_nil_of_right_ne_nil _ (List.cons_ne_nil _ _)
        rw [doubled_cons hc, List.cons_append, readQuoted_plain hc hback hne, hs]
        rfl

/-- Without its closing quote a literal is never over. -/
theorem readQuoted_open {s : List Char} (h : '\\' ∉ s) : readQuoted (doubled s) = none := by
  induction s with
  | nil => rfl
  | cons c s ih =>
      rw [List.mem_cons, not_or] at h
      have hs := ih h.2
      by_cases hc : c = '\''
      · subst hc
        rw [doubled_quote, readQuoted_quotes, hs]
        rfl
      · have hback : ¬c = '\\' := fun he => h.1 he.symm
        rw [doubled_cons hc]
        cases ht : doubled s with
        | nil => exact readQuoted_singleton hc
        | cons d t =>
            rw [readQuoted_plain hc hback (List.cons_ne_nil d t), ← ht, hs]
            rfl

/-! ## Literals with backslashes -/

/-- What a backslash and the character after it denote. -/
def escaped : Char → List Char
  | '0' => ['\x00']
  | 'n' => ['\n']
  | 't' => ['\t']
  | 'r' => ['\r']
  | 'b' => ['\x08']
  | 'Z' => ['\x1a']
  | '%' => ['\\', '%']
  | '_' => ['\\', '_']
  | d => [d]

theorem readQuoted_backslash (d : Char) (s : List Char) :
    readQuoted ('\\' :: d :: s) =
      (readQuoted s).map fun (value, rest) => (escaped d ++ value, rest) := by
  refine ((if_neg (by decide)).trans (if_pos rfl)).trans ?_
  congr 1
  funext p
  obtain ⟨value, rest⟩ := p
  dsimp only
  unfold escaped
  split <;> rfl

/-- Only before a wildcard does a backslash denote itself and leave the next character alone. -/
theorem escaped_cases (d : Char) :
    ((d = '%' ∨ d = '_') ∧ escaped d = ['\\', d]) ∨ (d = '\\' ∧ escaped d = ['\\']) ∨
      ∃ c, escaped d = [c] ∧ c ≠ '\\' := by
  unfold escaped
  split
  · exact Or.inr (Or.inr ⟨_, rfl, by decide⟩)
  · exact Or.inr (Or.inr ⟨_, rfl, by decide⟩)
  · exact Or.inr (Or.inr ⟨_, rfl, by decide⟩)
  · exact Or.inr (Or.inr ⟨_, rfl, by decide⟩)
  · exact Or.inr (Or.inr ⟨_, rfl, by decide⟩)
  · exact Or.inr (Or.inr ⟨_, rfl, by decide⟩)
  · exact Or.inl ⟨Or.inl rfl, rfl⟩
  · exact Or.inl ⟨Or.inr rfl, rfl⟩
  · by_cases hd : d = '\\'
    · exact Or.inr (Or.inl ⟨hd, by rw [hd]⟩)
    · exact Or.inr (Or.inr ⟨d, rfl, hd⟩)

theorem count_escaped (d : Char) : (escaped d).count '\\' ≤ 1 := by
  rcases escaped_cases d with ⟨hd | hd, he⟩ | ⟨-, he⟩ | ⟨c, he, hc⟩
  · rw [he, hd]
    decide
  · rw [he, hd]
    decide
  · rw [he]
    decide
  · rw [he, List.count_singleton, if_neg (by simpa using hc)]
    exact Nat.zero_le 1

/-- **A literal denotes no more backslashes than it is written with.** -/
theorem count_readQuoted {s value rest : List Char} (h : readQuoted s = some (value, rest)) :
    value.count '\\' ≤ s.count '\\' := by
  induction s using readQuoted.induct generalizing value rest with
  | case1 => cases h
  | case2 =>
      cases h
      exact Nat.zero_le _
  | case3 c hc =>
      rw [readQuoted_singleton hc] at h
      cases h
  | case4 s ih =>
      rw [readQuoted_quotes] at h
      obtain ⟨⟨v, r⟩, hv, hvalue⟩ := Option.map_eq_some_iff.mp h
      cases hvalue
      rw [List.count_cons_of_ne (by decide), List.count_cons_of_ne (by decide),
        List.count_cons_of_ne (by decide)]
      exact ih hv
  | case5 d s hd =>
      rw [readQuoted_close hd] at h
      cases h
      exact Nat.zero_le _
  | case6 d s _ ih =>
      rw [readQuoted_backslash] at h
      obtain ⟨⟨v, r⟩, hv, hvalue⟩ := Option.map_eq_some_iff.mp h
      cases hvalue
      have hescaped := count_escaped d
      have hrest := ih hv
      have hd := List.count_le_count_cons (a := '\\') (b := d) (l := s)
      rw [List.count_append, List.count_cons_self]
      omega
  | case7 c d s hquote hback ih =>
      rw [readQuoted_plain hquote hback (List.cons_ne_nil d s)] at h
      obtain ⟨⟨v, r⟩, hv, hvalue⟩ := Option.map_eq_some_iff.mp h
      cases hvalue
      rw [List.count_cons_of_ne hback, List.count_cons_of_ne hback]
      exact ih hv

theorem count_doubled (s : List Char) : (doubled s).count '\\' = s.count '\\' := by
  induction s with
  | nil => rfl
  | cons c s ih =>
      by_cases hc : c = '\''
      · subst hc
        rw [doubled_quote, List.count_cons_of_ne (by decide), List.count_cons_of_ne (by decide),
          List.count_cons_of_ne (by decide), ih]
      · rw [doubled_cons hc, List.count_cons, List.count_cons, ih]

/-- Every backslash stands before one of the wildcards `%` and `_`. -/
def OnlyWildcardsEscaped (s : List Char) : Prop :=
  ∀ pre post, s = pre ++ '\\' :: post → post.head? = some '%' ∨ post.head? = some '_'

theorem onlyWildcardsEscaped_nil : OnlyWildcardsEscaped [] := by
  intro pre post h
  exact absurd h.symm (List.append_ne_nil_of_right_ne_nil pre (List.cons_ne_nil _ post))

theorem onlyWildcardsEscaped_cons {c : Char} (hc : c ≠ '\\') (s : List Char) :
    OnlyWildcardsEscaped (c :: s) ↔ OnlyWildcardsEscaped s := by
  constructor
  · rintro h pre post rfl
    exact h (c :: pre) post rfl
  · intro h pre post hsplit
    cases pre with
    | nil =>
        rw [List.nil_append, List.cons.injEq] at hsplit
        exact absurd hsplit.1 hc
    | cons p pre =>
        rw [List.cons_append, List.cons.injEq] at hsplit
        exact h pre post hsplit.2

theorem onlyWildcardsEscaped_backslash (s : List Char) :
    OnlyWildcardsEscaped ('\\' :: s) ↔
      (s.head? = some '%' ∨ s.head? = some '_') ∧ OnlyWildcardsEscaped s := by
  constructor
  · intro h
    refine ⟨h [] s rfl, ?_⟩
    rintro pre post rfl
    exact h ('\\' :: pre) post rfl
  · rintro ⟨hhead, h⟩ pre post hsplit
    cases pre with
    | nil =>
        rw [List.nil_append, List.cons.injEq] at hsplit
        rw [← hsplit.2]
        exact hhead
    | cons p pre =>
        rw [List.cons_append, List.cons.injEq] at hsplit
        exact h pre post hsplit.2

/-- A value that is read back starts with what the literal denotes first. -/
theorem eq_append_of_map {o : Option (List Char × List Char)} {w t : List Char}
    (h : (o.map fun (value, rest) => (w ++ value, rest)) = some (t, [])) :
    ∃ value, o = some (value, []) ∧ t = w ++ value := by
  obtain ⟨⟨v, r⟩, hv, hvalue⟩ := Option.map_eq_some_iff.mp h
  obtain ⟨ht, hr⟩ := Prod.mk.inj hvalue
  rw [hr] at hv
  exact ⟨v, hv, ht.symm⟩

/-- The reading of one more character that the literal denotes as it is. -/
theorem map_cons_eq_iff {o : Option (List Char × List Char)} {w s : List Char} :
    (o.map fun (value, rest) => (w ++ value, rest)) = some (w ++ s, []) ↔ o = some (s, []) := by
  constructor
  · intro h
    obtain ⟨v, hv, hs⟩ := eq_append_of_map h
    rw [hv, List.append_cancel_left hs]
  · rintro rfl
    rfl

/-- A character other than a backslash is read back. -/
theorem readQuoted_doubled_cons {c : Char} (hc : c ≠ '\\') (s : List Char) :
    readQuoted (doubled (c :: s) ++ ['\'']) = some (c :: s, []) ↔
      readQuoted (doubled s ++ ['\'']) = some (s, []) := by
  by_cases hquote : c = '\''
  · subst hquote
    rw [doubled_quote, List.cons_append, List.cons_append, readQuoted_quotes]
    exact map_cons_eq_iff (w := ['\''])
  · rw [doubled_cons hquote, List.cons_append,
      readQuoted_plain hquote hc (List.append_ne_nil_of_right_ne_nil _ (List.cons_ne_nil _ _))]
    exact map_cons_eq_iff (w := [c])

/-- A backslash is read back before a wildcard only. -/
theorem readQuoted_doubled_backslash (d : Char) (s : List Char)
    (ih : readQuoted (doubled s ++ ['\'']) = some (s, []) ↔ OnlyWildcardsEscaped s) :
    readQuoted (doubled ('\\' :: d :: s) ++ ['\'']) = some ('\\' :: d :: s, []) ↔
      (((d :: s).head? = some '%' ∨ (d :: s).head? = some '_') ∧
        OnlyWildcardsEscaped (d :: s)) := by
  have hback : ('\\' : Char) ≠ '\'' := by decide
  by_cases hquote : d = '\''
  · -- the backslash takes the first of the two quotes
    subst hquote
    refine iff_of_false ?_ ?_
    · rw [doubled_cons hback, doubled_quote, List.cons_append, List.cons_append,
        readQuoted_backslash]
      intro h
      obtain ⟨v, -, hvalue⟩ := eq_append_of_map h
      cases hvalue
    · rintro ⟨h | h, -⟩
      · cases h
      · cases h
  · rw [doubled_cons hback, doubled_cons hquote, List.cons_append, List.cons_append,
      readQuoted_backslash]
    rcases escaped_cases d with ⟨hd, he⟩ | ⟨rfl, he⟩ | ⟨c, he, hc⟩
    · have hplain : d ≠ '\\' := by
        rcases hd with rfl | rfl
        · decide
        · decide
      rw [he, onlyWildcardsEscaped_cons hplain, ← ih]
      have hhead : (d :: s).head? = some '%' ∨ (d :: s).head? = some '_' := by
        rcases hd with rfl | rfl
        · exact Or.inl rfl
        · exact Or.inr rfl
      rw [and_iff_right hhead]
      exact map_cons_eq_iff (w := ['\\', d])
    · -- two backslashes denote one, and the rest has none to make up for it
      refine iff_of_false ?_ ?_
      · rw [he]
        intro h
        obtain ⟨v, hv, hvalue⟩ := eq_append_of_map h
        have hv' : '\\' :: s = v := (List.cons.inj hvalue).2
        have hcount := count_readQuoted hv
        rw [← hv', List.count_cons_self, List.count_append, count_doubled] at hcount
        have hclose : List.count '\\' ['\''] = 0 := by decide
        omega
      · rintro ⟨h | h, -⟩
        · cases h
        · cases h
    · refine iff_of_false ?_ ?_
      · rw [he]
        intro h
        obtain ⟨v, -, hvalue⟩ := eq_append_of_map h
        exact hc (List.cons.inj hvalue).1.symm
      · rintro ⟨h | h, -⟩
        · cases h
          rw [escaped] at he
          cases he
        · cases h
          rw [escaped] at he
          cases he

/-- **Exactly these texts are read back from between their quotes.** -/
theorem readQuoted_doubled_iff (s : List Char) :
    readQuoted (doubled s ++ ['\'']) = some (s, []) ↔ OnlyWildcardsEscaped s := by
  induction s using List.twoStepInduction with
  | nil => exact iff_of_true rfl onlyWildcardsEscaped_nil
  | singleton c =>
      by_cases hback : c = '\\'
      · -- the backslash takes the closing quote
        subst hback
        rw [onlyWildcardsEscaped_backslash]
        refine iff_of_false (fun h => by cases h) ?_
        rintro ⟨h | h, -⟩
        · cases h
        · cases h
      · rw [readQuoted_doubled_cons hback, onlyWildcardsEscaped_cons hback]
        exact iff_of_true rfl onlyWildcardsEscaped_nil
  | cons_cons c d s ih ih' =>
      by_cases hback : c = '\\'
      · subst hback
        rw [onlyWildcardsEscaped_backslash]
        exact readQuoted_doubled_backslash d s ih
      · rw [readQuoted_doubled_cons hback, onlyWildcardsEscaped_cons hback]
        exact ih' d

/-- Read from the left, no backslash takes a quote or the end of the text. -/
def keepsQuotes : List Char → Bool
  | [] => true
  | [c] => c ≠ '\\'
  | c :: d :: s => if c = '\\' then d ≠ '\'' && keepsQuotes s else keepsQuotes (d :: s)

/-- After a quote that a backslash has taken from its pair, a literal does not end at the closing
quote: every later pair is split. -/
theorem readQuoted_split (s value : List Char) :
    readQuoted ('\'' :: (doubled s ++ ['\''])) ≠ some (value, []) := by
  induction s generalizing value with
  | nil => nofun
  | cons c s ih =>
      by_cases hc : c = '\''
      · subst hc
        rw [doubled_quote, List.cons_append, List.cons_append, readQuoted_quotes]
        intro h
        obtain ⟨⟨v, r⟩, hv, hvalue⟩ := Option.map_eq_some_iff.mp h
        cases hvalue
        exact ih v hv
      · rw [doubled_cons hc, List.cons_append, readQuoted_close hc]
        nofun

theorem map_isSome_iff {o : Option (List Char × List Char)} {w : List Char} :
    (∃ value, (o.map fun (value, rest) => (w ++ value, rest)) = some (value, [])) ↔
      ∃ value, o = some (value, []) := by
  constructor
  · rintro ⟨value, h⟩
    obtain ⟨⟨v, r⟩, hv, hvalue⟩ := Option.map_eq_some_iff.mp h
    obtain ⟨-, rfl⟩ := Prod.mk.inj hvalue
    exact ⟨v, hv⟩
  · rintro ⟨value, rfl⟩
    exact ⟨w ++ value, rfl⟩

/-- **Exactly these texts end where their closing quote is**, whatever they denote. -/
theorem readQuoted_closed_iff (s : List Char) :
    (∃ value, readQuoted (doubled s ++ ['\'']) = some (value, [])) ↔ keepsQuotes s = true := by
  have hplain : ∀ {c : Char} (s : List Char), c ≠ '\\' →
      ((∃ value, readQuoted (doubled (c :: s) ++ ['\'']) = some (value, [])) ↔
        ∃ value, readQuoted (doubled s ++ ['\'']) = some (value, [])) := by
    intro c s hc
    by_cases hquote : c = '\''
    · subst hquote
      rw [doubled_quote, List.cons_append, List.cons_append, readQuoted_quotes]
      exact map_isSome_iff (w := ['\''])
    · rw [doubled_cons hquote, List.cons_append,
        readQuoted_plain hquote hc (List.append_ne_nil_of_right_ne_nil _ (List.cons_ne_nil _ _))]
      exact map_isSome_iff (w := [c])
  have hback : ('\\' : Char) ≠ '\'' := by decide
  induction s using List.twoStepInduction with
  | nil => exact iff_of_true ⟨[], rfl⟩ rfl
  | singleton c =>
      by_cases hc : c = '\\'
      · subst hc
        exact iff_of_false (fun ⟨_, h⟩ => by cases h) (by decide)
      · rw [hplain [] hc, keepsQuotes]
        exact iff_of_true ⟨[], rfl⟩ (decide_eq_true hc)
  | cons_cons c d s ih ih' =>
      by_cases hc : c = '\\'
      · subst hc
        rw [keepsQuotes, if_pos rfl, Bool.and_eq_true, decide_eq_true_eq]
        refine Iff.trans ?_ (and_congr_right fun _ => ih)
        by_cases hquote : d = '\''
        · subst hquote
          rw [doubled_cons hback, doubled_quote, List.cons_append, List.cons_append,
            readQuoted_backslash]
          refine iff_of_false ?_ fun h => h.1 rfl
          rintro ⟨value, h⟩
          obtain ⟨⟨v, r⟩, hv, hvalue⟩ := Option.map_eq_some_iff.mp h
          obtain ⟨-, rfl⟩ := Prod.mk.inj hvalue
          exact readQuoted_split s v hv
        · rw [doubled_cons hback, doubled_cons hquote, List.cons_append, List.cons_append,
            readQuoted_backslash, and_iff_right hquote]
          exact map_isSome_iff
      · rw [hplain (d :: s) hc, keepsQuotes, if_neg hc]
        exact ih' d

/-! ## Conditions -/

inductive Condition where
  | always
  | isText (column value : List Char)
  | isInt (column : List Char) (n : ℤ)
  | oneOf (column : List Char) (ns : List ℤ)

/-- Whether a row meets the condition; `value` is what the row has in a column. -/
def Condition.holds (value : List Char → Value) : Condition → Bool
  | .always => true
  | .isText column s => value column = .text s
  | .isInt column n => value column = .int n
  | .oneOf column ns => ns.any fun n => value column = .int n

/-- What follows the words `w`. -/
def after? : List Char → List Char → Option (List Char)
  | [], s => some s
  | _ :: _, [] => none
  | c :: w, d :: s => if c = d then after? w s else none

/-- What stands before the closing parenthesis at the end. -/
def enclosed? (s : List Char) : Option (List Char) :=
  if s.getLast? = some ')' then some s.dropLast else none

/-- The comparison of a column. -/
def readComparison? (column s : List Char) : Option Condition :=
  match after? " = '".toList s with
  | some s =>
      match readQuoted s with
      | some (value, []) => some (.isText column value)
      | _ => none
  | none =>
      match after? " IN (".toList s with
      | some s => do
          let list ← enclosed? s
          let ns ← (list.splitOn ',').mapM readInt?
          return .oneOf column ns
      | none => do
          let s ← after? " = ".toList s
          let n ← readInt? s
          return .isInt column n

/-- The condition of a query, from what follows its table. -/
def readCondition? (s : List Char) : Option Condition :=
  if s = [] then some .always
  else do
    let s ← after? " WHERE ".toList s
    readComparison? (s.takeWhile (· ≠ ' ')) (s.dropWhile (· ≠ ' '))

theorem after?_append (w s : List Char) : after? w (w ++ s) = some s := by
  induction w with
  | nil => rfl
  | cons c w ih => rw [List.cons_append, after?, if_pos rfl, ih]

/-- A condition with a comparison: the column is what stands before the first blank. -/
theorem readCondition?_where {column : List Char} (hcolumn : ' ' ∉ column) (s : List Char) :
    readCondition? (" WHERE ".toList ++ (column ++ ' ' :: s)) =
      readComparison? column (' ' :: s) := by
  have htake : (column ++ ' ' :: s).takeWhile (· ≠ ' ') = column := by
    rw [takeWhile_words hcolumn]
    simp
  have hdrop : (column ++ ' ' :: s).dropWhile (· ≠ ' ') = ' ' :: s := by
    -- the two parts make up the whole
    have hparts := List.takeWhile_append_dropWhile (p := (· ≠ ' ')) (l := column ++ ' ' :: s)
    rw [htake] at hparts
    exact List.append_cancel_left hparts
  have hne : " WHERE ".toList ++ (column ++ ' ' :: s) ≠ [] := List.cons_ne_nil _ _
  rw [readCondition?, if_neg hne, after?_append]
  simp only [Option.bind_eq_bind, Option.bind_some, htake, hdrop]

section Written

variable {column : List Char}

/-- **A comparison with a text is read back.** -/
theorem readCondition?_isText (hcolumn : ' ' ∉ column) {s : List Char} (hs : '\\' ∉ s) :
    readCondition? (" WHERE ".toList ++ (column ++ (" = '".toList ++ (doubled s ++ ['\''])))) =
      some (.isText column s) := by
  have hwhere := readCondition?_where hcolumn ("= '".toList ++ (doubled s ++ ['\'']))
  apply hwhere.trans
  show readComparison? column (" = '".toList ++ (doubled s ++ ['\''])) = _
  rw [readComparison?, after?_append]
  simp only [readQuoted_doubled hs]

/-- A comparison with a text that has no end is none. -/
theorem readCondition?_open (hcolumn : ' ' ∉ column) {s : List Char} (hs : '\\' ∉ s) :
    readCondition? (" WHERE ".toList ++ (column ++ (" = '".toList ++ doubled s))) = none := by
  have hwhere := readCondition?_where hcolumn ("= '".toList ++ doubled s)
  apply hwhere.trans
  show readComparison? column (" = '".toList ++ doubled s) = _
  rw [readComparison?, after?_append]
  simp only [readQuoted_open hs]

/-- **A comparison with an integer is read back.** -/
theorem readCondition?_isInt (hcolumn : ' ' ∉ column) (n : ℤ) :
    readCondition? (" WHERE ".toList ++ (column ++ (" = ".toList ++ intText n))) =
      some (.isInt column n) := by
  have hwhere := readCondition?_where hcolumn ("= ".toList ++ intText n)
  apply hwhere.trans
  show readComparison? column (" = ".toList ++ intText n) = _
  -- an integer is not taken for a text: it has no quote
  have hquote : after? " = '".toList (" = ".toList ++ intText n) = none := by
    show after? ['\''] (intText n) = none
    have hmem : '\'' ∉ intText n := not_mem_intText (by decide) (by decide) n
    cases hn : intText n with
    | nil => rfl
    | cons c s =>
        rw [hn, List.mem_cons, not_or] at hmem
        rw [after?, if_neg hmem.1]
  have hlist : after? " IN (".toList (" = ".toList ++ intText n) = none := rfl
  rw [readComparison?, hquote, hlist, after?_append]
  simp only [Option.bind_eq_bind, Option.bind_some, readInt?_intText]
  rfl

/-- **A list of integers is read back.** -/
theorem readCondition?_oneOf (hcolumn : ' ' ∉ column) {ns : List ℤ} (hns : ns ≠ []) :
    readCondition? (" WHERE ".toList ++
        (column ++ (" IN (".toList ++ ([','].intercalate (ns.map intText) ++ [')'])))) =
      some (.oneOf column ns) := by
  have hwhere := readCondition?_where hcolumn
    ("IN (".toList ++ ([','].intercalate (ns.map intText) ++ [')']))
  apply hwhere.trans
  show readComparison? column
    (" IN (".toList ++ ([','].intercalate (ns.map intText) ++ [')'])) = _
  have hequal : after? " = '".toList
      (" IN (".toList ++ ([','].intercalate (ns.map intText) ++ [')'])) = none := rfl
  have hsplit : ([','].intercalate (ns.map intText)).splitOn ',' = ns.map intText := by
    apply List.splitOn_intercalate
    · intro l hl
      obtain ⟨n, -, rfl⟩ := List.mem_map.mp hl
      exact not_mem_intText (by decide) (by decide) n
    · exact fun he => hns (List.map_eq_nil_iff.mp he)
  rw [readComparison?, hequal, after?_append]
  simp only [enclosed?, List.getLast?_concat, if_true, List.dropLast_concat,
    Option.bind_eq_bind, Option.bind_some, hsplit, mapM_readInt?]
  rfl

end Written

end Sql
