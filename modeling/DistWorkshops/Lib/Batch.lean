import DistWorkshops.Lib.Text

set_option autoImplicit false

/-! # Tables as text

The batch output of a database client: one line for each row, its values separated by tabs.
In a value a tab, a line feed, a backslash and the character zero are written with a backslash.
A carriage return is not, and for the reader it ends a line too; without it, the rows are read
back.
-/

namespace Batch

/-! ## Writing -/

def escapeChar (c : Char) : List Char :=
  if c = '\x00' then ['\\', '0']
  else if c = '\t' then ['\\', 't']
  else if c = '\n' then ['\\', 'n']
  else if c = '\\' then ['\\', '\\']
  else [c]

/-- How a value is written. -/
def escape (s : List Char) : List Char := s.flatMap escapeChar

/-- The line of a row. -/
def line (row : List (List Char)) : List Char := ['\t'].intercalate row

/-- What the client prints. -/
def output (rows : List (List (List Char))) : List Char :=
  rows.flatMap fun row => line row ++ ['\n']

/-! ## Reading -/

/-- The lines of a text: a line feed ends one, a carriage return, and the two together. Here
`current` is what the line holds so far, and a line feed that follows a carriage return has
nothing more to end. -/
def linesFrom (current : List Char) (afterReturn : Bool) : List Char → List (List Char)
  | [] => if current = [] then [] else [current]
  | c :: s =>
      if c = '\n' then
        if afterReturn then linesFrom current false s else current :: linesFrom [] false s
      else if c = '\r' then current :: linesFrom [] true s
      else linesFrom (current ++ [c]) false s

def lines (s : List Char) : List (List Char) := linesFrom [] false s

/-- The values of the rows of a text. -/
def read (s : List Char) : List (List (List Char)) := (lines s).map fun l => l.splitOn '\t'

/-! ## Escaped values -/

/-- A value that is written as it is. -/
def Plain (s : List Char) : Prop := ∀ c ∈ s, c ≠ '\x00' ∧ c ≠ '\t' ∧ c ≠ '\n' ∧ c ≠ '\\'

instance (s : List Char) : Decidable (Plain s) :=
  List.decidableBAll (fun c => c ≠ '\x00' ∧ c ≠ '\t' ∧ c ≠ '\n' ∧ c ≠ '\\') s

theorem escapeChar_plain {c : Char} (h : c ≠ '\x00' ∧ c ≠ '\t' ∧ c ≠ '\n' ∧ c ≠ '\\') :
    escapeChar c = [c] := by
  rw [escapeChar, if_neg h.1, if_neg h.2.1, if_neg h.2.2.1, if_neg h.2.2.2]

theorem escape_plain {s : List Char} (h : Plain s) : escape s = s := by
  induction s with
  | nil => rfl
  | cons c s ih =>
      have hc := escapeChar_plain (h c List.mem_cons_self)
      have hs := ih fun d hd => h d (List.mem_cons_of_mem c hd)
      rw [escape, List.flatMap_cons, hc]
      exact congrArg (c :: ·) hs

/-- A written value has neither a tab nor a line feed, and a carriage return where the value
has one. -/
theorem mem_escape {s : List Char} :
    '\t' ∉ escape s ∧ '\n' ∉ escape s ∧ ('\r' ∈ escape s ↔ '\r' ∈ s) := by
  have hchar : ∀ c : Char, '\t' ∉ escapeChar c ∧ '\n' ∉ escapeChar c ∧
      ('\r' ∈ escapeChar c ↔ '\r' = c) := by
    intro c
    unfold escapeChar
    split_ifs with hzero htab hfeed hback
    · subst hzero
      decide
    · subst htab
      decide
    · subst hfeed
      decide
    · subst hback
      decide
    · simp only [List.mem_singleton]
      exact ⟨fun he => htab he.symm, fun he => hfeed he.symm, trivial⟩
  refine ⟨fun h => ?_, fun h => ?_, ?_⟩
  · obtain ⟨c, -, hc⟩ := List.mem_flatMap.mp h
    exact (hchar c).1 hc
  · obtain ⟨c, -, hc⟩ := List.mem_flatMap.mp h
    exact (hchar c).2.1 hc
  · rw [escape, List.mem_flatMap]
    constructor
    · rintro ⟨c, hmem, hc⟩
      rw [(hchar c).2.2.mp hc]
      exact hmem
    · intro h
      exact ⟨'\r', h, (hchar '\r').2.2.mpr rfl⟩

/-! ## Lines -/

/-- No line that is read holds a carriage return. -/
theorem return_not_mem_linesFrom {s : List Char} :
    ∀ {current : List Char} {afterReturn : Bool}, '\r' ∉ current →
      ∀ l ∈ linesFrom current afterReturn s, '\r' ∉ l := by
  induction s with
  | nil =>
      intro current afterReturn hcurrent l hl
      rw [linesFrom] at hl
      split_ifs at hl with hnil
      · cases hl
      · rw [List.mem_singleton.mp hl]
        exact hcurrent
  | cons c s ih =>
      intro current afterReturn hcurrent l hl
      rw [linesFrom] at hl
      split_ifs at hl with hfeed hafter hreturn
      · exact ih hcurrent l hl
      · rcases List.mem_cons.mp hl with rfl | hl
        · exact hcurrent
        · exact ih List.not_mem_nil l hl
      · rcases List.mem_cons.mp hl with rfl | hl
        · exact hcurrent
        · exact ih List.not_mem_nil l hl
      · refine ih ?_ l hl
        intro hmem
        rcases List.mem_append.mp hmem with hmem | hmem
        · exact hcurrent hmem
        · exact hreturn (List.mem_singleton.mp hmem).symm

/-- A line without a carriage return is read as it was written. -/
theorem linesFrom_line {l : List Char} (hfeed : '\n' ∉ l) (hreturn : '\r' ∉ l)
    (rest : List Char) (current : List Char) :
    linesFrom current false (l ++ '\n' :: rest) = (current ++ l) :: linesFrom [] false rest := by
  induction l generalizing current with
  | nil => simp [linesFrom]
  | cons c l ih =>
      rw [List.mem_cons, not_or] at hfeed hreturn
      have hc : ¬c = '\n' := fun he => hfeed.1 he.symm
      have hc' : ¬c = '\r' := fun he => hreturn.1 he.symm
      rw [List.cons_append, linesFrom, if_neg hc, if_neg hc', ih hfeed.2 hreturn.2,
        List.append_assoc, List.singleton_append]

/-- Joined texts hold what separates them, and what is in one of them. -/
theorem not_mem_intercalate {c sep : Char} (hc : c ≠ sep) {row : List (List Char)}
    (h : ∀ cell ∈ row, c ∉ cell) : c ∉ [sep].intercalate row := by
  induction row with
  | nil => exact List.not_mem_nil
  | cons cell row ih =>
      have hcell := h cell List.mem_cons_self
      have hrow := ih fun c hc => h c (List.mem_cons_of_mem cell hc)
      cases row with
      | nil => simpa using hcell
      | cons cell' row =>
          rw [List.intercalate_cons_cons]
          simp only [List.mem_append, List.mem_singleton, not_or]
          exact ⟨⟨hcell, hc⟩, hrow⟩

theorem mem_line {d : Char} {row : List (List Char)} {cell : List Char} (hcell : cell ∈ row)
    (hd : d ∈ cell) : d ∈ line row := Text.mem_intercalate hcell hd

/-! ## Reading back -/

/-- A row whose values are written without what separates them. -/
structure Clean (row : List (List Char)) : Prop where
  nonempty : row ≠ []
  tab : ∀ cell ∈ row, '\t' ∉ cell
  feed : ∀ cell ∈ row, '\n' ∉ cell
  carriage : ∀ cell ∈ row, '\r' ∉ cell

/-- **Clean rows are read back.** -/
theorem read_output {rows : List (List (List Char))} (h : ∀ row ∈ rows, Clean row) :
    read (output rows) = rows := by
  induction rows with
  | nil => rfl
  | cons row rows ih =>
      have hrow := h row List.mem_cons_self
      have hrest := ih fun r hr => h r (List.mem_cons_of_mem row hr)
      have hfeed : '\n' ∉ line row := not_mem_intercalate (by decide) hrow.feed
      have hreturn : '\r' ∉ line row := not_mem_intercalate (by decide) hrow.carriage
      have hline : lines (output (row :: rows)) = line row :: lines (output rows) := by
        rw [lines, output, List.flatMap_cons, List.append_assoc, List.singleton_append,
          linesFrom_line hfeed hreturn, List.nil_append]
        rfl
      rw [read, hline, List.map_cons, line, List.splitOn_intercalate '\t' hrow.tab hrow.nonempty]
      exact congrArg (row :: ·) hrest

/-- No value that is read holds a carriage return. -/
theorem return_not_mem_read {s : List Char} {row : List (List Char)} (hrow : row ∈ read s)
    {cell : List Char} (hcell : cell ∈ row) : '\r' ∉ cell := by
  obtain ⟨l, hl, rfl⟩ := List.mem_map.mp hrow
  have hclean : '\r' ∉ l := return_not_mem_linesFrom List.not_mem_nil l hl
  intro hmem
  apply hclean
  have hline := mem_line hcell hmem
  rw [line, List.intercalate_splitOn] at hline
  exact hline

end Batch
