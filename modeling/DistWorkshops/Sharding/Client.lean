import DistWorkshops.Lib.Sql

set_option autoImplicit false

/-! # Queries through the command line

The coordinators have no connection to the databases. A query is an argument of
`docker exec … mysql -uroot -N -B`, and its rows come back as lines of text, one for each row
with tabs between its values.
-/

namespace Sharding

open Sql

/-! ## PowerShell -/

/-- A text without what PowerShell changes in an argument of a program. -/
structure Unquoted (s : List Char) : Prop where
  quote : '"' ∉ s
  backslash : '\\' ∉ s

/-- What the coordinators rely on in PowerShell: `[int]` of a text, which fails for some, and the
argument a program gets, which ends at a character zero. The limit on the length of a command line
is left out. -/
structure PowerShell where
  int? : List Char → Option Int32
  int?_intText : ∀ i : Int32, int? (Decimal.intText i.toInt) = some i
  argument : List Char → List Char
  argument_unquoted : ∀ s, Unquoted s → argument s = s.takeWhile (· ≠ '\x00')

namespace PowerShell

theorem argument_eq_self (ps : PowerShell) {s : List Char} (h : Unquoted s) (hzero : '\x00' ∉ s) :
    ps.argument s = s := by
  have hwords := takeWhile_words hzero []
  rw [List.append_nil, List.takeWhile_nil, List.append_nil] at hwords
  rw [ps.argument_unquoted s h]
  exact hwords

/-- A shell with no more than that: its `[int]` reads integers only, and an argument with
characters it should change is passed on all the same. -/
def plain : PowerShell where
  int? s := (readInt? s).bind fun n => if -2 ^ 31 ≤ n ∧ n < 2 ^ 31 then some (.ofInt n) else none
  int?_intText i := by
    have hbounds : -2 ^ 31 ≤ i.toInt ∧ i.toInt < 2 ^ 31 := ⟨i.le_toInt, i.toInt_lt⟩
    rw [readInt?_intText, Option.bind_some, if_pos hbounds, Int32.ofInt_toInt]
  argument s := s.takeWhile (· ≠ '\x00')
  argument_unquoted _ _ := rfl

end PowerShell

/-! ## Tables -/

/-- A table, with the query of a coordinator and the columns it asks for. -/
structure Table (ρ : Type) where
  select : List Char
  columns : List (List Char × (ρ → Value))

namespace Table

variable {ρ : Type}

/-- What a row has in a column. -/
def value (t : Table ρ) (r : ρ) (name : List Char) : Value :=
  match t.columns.lookup name with
  | none => .null
  | some column => column r

/-- How a row is printed. -/
def cells (t : Table ρ) (r : ρ) : List (List Char) := t.columns.map fun column => (column.2 r).cell

/-- What the server sends for a query: the rows that meet its condition. Anything else is an
error, and no row. -/
def answer (t : Table ρ) (rows : List ρ) (sql : List Char) : List (List (List Char)) :=
  match (after? t.select sql).bind readCondition? with
  | none => []
  | some condition => (rows.filter fun r => condition.holds (t.value r)).map t.cells

/-- A row without carriage returns is printed as one line. -/
theorem cells_clean (t : Table ρ) {r : ρ} (hcolumns : t.columns ≠ [])
    (h : ∀ column ∈ t.columns, ∀ s, column.2 r = .text s → '\r' ∉ s) :
    Batch.Clean (t.cells r) := by
  have hcell : ∀ column ∈ t.columns,
      '\t' ∉ (column.2 r).cell ∧ '\n' ∉ (column.2 r).cell ∧ '\r' ∉ (column.2 r).cell := by
    intro column hcolumn
    cases hvalue : column.2 r with
    | null => exact ⟨by decide, by decide, by decide⟩
    | int n =>
        exact ⟨not_mem_intText (by decide) (by decide) n,
          not_mem_intText (by decide) (by decide) n, not_mem_intText (by decide) (by decide) n⟩
    | text s =>
        have hmem := Batch.mem_escape (s := s)
        exact ⟨hmem.1, hmem.2.1, fun hr => h column hcolumn s hvalue (hmem.2.2.mp hr)⟩
  refine ⟨fun he => hcolumns (List.map_eq_nil_iff.mp he), ?_, ?_, ?_⟩
  all_goals
    intro cell hmem
    obtain ⟨column, hcolumn, rfl⟩ := List.mem_map.mp hmem
  · exact (hcell column hcolumn).1
  · exact (hcell column hcolumn).2.1
  · exact (hcell column hcolumn).2.2

end Table

/-! ## Queries -/

namespace PowerShell

variable {ρ : Type}

/-- The lines that come back for a query, split at the tabs. -/
def query (ps : PowerShell) (t : Table ρ) (rows : List ρ) (sql : List Char) :
    List (List (List Char)) :=
  Batch.read (Batch.output (t.answer rows (ps.argument sql)))

/-- **A query gets the rows that meet its condition.** -/
theorem query_eq (ps : PowerShell) (t : Table ρ) {rows : List ρ} {clause : List Char}
    {condition : Condition} (hquoted : Unquoted (t.select ++ clause))
    (hzero : '\x00' ∉ t.select ++ clause) (hread : readCondition? clause = some condition)
    (hclean : ∀ r ∈ rows, Batch.Clean (t.cells r)) :
    ps.query t rows (t.select ++ clause) =
      (rows.filter fun r => condition.holds (t.value r)).map t.cells := by
  have hanswer : t.answer rows (ps.argument (t.select ++ clause)) =
      (rows.filter fun r => condition.holds (t.value r)).map t.cells := by
    rw [ps.argument_eq_self hquoted hzero, Table.answer, after?_append, Option.bind_some, hread]
  rw [query, hanswer]
  apply Batch.read_output
  intro row hrow
  obtain ⟨r, hr, rfl⟩ := List.mem_map.mp hrow
  exact hclean r (List.mem_of_mem_filter hr)

/-- A query that is cut before its condition is complete gets no row. -/
theorem query_cut (ps : PowerShell) (t : Table ρ) (rows : List ρ) {clause : List Char}
    (hquoted : Unquoted (t.select ++ clause)) (hselect : '\x00' ∉ t.select)
    (hread : readCondition? (clause.takeWhile (· ≠ '\x00')) = none) :
    ps.query t rows (t.select ++ clause) = [] := by
  have hanswer : t.answer rows (ps.argument (t.select ++ clause)) = [] := by
    rw [ps.argument_unquoted _ hquoted, takeWhile_words hselect, Table.answer, after?_append,
      Option.bind_some, hread]
  rw [query, hanswer]
  rfl

/-- No value that comes back holds a carriage return. -/
theorem return_not_mem_query (ps : PowerShell) (t : Table ρ) {rows : List ρ} {sql : List Char}
    {f : List (List Char)} (hf : f ∈ ps.query t rows sql) {i : ℕ} {cell : List Char}
    (hcell : f[i]? = some cell) : '\r' ∉ cell :=
  Batch.return_not_mem_read hf (List.mem_of_getElem? hcell)

end PowerShell

end Sharding
