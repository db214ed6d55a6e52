import DistWorkshops.Sharding.Vertical

/-!
# The city as a literal

`vertical_coordinator.ps1` pastes the city into its query, with every quote doubled. MySQL has a
second escape in its literals, the backslash, and the script leaves it alone. So the literal is the
city for exactly those cities in which backslashes only stand before the wildcards `%` and `_`,
where MySQL keeps them; a backslash before a quote ends the literal early, and what follows it is
read as SQL.
-/

set_option autoImplicit false

namespace Sharding.Vertical

open Sql

/-- What stands before the city, the opening quote included. -/
def cityPrefix : List Char := contactTable.select ++ " WHERE city = '".toList

/-- The query goes on after the opening quote with a literal that ends where the query ends and
denotes the city. -/
def CityContained (City : List Char) : Prop :=
  ∃ literal, contactSql City = cityPrefix ++ literal ∧ readQuoted literal = some (City, [])

theorem contactSql_literal {City : List Char} (hne : City ≠ []) :
    contactSql City = cityPrefix ++ (doubled City ++ ['\'']) := by
  rw [contactSql, if_neg hne, cityPrefix, List.append_assoc]
  rfl

/-- **Which cities stay inside their literal.** -/
theorem cityContained_iff {City : List Char} (hne : City ≠ []) :
    CityContained City ↔
      ∀ pre post, City = pre ++ '\\' :: post → post.head? = some '%' ∨ post.head? = some '_' := by
  have hiff := readQuoted_doubled_iff City
  rw [← OnlyWildcardsEscaped, ← hiff, CityContained, contactSql_literal hne]
  constructor
  · rintro ⟨literal, hsql, hread⟩
    rw [List.append_cancel_left hsql]
    exact hread
  · intro hread
    exact ⟨_, rfl, hread⟩

/-- A city with a backslash before a wildcard. -/
theorem cityContained_iff_quito :
    CityContained "Quito\\%".toList ↔ ∀ pre post, "Quito\\%".toList = pre ++ '\\' :: post →
      post.head? = some '%' ∨ post.head? = some '_' :=
  cityContained_iff (by decide)

/-- **Which cities leave the structure of the query alone**: the literal ends where the query ends,
though it may denote another city. -/
theorem city_closed_iff {City : List Char} (hne : City ≠ []) :
    (∃ literal value, contactSql City = cityPrefix ++ literal ∧
        readQuoted literal = some (value, [])) ↔ keepsQuotes City = true := by
  rw [← readQuoted_closed_iff, contactSql_literal hne]
  constructor
  · rintro ⟨literal, value, hsql, hread⟩
    rw [List.append_cancel_left hsql]
    exact ⟨value, hread⟩
  · rintro ⟨value, hread⟩
    exact ⟨_, value, rfl, hread⟩

/-- The city `\' OR 1=1 -- `: its literal is a single quote, and the rest is a condition and a
comment. -/
theorem city_escapes :
    contactSql "\\' OR 1=1 -- ".toList = cityPrefix ++ "\\'' OR 1=1 -- '".toList ∧
      readQuoted "\\'' OR 1=1 -- '".toList = some (['\''], " OR 1=1 -- '".toList) ∧
      ¬ CityContained "\\' OR 1=1 -- ".toList := by
  have hcontact : contactSql "\\' OR 1=1 -- ".toList = cityPrefix ++ "\\'' OR 1=1 -- '".toList :=
    contactSql_literal (by decide)
  have hread : readQuoted "\\'' OR 1=1 -- '".toList = some (['\''], " OR 1=1 -- '".toList) := rfl
  refine ⟨hcontact, hread, ?_⟩
  rintro ⟨literal, hsql, hcontained⟩
  rw [hcontact] at hsql
  rw [← List.append_cancel_left hsql, hread] at hcontained
  cases hcontained

end Sharding.Vertical
