import Mathlib.Data.List.Forall2
import Mathlib.Data.List.Nodup
import DistWorkshops.Lib.Json

/-!
# JSON Schema

A part of JSON Schema, Draft 2020-12: what a document has to meet under each keyword. A schema
object is the conjunction `all` of its keywords. A keyword about strings, numbers, arrays or
objects says nothing about a document of another type.
-/

set_option autoImplicit false

namespace JsonSchema

open Json

inductive JsonType where
  | null
  | boolean
  | object
  | array
  | number
  | string
  | integer
  deriving DecidableEq, Repr

/-- A boolean is no number; a float with an integral value is an integer. -/
def JsonType.has : JsonType → Json → Bool
  | .null, .null => true
  | .boolean, .bool _ => true
  | .object, .obj _ => true
  | .array, .arr _ => true
  | .number, .int _ | .number, .float _ | .number, .infinity _ | .number, .nan => true
  | .string, .str _ => true
  | .integer, .int _ => true
  | .integer, .float q => q.den == 1
  | _, _ => false

/-- `additional` says whether keys other than those of `properties` are allowed. -/
inductive Schema where
  | all (schemas : List Schema)
  | oneOf (schemas : List Schema)
  | type (t : JsonType)
  | const (value : Str)
  | minLength (n : ℕ)
  | maxLength (n : ℕ)
  | minimum (n : ℤ)
  | format (name : Str)
  | required (names : List Str)
  | properties (props : List (Str × Schema)) (additional : Bool)
  | minItems (n : ℕ)
  | items (schema : Schema)

/-- Which strings meet a named format. -/
abbrev FormatChecker := Str → Str → Bool

def atLeast (n : ℤ) : Json → Bool
  | .int m => decide (n ≤ m)
  | .float q => decide ((n : ℚ) ≤ q)
  | .infinity negative => !negative
  | _ => true

mutual

def Schema.valid (check : FormatChecker) : Schema → Json → Bool
  | .all schemas, document => validAll check schemas document
  -- exactly one of the branches
  | .oneOf schemas, document => countValid check schemas document == 1
  | .type t, document => t.has document
  | .const value, document => match document with
      | .str s => s == value
      | _ => false
  | .minLength n, document => match document with
      | .str s => decide (n ≤ s.length)
      | _ => true
  | .maxLength n, document => match document with
      | .str s => decide (s.length ≤ n)
      | _ => true
  | .minimum n, document => atLeast n document
  | .format name, document => match document with
      | .str s => check name s
      | _ => true
  | .required names, document => match document with
      | .obj entries => names.all fun name => (entries.lookup name).isSome
      | _ => true
  | .properties props additional, document => match document with
      | .obj entries => validProps check props entries &&
          (additional || entries.all fun entry => (props.map Prod.fst).contains entry.1)
      | _ => true
  | .minItems n, document => match document with
      | .arr items => decide (n ≤ items.length)
      | _ => true
  | .items schema, document => match document with
      | .arr items => items.all fun item => schema.valid check item
      | _ => true

def validAll (check : FormatChecker) : List Schema → Json → Bool
  | [], _ => true
  | schema :: rest, document => schema.valid check document && validAll check rest document

/-- How many of the schemas the document meets. -/
def countValid (check : FormatChecker) : List Schema → Json → ℕ
  | [], _ => 0
  | schema :: rest, document =>
      (if schema.valid check document then 1 else 0) + countValid check rest document

/-- Each declared property that is present meets its schema. -/
def validProps (check : FormatChecker) : List (Str × Schema) → List (Str × Json) → Bool
  | [], _ => true
  | (name, schema) :: rest, entries =>
      (match entries.lookup name with
        | some value => schema.valid check value
        | none => true) && validProps check rest entries

end

/-! ## Conjunctions and properties -/

variable {check : FormatChecker}

theorem validAll_iff (schemas : List Schema) (document : Json) :
    validAll check schemas document = true ↔
      ∀ schema ∈ schemas, schema.valid check document = true := by
  induction schemas with
  | nil => simp [validAll]
  | cons schema rest ih => simp [validAll, ih]

theorem validProps_iff (props : List (Str × Schema)) (entries : List (Str × Json)) :
    validProps check props entries = true ↔
      ∀ name schema, (name, schema) ∈ props → ∀ value, entries.lookup name = some value →
        schema.valid check value = true := by
  induction props with
  | nil => simp [validProps]
  | cons prop rest ih =>
      obtain ⟨name, schema⟩ := prop
      rw [validProps, Bool.and_eq_true, ih]
      constructor
      · rintro ⟨hhead, hrest⟩ name' schema' hmem value hlookup
        rcases List.mem_cons.mp hmem with heq | hmem
        · cases heq
          rw [hlookup] at hhead
          exact hhead
        · exact hrest name' schema' hmem value hlookup
      · intro h
        refine ⟨?_, fun name' schema' hmem => h name' schema' (List.mem_cons_of_mem _ hmem)⟩
        cases hlookup : entries.lookup name with
        | none => rfl
        | some value => exact h name schema List.mem_cons_self value hlookup

/-! ## Closed objects -/

/-- An object with the declared properties only, of which some are required. -/
def closedObject (required : List Str) (props : List (Str × Schema)) : Schema :=
  .all [.type .object, .required required, .properties props false]

theorem closedObject_iff (required : List Str) (props : List (Str × Schema)) (document : Json) :
    (closedObject required props).valid check document = true ↔
      ∃ entries, document = .obj entries ∧
        (∀ name ∈ required, ∃ value, entries.lookup name = some value) ∧
        (∀ name schema, (name, schema) ∈ props → ∀ value, entries.lookup name = some value →
          schema.valid check value = true) ∧
        ∀ entry ∈ entries, entry.1 ∈ props.map Prod.fst := by
  rw [closedObject, Schema.valid, validAll_iff]
  simp only [List.mem_cons, List.not_mem_nil, or_false, forall_eq_or_imp, forall_eq]
  cases document with
  | obj entries =>
      simp only [Schema.valid, JsonType.has, Bool.and_eq_true, validProps_iff, Bool.false_or,
        List.all_eq_true, List.contains_iff_mem, Option.isSome_iff_exists, true_and,
        Json.obj.injEq, exists_eq_left']
  | _ => simp [Schema.valid, JsonType.has]

/-- An entry that a declared property stands for. -/
def Conforms (check : FormatChecker) (prop : Str × Schema) (entry : Str × Json) : Prop :=
  prop.1 = entry.1 ∧ prop.2.valid check entry.2 = true

theorem keys_of_conforms {props : List (Str × Schema)} {entries : List (Str × Json)}
    (h : List.Forall₂ (Conforms check) props entries) :
    entries.map Prod.fst = props.map Prod.fst := by
  induction h with
  | nil => rfl
  | cons hentry _ ih => rw [List.map_cons, List.map_cons, ih, hentry.1]

theorem lookup_of_conforms {props : List (Str × Schema)} {entries : List (Str × Json)}
    (h : List.Forall₂ (Conforms check) props entries) (hnodup : (props.map Prod.fst).Nodup)
    {name : Str} {schema : Schema} (hprop : (name, schema) ∈ props) {value : Json}
    (hlookup : entries.lookup name = some value) : schema.valid check value = true := by
  induction h with
  | nil => cases hprop
  | @cons prop entry props entries hentry _ ih =>
      obtain ⟨hname, hvalid⟩ := hentry
      rw [List.map_cons, List.nodup_cons] at hnodup
      rcases List.mem_cons.mp hprop with rfl | htail
      · -- the entry of the property itself
        have hhead : some entry.2 = some value := by
          rw [← hlookup, List.lookup_cons, beq_iff_eq.mpr hname]
        rwa [← Option.some.inj hhead]
      · have hne : name ≠ entry.1 := by
          rintro rfl
          exact hnodup.1 (hname ▸ List.mem_map_of_mem htail)
        rw [List.lookup_cons, beq_eq_false_iff_ne.mpr hne] at hlookup
        exact ih hnodup.2 htail hlookup

/-- An object whose entries stand for some of the declared properties, in their order. -/
theorem closedObject_of_conforms_sublist {required : List Str} {props present : List (Str × Schema)}
    {entries : List (Str × Json)} (h : List.Forall₂ (Conforms check) present entries)
    (hsub : present.Sublist props) (hnodup : (props.map Prod.fst).Nodup)
    (hrequired : required ⊆ present.map Prod.fst) :
    (closedObject required props).valid check (.obj entries) = true := by
  have hkeys := keys_of_conforms h
  refine (closedObject_iff _ _ _).mpr ⟨entries, rfl, ?_, ?_, ?_⟩
  · intro name hname
    have hkey : name ∈ entries.map Prod.fst := by
      rw [hkeys]
      exact hrequired hname
    obtain ⟨entry, hentry, rfl⟩ := List.mem_map.mp hkey
    have hsome : (entries.lookup entry.1).isSome = true :=
      List.lookup_isSome_iff.mpr ⟨entry, hentry, beq_self_eq_true _⟩
    exact Option.isSome_iff_exists.mp hsome
  · intro name schema hprop value hlookup
    -- the entry found is one of a property that is present, and there is one property of a name
    have hmem : name ∈ entries.map Prod.fst := by
      obtain ⟨entry, hentry, hname⟩ := List.lookup_isSome_iff.mp (by rw [hlookup]; rfl)
      rw [beq_iff_eq.mp hname]
      exact List.mem_map_of_mem hentry
    rw [hkeys] at hmem
    obtain ⟨⟨name', schema'⟩, hpresent, rfl⟩ := List.mem_map.mp hmem
    have hsame : schema' = schema := by
      have hprop' := hsub.subset hpresent
      have hpair := List.inj_on_of_nodup_map hnodup hprop' hprop rfl
      exact (Prod.mk.inj hpair).2
    rw [← hsame]
    exact lookup_of_conforms h (hnodup.sublist (hsub.map Prod.fst)) hpresent hlookup
  · intro entry hentry
    have hmem : entry.1 ∈ entries.map Prod.fst := List.mem_map_of_mem hentry
    rw [hkeys] at hmem
    exact (hsub.map Prod.fst).subset hmem

/-- An object with one entry for each declared property, in their order. -/
theorem closedObject_of_conforms {required : List Str} {props : List (Str × Schema)}
    {entries : List (Str × Json)} (h : List.Forall₂ (Conforms check) props entries)
    (hnodup : (props.map Prod.fst).Nodup) (hrequired : required ⊆ props.map Prod.fst) :
    (closedObject required props).valid check (.obj entries) = true :=
  closedObject_of_conforms_sublist h (List.Sublist.refl props) hnodup hrequired

/-- A required property is there and meets its schema. -/
theorem closedObject_field {required : List Str} {props : List (Str × Schema)} {document : Json}
    (h : (closedObject required props).valid check document = true) (name : Str)
    {schema : Schema} (hrequired : name ∈ required) (hprop : (name, schema) ∈ props) :
    ∃ value, document.field? name = some value ∧ schema.valid check value = true := by
  obtain ⟨entries, rfl, hreq, hprops, -⟩ := (closedObject_iff required props document).mp h
  obtain ⟨value, hlookup⟩ := hreq name hrequired
  exact ⟨value, hlookup, hprops name schema hprop value hlookup⟩

/-- A required property with a constant is that constant. -/
theorem closedObject_const {required : List Str} {props : List (Str × Schema)} {document : Json}
    (h : (closedObject required props).valid check document = true) (name : Str) {value : Str}
    (hrequired : name ∈ required) (hprop : (name, .const value) ∈ props) :
    document.field? name = some (.str value) := by
  obtain ⟨v, hfield, hvalid⟩ := closedObject_field h name hrequired hprop
  rw [hfield]
  cases v with
  | str s =>
      have hs : s = value := by simpa [Schema.valid] using hvalid
      rw [hs]
  | _ => simp [Schema.valid] at hvalid

/-! ## Validators -/

structure ValidationError where
  jsonPath : Str
  message : Str

/-- A validator of a schema: `iterErrors` finds an error in a document exactly when the document
does not meet the schema. -/
structure Validator (check : FormatChecker) (schema : Schema) where
  iterErrors : Json → List ValidationError
  iterErrors_eq_nil : ∀ document, iterErrors document = [] ↔ schema.valid check document = true

/-- The validator that reports one error, at the document itself. -/
def Validator.ofValid (check : FormatChecker) (schema : Schema) : Validator check schema where
  iterErrors document :=
    if schema.valid check document then [] else [⟨text "$", text "does not meet the schema"⟩]
  iterErrors_eq_nil document := by
    by_cases h : schema.valid check document = true
    · simp [h]
    · simp [h]

end JsonSchema
