import Mathlib.Data.List.TakeWhile
import DistWorkshops.Lib.Text

/-!
# Fields

The first field of a text and what follows it, for any notion of white space (`Fields`), and the
words of `split` as its fields. Programs that agree on the white space around two fields agree on
the fields (`Fields.unique`).
-/

set_option autoImplicit false

namespace Text

/-- White space, the field `first`, white space, and `rest`, which begins with the second field if
there is one. -/
def Fields (space : Char → Bool) (s first rest : List Char) : Prop :=
  ∃ front gap, s = front ++ (first ++ (gap ++ rest)) ∧ (∀ c ∈ front, space c = true) ∧
    first ≠ [] ∧ (∀ c ∈ first, space c = false) ∧ gap ≠ [] ∧ (∀ c ∈ gap, space c = true) ∧
      ∀ c ∈ rest.head?, space c = false

/-- The end of a field: nothing, or white space and anything. -/
def Ends (space : Char → Bool) (tail : List Char) : Prop := ∀ c ∈ tail.head?, space c = true

section Spans

variable {p : Char → Bool} {run rest : List Char}

theorem takeWhile_run (hrun : ∀ c ∈ run, p c = true) (hrest : ∀ c ∈ rest.head?, p c = false) :
    (run ++ rest).takeWhile p = run := by
  rw [List.takeWhile_append_of_pos hrun]
  cases rest with
  | nil => rw [List.takeWhile_nil, List.append_nil]
  | cons c rest =>
      have hc : ¬ p c = true := by
        rw [hrest c rfl]
        exact Bool.false_ne_true
      rw [List.takeWhile_cons_of_neg hc, List.append_nil]

theorem dropWhile_run (hrun : ∀ c ∈ run, p c = true) (hrest : ∀ c ∈ rest.head?, p c = false) :
    (run ++ rest).dropWhile p = rest := by
  rw [List.dropWhile_append_of_pos hrun]
  cases rest with
  | nil => rfl
  | cons c rest =>
      have hc : ¬ p c = true := by
        rw [hrest c rfl]
        exact Bool.false_ne_true
      exact List.dropWhile_cons_of_neg hc

/-- Every text is a run and what stops it. -/
theorem exists_run (p : Char → Bool) (s : List Char) :
    ∃ run rest, s = run ++ rest ∧ (∀ c ∈ run, p c = true) ∧ ∀ c ∈ rest.head?, p c = false := by
  refine ⟨s.takeWhile p, s.dropWhile p, List.takeWhile_append_dropWhile.symm,
    fun c hc => List.mem_takeWhile_imp hc, fun c hc => ?_⟩
  have hhead := List.head?_dropWhile_not p s
  rw [Option.mem_def.mp hc] at hhead
  exact hhead

/-- What holds of a run holds of the first character. -/
theorem head?_append {P : Char → Prop} (hne : run ≠ []) (h : ∀ c ∈ run, P c) :
    ∀ c ∈ (run ++ rest).head?, P c := by
  obtain ⟨d, run, rfl⟩ := List.exists_cons_of_ne_nil hne
  intro c hc
  rw [← Option.some.inj hc]
  exact h d List.mem_cons_self

end Spans

theorem not_space_iff {space : Char → Bool} {s : List Char} :
    (∀ c ∈ s, (!space c) = true) ↔ ∀ c ∈ s, space c = false := by
  simp only [Bool.not_eq_true']

/-! ## The first field -/

section Unique

variable {space : Char → Bool} {s first rest : List Char}

/-- The first field and the rest, computed. -/
theorem Fields.eq (h : Fields space s first rest) :
    first = (s.dropWhile space).takeWhile (fun c => !space c) ∧
      rest = ((s.dropWhile space).dropWhile fun c => !space c).dropWhile space := by
  obtain ⟨front, gap, rfl, hfront, hne, hfirst, hgap, hspaces, hrest⟩ := h
  have hhead : ∀ c ∈ (first ++ (gap ++ rest)).head?, space c = false := head?_append hne hfirst
  have hstop : ∀ c ∈ (gap ++ rest).head?, (!space c) = false :=
    head?_append hgap fun c hc => by rw [hspaces c hc]; rfl
  rw [dropWhile_run hfront hhead, takeWhile_run (not_space_iff.mpr hfirst) hstop,
    dropWhile_run (not_space_iff.mpr hfirst) hstop, dropWhile_run hspaces hrest]
  exact ⟨rfl, rfl⟩

theorem Fields.unique {first' rest' : List Char} (h : Fields space s first rest)
    (h' : Fields space s first' rest') : first = first' ∧ rest = rest' := by
  rw [h.eq.1, h.eq.2, ← h'.eq.1, ← h'.eq.2]
  exact ⟨rfl, rfl⟩

/-- White space of one kind is white space of another one, if it does not come up in the fields. -/
theorem Fields.mono {space' : Char → Bool} (h : Fields space s first rest)
    (hspace : ∀ c, space c = true → space' c = true) (hfirst : ∀ c ∈ first, space' c = false)
    (hrest : ∀ c ∈ rest.head?, space' c = false) : Fields space' s first rest := by
  obtain ⟨front, gap, hs, hfront, hne, -, hgap, hspaces, -⟩ := h
  exact ⟨front, gap, hs, fun c hc => hspace c (hfront c hc), hne, hfirst, hgap,
    fun c hc => hspace c (hspaces c hc), hrest⟩

/-- Two fields with a blank between them. -/
theorem Fields.of_blank (hblank : space ' ' = true) (hne : first ≠ [])
    (hfirst : ∀ c ∈ first, space c = false) (hrest : ∀ c ∈ rest, space c = false) :
    Fields space (first ++ ' ' :: rest) first rest := by
  refine ⟨[], [' '], rfl, nofun, hne, hfirst, List.cons_ne_nil _ _, ?_, ?_⟩
  · intro c hc
    rw [List.mem_singleton.mp hc]
    exact hblank
  · exact fun c hc => hrest c (List.mem_of_mem_head? hc)

theorem Fields.solid (h : Fields space s first rest) : ∀ c ∈ first, space c = false := by
  obtain ⟨front, gap, -, -, -, hfirst, -⟩ := h
  exact hfirst

theorem Fields.mem (h : Fields space s first rest) {c : Char} (hc : c ∈ first) : c ∈ s := by
  obtain ⟨front, gap, rfl, -⟩ := h
  exact List.mem_append_right front (List.mem_append_left _ hc)

theorem Fields.mem_rest (h : Fields space s first rest) {c : Char} (hc : c ∈ rest) : c ∈ s := by
  obtain ⟨front, gap, rfl, -⟩ := h
  exact List.mem_append_right front (List.mem_append_right first (List.mem_append_right gap hc))

theorem Fields.not_space_head (h : Fields space s first rest) :
    ∀ c ∈ rest.head?, space c = false := by
  obtain ⟨front, gap, -, -, -, -, -, -, hrest⟩ := h
  exact hrest

theorem Fields.length_le (h : Fields space s first rest) :
    first.length + 1 + rest.length ≤ s.length := by
  obtain ⟨front, gap, rfl, -, -, -, hgap, -, -⟩ := h
  have hpos : 0 < gap.length := List.length_pos_iff.mpr hgap
  simp only [List.length_append]
  omega

end Unique

/-! ## Words -/

theorem split_word_ends {w tail : List Char} (hne : w ≠ []) (hw : Solid w)
    (htail : Ends isSpace tail) : split (w ++ tail) = w :: split tail := by
  cases tail with
  | nil => rw [List.append_nil, split_word hne hw, split_nil]
  | cons c tail =>
      have hc : isSpace c = true := htail c rfl
      rw [split_append_space w tail hc, split_word hne hw, split_cons_space tail hc]
      rfl

theorem split_front {front : List Char} (hfront : ∀ c ∈ front, isSpace c = true)
    (s : List Char) : split (front ++ s) = split s := by
  induction front with
  | nil => rfl
  | cons c front ih =>
      rw [List.cons_append, split_cons_space _ (hfront c List.mem_cons_self)]
      exact ih fun d hd => hfront d (List.mem_cons_of_mem c hd)

/-- The first word of a text. -/
theorem split_eq_cons {s w : List Char} {ws : List (List Char)} (h : split s = w :: ws) :
    ∃ front tail, s = front ++ (w ++ tail) ∧ (∀ c ∈ front, isSpace c = true) ∧ w ≠ [] ∧ Solid w ∧
      Ends isSpace tail ∧ split tail = ws := by
  obtain ⟨front, t, rfl, hfront, ht⟩ := exists_run isSpace s
  obtain ⟨v, tail, rfl, hv, htail⟩ := exists_run (fun c => !isSpace c) t
  rw [not_space_iff] at hv
  have hends : Ends isSpace tail := fun c hc => by simpa using htail c hc
  rw [split_front hfront] at h
  cases v with
  | nil =>
      -- then nothing is left
      cases tail with
      | nil => cases h
      | cons c tail =>
          have hc := hends c rfl
          rw [ht c rfl] at hc
          cases hc
  | cons c v =>
      rw [split_word_ends (List.cons_ne_nil c v) hv hends] at h
      obtain ⟨rfl, rfl⟩ := List.cons.inj h
      exact ⟨front, tail, rfl, hfront, List.cons_ne_nil c v, hv, hends, rfl⟩

/-- **The first two words of a text are its first two fields.** -/
theorem split_eq_cons_cons_iff {s first second : List Char} :
    (∃ ws, split s = first :: second :: ws) ↔
      ∃ tail, Fields isSpace s first (second ++ tail) ∧ second ≠ [] ∧ Solid second ∧
        Ends isSpace tail := by
  constructor
  · rintro ⟨ws, h⟩
    obtain ⟨front, t, rfl, hfront, hne, hfirst, ht, hws⟩ := split_eq_cons h
    obtain ⟨gap, tail, rfl, hgap, hne', hsecond, htail, -⟩ := split_eq_cons hws
    refine ⟨tail, ⟨front, gap, rfl, hfront, hne, hfirst, ?_, hgap, ?_⟩, hne', hsecond, htail⟩
    · -- without a gap the second word would go on from the first one
      rintro rfl
      obtain ⟨c, cs, rfl⟩ := List.exists_cons_of_ne_nil hne'
      have hc := hsecond c List.mem_cons_self
      rw [ht c rfl] at hc
      cases hc
    · exact head?_append hne' hsecond
  · rintro ⟨tail, ⟨front, gap, rfl, hfront, hne, hfirst, hgap, hspaces, -⟩, hne', hsecond, htail⟩
    have hends : Ends isSpace (gap ++ (second ++ tail)) := head?_append hgap hspaces
    rw [split_front hfront, split_word_ends hne hfirst hends, split_front hspaces,
      split_word_ends hne' hsecond htail]
    exact ⟨split tail, rfl⟩

end Text
