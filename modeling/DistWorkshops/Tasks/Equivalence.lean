import DistWorkshops.Tasks.Server

/-!
# The two task servers compared

The C server is meant to do what the Python server does. On ASCII messages they part in three ways:
`%d` stops at the first character that is no digit, where `int` wants the whole word and lets
underscores stand between digits; and the separators FS, GS, RS and US are white space for Python
only.
-/

set_option autoImplicit false

namespace Tasks

open Text Decimal Scanf

/-! ## The messages of each server -/

/-- Two fields between blanks, where the second one begins with a number. -/
def Scanned (message : List Char) : Prop :=
  ∃ task rest, Fields isBlank message task rest ∧ StartsNumber rest

/-- Two words, where the second one is an integer literal. -/
def Tokenised (unicode : Unicode) (message : List Char) : Prop :=
  ∃ task number tail, Fields isSpace message task (number ++ tail) ∧ Solid number ∧
    Ends isSpace tail ∧ (int? unicode number).isSome

/-- A word and blanks, and then a word of digits with or without a sign, or any integer literal
that is zero. -/
def Plain (unicode : Unicode) (message : List Char) : Prop :=
  ∃ task number tail, Fields isBlank message task (number ++ tail) ∧ Solid task ∧ Solid number ∧
    Ends isSpace tail ∧ (Numeral number ∨ int? unicode number = some 0)

section Messages

variable (unicode : Unicode) (overflow : ℤ → ℤ) {message : List Char}

theorem request_isOk_iff :
    (∃ job, request unicode (Utf8.encode message) = .ok job) ↔ Tokenised unicode message := by
  constructor
  · rintro ⟨job, h⟩
    obtain ⟨number, tail, hfields, hsolid, hends, hint⟩ := (request_eq_ok_iff unicode).mp h
    exact ⟨job.task, number, tail, hfields, hsolid, hends, by rw [hint]; rfl⟩
  · rintro ⟨task, number, tail, hfields, hsolid, hends, hint⟩
    obtain ⟨seconds, hseconds⟩ := Option.isSome_iff_exists.mp hint
    exact ⟨⟨task, seconds⟩,
      (request_eq_ok_iff unicode).mpr ⟨number, tail, hfields, hsolid, hends, hseconds⟩⟩

variable (hascii : ∀ c ∈ message, c.toNat < 128) (hnul : '\x00' ∉ message)
include hascii hnul

theorem sscanf_isSome_iff :
    (∃ job, sscanf overflow (Utf8.encode message) = some job) ↔ Scanned message := by
  have hstring := cString_encode_of_not_mem hascii hnul
  constructor
  · rintro ⟨job, h⟩
    obtain ⟨rest, number, more, hfields, hnumber, -⟩ := (sscanf_eq_some_iff overflow).mp h
    rw [hstring] at hfields
    have hstarts := (number?_isSome_iff rest).mp (by rw [hnumber]; rfl)
    rw [skip_eq_self hfields.not_space_head] at hstarts
    exact ⟨job.task, rest, hfields, hstarts⟩
  · rintro ⟨task, rest, hfields, hstarts⟩
    have hsome := (number?_isSome_iff rest).mpr (by rwa [skip_eq_self hfields.not_space_head])
    obtain ⟨⟨number, more⟩, hnumber⟩ := Option.isSome_iff_exists.mp hsome
    rw [← hstring] at hfields
    exact ⟨⟨task, stored overflow number⟩,
      (sscanf_eq_some_iff overflow).mpr ⟨rest, number, more, hfields, hnumber, rfl⟩⟩

variable (hrange : ∀ task number, wordNumber? message = some (task, number) → IntRange number)
include hrange

/-- A message from which both servers take one job is plain. -/
theorem plain_of_both {job : Job} (hrequest : request unicode (Utf8.encode message) = .ok job)
    (hscan : sscanf overflow (Utf8.encode message) = some job) : Plain unicode message := by
  obtain ⟨number, tail, hfields, hsolid, hends, hint⟩ := (request_eq_ok_iff unicode).mp hrequest
  obtain ⟨rest, z, more, hblanks, hnumber, hseconds⟩ := (sscanf_eq_some_iff overflow).mp hscan
  rw [cString_encode_of_not_mem hascii hnul] at hblanks
  have hfit : stored overflow z = z :=
    if_pos (hrange job.task z (wordNumber?_eq_some_iff.mpr ⟨rest, more, hblanks, hnumber⟩))
  -- the second fields are the same, since a number begins with no white space
  have hstarts := (number?_isSome_iff rest).mp (by rw [hnumber]; rfl)
  rw [skip_eq_self hblanks.not_space_head] at hstarts
  have hspaces : Fields isSpace message job.task rest :=
    hblanks.mono (fun _ => isSpace_of_isBlank) hfields.solid hstarts.head
  obtain ⟨-, rfl⟩ := hspaces.unique hfields
  have hnumascii : ∀ c ∈ number, c.toNat < 128 := fun c hc =>
    hascii c (hfields.mem_rest (List.mem_append_left tail hc))
  rw [hseconds, hfit] at hint
  have hplain := (number?_eq_int?_iff unicode hnumascii hsolid hends hint).mp ⟨more, hnumber⟩
  refine ⟨job.task, number, tail, hblanks, hfields.solid, hsolid, hends, ?_⟩
  rcases hplain with hnumeral | rfl
  · exact Or.inl hnumeral
  · exact Or.inr hint

/-- Both servers take one job from a plain message. -/
theorem both_of_plain (h : Plain unicode message) :
    ∃ job, request unicode (Utf8.encode message) = .ok job ∧
      sscanf overflow (Utf8.encode message) = some job := by
  obtain ⟨task, number, tail, hblanks, htask, hsolid, hends, hplain⟩ := h
  obtain ⟨z, hint, hplain⟩ : ∃ z, int? unicode number = some z ∧ (Numeral number ∨ z = 0) := by
    rcases hplain with hnumeral | hzero
    · obtain ⟨z, hz⟩ := hnumeral.int? hsolid unicode
      exact ⟨z, hz, Or.inl hnumeral⟩
    · exact ⟨0, hzero, Or.inr rfl⟩
  have hne : number ≠ [] := by
    rintro rfl
    cases hint
  have hnumascii : ∀ c ∈ number, c.toNat < 128 := fun c hc =>
    hascii c (hblanks.mem_rest (List.mem_append_left tail hc))
  obtain ⟨more, hnumber⟩ := (number?_eq_int?_iff unicode hnumascii hsolid hends hint).mpr hplain
  have hfit : z = stored overflow z :=
    (if_pos (hrange task z (wordNumber?_eq_some_iff.mpr ⟨_, more, hblanks, hnumber⟩))).symm
  have hspaces : Fields isSpace message task (number ++ tail) :=
    hblanks.mono (fun _ => isSpace_of_isBlank) htask (head?_append hne hsolid)
  rw [← cString_encode_of_not_mem hascii hnul] at hblanks
  exact ⟨⟨task, z⟩, (request_eq_ok_iff unicode).mpr ⟨number, tail, hspaces, hsolid, hends, hint⟩,
    (sscanf_eq_some_iff overflow).mpr ⟨number ++ tail, z, more, hblanks, hnumber, hfit⟩⟩

end Messages

/-! ## Agreement -/

theorem recv_whole {message : List Char} (hascii : ∀ c ∈ message, c.toNat < 128) {size : ℕ}
    (hsize : message.length ≤ size) :
    recv size [Utf8.encode message] = Utf8.encode message := by
  rw [recv, List.headD_cons, List.take_of_length_le]
  rw [Utf8.length_encode_ascii hascii]
  exact hsize

/-- **The servers agree on a message exactly when** it is plain, or has neither the two fields that
`sscanf` wants nor the two words that Python wants. -/
theorem servers_agree_iff (unicode : Unicode) (overflow : ℤ → ℤ) {message : List Char}
    (hlength : 1 ≤ message.length ∧ message.length ≤ 1023)
    (hascii : ∀ c ∈ message, c.toNat < 128) (hnul : '\x00' ∉ message)
    (hrange : ∀ task number, wordNumber? message = some (task, number) → IntRange number) :
    actsOn (handleClient unicode [Utf8.encode message])
        = actsOn (handleClientC overflow [Utf8.encode message]) ↔
      (¬ Scanned message ∧ ¬ Tokenised unicode message) ∨ Plain unicode message := by
  rw [actsOn_handleClient, actsOn_handleClientC, recv_whole hascii (by omega),
    recv_whole hascii (by rw [bufferSize]; omega), ← request_isOk_iff unicode,
    ← sscanf_isSome_iff overflow hascii hnul]
  have hboth : Plain unicode message ↔ ∃ job, request unicode (Utf8.encode message) = .ok job ∧
      sscanf overflow (Utf8.encode message) = some job :=
    ⟨both_of_plain unicode overflow hascii hnul hrange, fun ⟨job, hrequest, hscan⟩ =>
      plain_of_both unicode overflow hascii hnul hrange hrequest hscan⟩
  rw [hboth]
  cases request unicode (Utf8.encode message) with
  | error e =>
      cases sscanf overflow (Utf8.encode message) with
      | none => simp [Except.toOption]
      | some job => simp [Except.toOption]
  | ok job =>
      cases sscanf overflow (Utf8.encode message) with
      | none => simp [Except.toOption]
      | some job' => simp [Except.toOption, eq_comm]

theorem servers_agree_iff_one :
    actsOn (handleClient .ascii [Utf8.encode "Task1 3".toList])
      = actsOn (handleClientC id [Utf8.encode "Task1 3".toList]) := by
  have hscan : wordNumber? "Task1 3".toList = some ("Task1".toList, 3) := by decide
  have hrange : ∀ task number, wordNumber? "Task1 3".toList = some (task, number) →
      IntRange number := by
    intro task number h
    rw [hscan] at h
    rw [← (Prod.mk.inj (Option.some.inj h)).2]
    decide
  have hfields : Fields isBlank "Task1 3".toList "Task1".toList "3".toList :=
    @Fields.of_blank isBlank "Task1".toList "3".toList rfl (by decide) (by decide) (by decide)
  have hplain : Plain .ascii "Task1 3".toList :=
    ⟨"Task1".toList, "3".toList, [], hfields, by decide, by decide, nofun, Or.inl (by decide)⟩
  exact (servers_agree_iff .ascii id (by decide) (by decide) (by decide) hrange).mpr (Or.inr hplain)

/-- The C server takes five seconds from this message, and the Python server refuses it. -/
theorem servers_disagree :
    ¬ ∀ (unicode : Unicode) (overflow : ℤ → ℤ) (message : List Char),
      (1 ≤ message.length ∧ message.length ≤ 1023) → (∀ c ∈ message, c.toNat < 128) →
      '\x00' ∉ message →
      (∀ task number, wordNumber? message = some (task, number) → IntRange number) →
        actsOn (handleClient unicode [Utf8.encode message])
          = actsOn (handleClientC overflow [Utf8.encode message]) := by
  intro h
  have hscan : wordNumber? "Task1 5x".toList = some ("Task1".toList, 5) := by decide
  have hagree := h .ascii id "Task1 5x".toList (by decide) (by decide) (by decide) (by
    intro task number hnumber
    rw [hscan] at hnumber
    rw [← (Prod.mk.inj (Option.some.inj hnumber)).2]
    decide)
  have hpython : request .ascii (Utf8.encode "Task1 5x".toList) = .error .valueError := by
    rw [request, Utf8.decode_encode]
    rfl
  rw [actsOn_handleClient, actsOn_handleClientC, recv_whole (by decide) (by decide),
    recv_whole (by decide) (by decide), hpython] at hagree
  have hc : sscanf id (Utf8.encode "Task1 5x".toList) = some ⟨"Task1".toList, 5⟩ := by decide
  rw [hc] at hagree
  cases hagree

end Tasks
