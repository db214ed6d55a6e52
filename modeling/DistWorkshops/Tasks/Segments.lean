import DistWorkshops.Tasks.Server

/-!
# Messages in segments

TCP delivers the bytes of a message in segments, and both task servers take the first segment for
the message. A proper prefix of a message may be a message itself, with fewer digits in its number;
then the servers work on the task for too short a time and nothing is reported.
-/

set_option autoImplicit false

namespace Tasks

open Text Decimal Scanf

/-- What a client may send: a task, a blank, and a number that an `int` can hold. -/
structure Message where
  task : List Char
  digits : List Char
  task_ne_nil : task ≠ []
  task_ascii : ∀ c ∈ task, c.toNat < 128
  task_unbroken : ∀ c ∈ task, isBlank c = false
  digits_ne_nil : digits ≠ []
  digits_isDigit : ∀ c ∈ digits, c.isDigit = true
  seconds_lt : Nat.ofDigitChars 10 digits 0 < 2 ^ 31
  length_le : (task ++ ' ' :: digits).length ≤ 1023

namespace Message

variable (message : Message)

def text : List Char := message.task ++ ' ' :: message.digits

def seconds : ℕ := Nat.ofDigitChars 10 message.digits 0

def job : Job := ⟨message.task, message.seconds⟩

/-- The bytes of the message in consecutive segments. -/
structure Delivery (segments : List Bytes) : Prop where
  flatten_eq : segments.flatten = Utf8.encode message.text
  full : ∀ segment ∈ segments, segment ≠ []

theorem text_ascii : ∀ c ∈ message.text, c.toNat < 128 := by
  intro c hc
  rcases List.mem_append.mp hc with hc | hc
  · exact message.task_ascii c hc
  · rcases List.mem_cons.mp hc with rfl | hc
    · decide
    · have := (isDigit_iff c).mp (message.digits_isDigit c hc)
      omega

theorem digits_take {k : ℕ} (hk : 0 < k) :
    message.digits.take k ≠ [] ∧ ∀ c ∈ message.digits.take k, c.isDigit = true := by
  refine ⟨?_, fun c hc => message.digits_isDigit c (List.mem_of_mem_take hc)⟩
  have hpos : 0 < message.digits.length := List.length_pos_iff.mpr message.digits_ne_nil
  rw [← List.length_pos_iff, List.length_take]
  omega

end Message

/-! ## Prefixes -/

section Prefixes

variable {message : Message} {segments : List Bytes}

/-- The first segment encodes a prefix of the message. -/
theorem first_segment (h : message.Delivery segments) :
    segments.headD [] = Utf8.encode (message.text.take (segments.headD []).length) := by
  rw [← Utf8.take_encode_ascii message.text_ascii, ← h.flatten_eq]
  cases segments with
  | nil => rfl
  | cons segment segments =>
      rw [List.headD_cons, List.flatten_cons, List.take_left]

theorem first_segment_length_le (h : message.Delivery segments) :
    (segments.headD []).length ≤ message.text.length := by
  have hlength := congrArg List.length h.flatten_eq
  rw [Utf8.length_encode_ascii message.text_ascii] at hlength
  cases segments with
  | nil => exact Nat.zero_le _
  | cons segment segments =>
      rw [List.flatten_cons, List.length_append] at hlength
      show segment.length ≤ message.text.length
      omega

theorem recv_eq (h : message.Delivery segments) {size : ℕ} (hsize : 1023 ≤ size) :
    recv size segments = Utf8.encode (message.text.take (segments.headD []).length) := by
  rw [← first_segment h, recv, List.take_of_length_le]
  exact ((first_segment_length_le h).trans message.length_le).trans hsize

/-- A prefix with a digit in it. -/
theorem take_text {n : ℕ} (hn : message.task.length + 2 ≤ n) :
    ∃ k, 0 < k ∧ n = message.task.length + 1 + k ∧
      message.text.take n = message.task ++ ' ' :: message.digits.take k := by
  refine ⟨n - message.task.length - 1, by omega, by omega, ?_⟩
  rw [Message.text, List.take_append, List.take_of_length_le (by omega)]
  have hsucc : n - message.task.length = n - message.task.length - 1 + 1 := by omega
  rw [hsucc, List.take_succ_cons]
  rfl

/-- Fewer digits have another value, unless the value is zero. -/
theorem value_take_iff {k : ℕ} :
    Nat.ofDigitChars 10 (message.digits.take k) 0 = message.seconds ↔
      message.digits.length ≤ k ∨ message.seconds = 0 := by
  rcases Nat.lt_or_ge k message.digits.length with hlt | hge
  · have hrest : (message.digits.drop k).map (fun c => c.toNat - '0'.toNat) ≠ [] := by
      intro hnil
      have hlength := congrArg List.length hnil
      rw [List.length_map, List.length_drop, List.length_nil] at hlength
      omega
    have hvalue := @value_append_eq_iff ((message.digits.take k).map fun c => c.toNat - '0'.toNat) _
      hrest
    rw [← List.map_append, List.take_append_drop, value_of_isDigit, value_of_isDigit] at hvalue
    rw [eq_comm, Message.seconds, hvalue]
    constructor
    · exact Or.inr
    · rintro (hle | hzero)
      · omega
      · exact hzero
  · rw [List.take_of_length_le hge]
    exact ⟨fun _ => Or.inl hge, fun _ => rfl⟩

end Prefixes

/-! ## What the servers read -/

section Read

variable {task digits : List Char}

theorem request_prefix (unicode : Unicode) (hne : task ≠ []) (htask : Solid task)
    (hdne : digits ≠ []) (hdigits : ∀ c ∈ digits, c.isDigit = true) :
    request unicode (Utf8.encode (task ++ ' ' :: digits))
      = .ok ⟨task, Nat.ofDigitChars 10 digits 0⟩ := by
  have hsolid : Solid digits := solid_of_isDigit hdigits
  rw [request_eq_ok_iff]
  refine ⟨digits, [], ?_, hsolid, nofun, int?_of_isDigit unicode hdne hdigits⟩
  rw [List.append_nil]
  exact Fields.of_blank rfl hne htask hsolid

theorem sscanf_prefix (overflow : ℤ → ℤ) (hne : task ≠ []) (hascii : ∀ c ∈ task, c.toNat < 128)
    (htask : ∀ c ∈ task, isBlank c = false) (hnul : '\x00' ∉ task) (hdne : digits ≠ [])
    (hdigits : ∀ c ∈ digits, c.isDigit = true) (hrange : Nat.ofDigitChars 10 digits 0 < 2 ^ 31) :
    sscanf overflow (Utf8.encode (task ++ ' ' :: digits))
      = some ⟨task, Nat.ofDigitChars 10 digits 0⟩ := by
  have hsolid : ∀ c ∈ digits, isBlank c = false := fun c hc =>
    not_isBlank_of_not_isSpace (not_isSpace_of_isDigit (hdigits c hc))
  have hstring : cString (Utf8.encode (task ++ ' ' :: digits)) = task ++ ' ' :: digits := by
    apply cString_encode_of_not_mem
    · intro c hc
      rcases List.mem_append.mp hc with hc | hc
      · exact hascii c hc
      · rcases List.mem_cons.mp hc with rfl | hc
        · decide
        · have := (isDigit_iff c).mp (hdigits c hc)
          omega
    · rw [List.mem_append, List.mem_cons, not_or, not_or]
      exact ⟨hnul, by decide, fun hc => absurd (hdigits _ hc) (by decide)⟩
  have hunsigned : unsigned (skip digits) = (false, digits ++ []) := by
    obtain ⟨d, ds, rfl⟩ := List.exists_cons_of_ne_nil hdne
    rw [skip_eq_self fun c hc => hsolid c (List.mem_of_mem_head? hc), List.append_nil]
    exact unsigned_of_isDigit ds (hdigits d List.mem_cons_self)
  have hstored : stored overflow (Nat.ofDigitChars 10 digits 0) = Nat.ofDigitChars 10 digits 0 := by
    apply if_pos
    unfold IntRange
    omega
  rw [sscanf_eq_some_iff, hstring]
  exact ⟨digits, _, [], Fields.of_blank rfl hne htask hsolid,
    number?_run hunsigned hdne hdigits nofun, hstored.symm⟩

end Read

/-! ## Segmentation -/

section Segmentation

variable {message : Message} {n : ℕ}

/-- A prefix from which the Python server takes the job reaches into the number, and has its
value. -/
theorem reach_of_request {unicode : Unicode} {seconds : ℤ}
    (h : request unicode (Utf8.encode (message.text.take n)) = .ok ⟨message.task, seconds⟩) :
    Solid message.task ∧ message.task.length + 2 ≤ n ∧
      ∃ k, 0 < k ∧ n = message.task.length + 1 + k ∧
        seconds = Nat.ofDigitChars 10 (message.digits.take k) 0 := by
  obtain ⟨number, tail, hfields, -, -, hint⟩ := (request_eq_ok_iff unicode).mp h
  have hsolid : Solid message.task := hfields.solid
  have hreach : message.task.length + 2 ≤ n := by
    have hfield : message.task.length + 1 + (number ++ tail).length
        ≤ (message.text.take n).length := hfields.length_le
    have hnumber : 0 < number.length := List.length_pos_iff.mpr (by rintro rfl; cases hint)
    rw [List.length_append, List.length_take] at hfield
    omega
  obtain ⟨k, hk, hn, htake⟩ := take_text hreach
  have hdigits := message.digits_take hk
  rw [htake, request_prefix unicode message.task_ne_nil hsolid hdigits.1 hdigits.2] at h
  exact ⟨hsolid, hreach, k, hk, hn, (congrArg Job.seconds (Except.ok.inj h)).symm⟩

/-- A task that the C server takes from a prefix has no NUL. -/
theorem not_nul_of_sscanf {overflow : ℤ → ℤ} {seconds : ℤ}
    (h : sscanf overflow (Utf8.encode (message.text.take n)) = some ⟨message.task, seconds⟩) :
    ∀ c ∈ message.task, c ≠ '\x00' := by
  obtain ⟨rest, -, -, hfields, -, -⟩ := (sscanf_eq_some_iff overflow).mp h
  intro c hc
  have hmem := hfields.mem hc
  rw [cString_encode fun d hd => message.text_ascii d (List.mem_of_mem_take hd)] at hmem
  have hplain := List.mem_takeWhile_imp hmem
  exact of_decide_eq_true hplain

/-- A prefix with a digit in it whose number has the value of the whole one. -/
theorem acts_on_prefix (unicode : Unicode) (overflow : ℤ → ℤ)
    (htask : ∀ c ∈ message.task, c ≠ '\x00' ∧ isSpace c = false) {k : ℕ} (hk : 0 < k)
    (hvalue : Nat.ofDigitChars 10 (message.digits.take k) 0 = message.seconds) :
    request unicode (Utf8.encode (message.task ++ ' ' :: message.digits.take k))
        = .ok message.job ∧
      sscanf overflow (Utf8.encode (message.task ++ ' ' :: message.digits.take k))
        = some message.job := by
  have hdigits := message.digits_take hk
  have hrange : Nat.ofDigitChars 10 (message.digits.take k) 0 < 2 ^ 31 := by
    rw [hvalue]
    exact message.seconds_lt
  have hnul : '\x00' ∉ message.task := fun hc => (htask _ hc).1 rfl
  have hrequest := request_prefix unicode message.task_ne_nil (fun c hc => (htask c hc).2)
    hdigits.1 hdigits.2
  have hscan := sscanf_prefix overflow message.task_ne_nil message.task_ascii
    message.task_unbroken hnul hdigits.1 hdigits.2 hrange
  rw [hrequest, hscan, hvalue]
  exact ⟨rfl, rfl⟩

end Segmentation

/-- **Both servers act on the message that was sent exactly when** the task is one word of plain
characters for both of them, and the first segment is the whole message or holds a digit of a
number that is zero. -/
theorem acts_on_message_iff (unicode : Unicode) (overflow : ℤ → ℤ) {message : Message}
    {segments : List Bytes} (h : message.Delivery segments) :
    (actsOn (handleClient unicode segments) = [message.job] ∧
        actsOn (handleClientC overflow segments) = [message.job]) ↔
      (∀ c ∈ message.task, c ≠ '\x00' ∧ isSpace c = false) ∧
        ((segments.headD []).length = message.text.length ∨
          message.seconds = 0 ∧ message.task.length + 2 ≤ (segments.headD []).length) := by
  have hle := first_segment_length_le h
  have hlength : message.text.length = message.task.length + 1 + message.digits.length := by
    rw [Message.text, List.length_append, List.length_cons]
    omega
  rw [actsOn_handleClient_iff, actsOn_handleClientC_iff, recv_eq h (by decide),
    recv_eq h (by decide)]
  constructor
  · rintro ⟨hrequest, hscan⟩
    obtain ⟨hsolid, hreach, k, -, hn, hseconds⟩ := reach_of_request hrequest
    have hnul := not_nul_of_sscanf hscan
    refine ⟨fun c hc => ⟨hnul c hc, hsolid c hc⟩, ?_⟩
    rcases value_take_iff.mp (Int.ofNat_inj.mp hseconds.symm) with hall | hzero
    · exact Or.inl (by omega)
    · exact Or.inr ⟨hzero, hreach⟩
  · rintro ⟨htask, hfirst⟩
    -- in both cases the first segment reaches into the number, whose value it does not change
    have hreach : message.task.length + 2 ≤ (segments.headD []).length := by
      have hpos : 0 < message.digits.length := List.length_pos_iff.mpr message.digits_ne_nil
      rcases hfirst with hwhole | ⟨-, hreach⟩
      · omega
      · exact hreach
    obtain ⟨k, hk, hn, htake⟩ := take_text hreach
    have hvalue : Nat.ofDigitChars 10 (message.digits.take k) 0 = message.seconds := by
      rw [value_take_iff]
      rcases hfirst with hwhole | ⟨hzero, -⟩
      · exact Or.inl (by omega)
      · exact Or.inr hzero
    rw [htake]
    exact acts_on_prefix unicode overflow htask hk hvalue

/-- What `client_task` of `client_multithreading.py` sends with a seventh client; the program itself
starts three. -/
def taskSeven : Message where
  task := "Task7".toList
  digits := "15".toList
  task_ne_nil := by decide
  task_ascii := by decide
  task_unbroken := by decide
  digits_ne_nil := by decide
  digits_isDigit := by decide
  seconds_lt := by decide
  length_le := by decide

theorem acts_on_message_iff_seven :
    actsOn (handleClient .ascii [Utf8.encode taskSeven.text]) = [⟨"Task7".toList, 15⟩] ∧
      actsOn (handleClientC id [Utf8.encode taskSeven.text]) = [⟨"Task7".toList, 15⟩] := by
  have hdelivery : taskSeven.Delivery [Utf8.encode taskSeven.text] := ⟨by decide, by decide⟩
  exact (acts_on_message_iff .ascii id hdelivery).mpr ⟨by decide, Or.inl (by decide)⟩

/-- The first segment ends between the two digits, and the Python server works for one second. -/
theorem works_too_short :
    ¬ ∀ (unicode : Unicode) (overflow : ℤ → ℤ) (message : Message) (segments : List Bytes),
      message.Delivery segments →
        actsOn (handleClient unicode segments) = [message.job] ∧
          actsOn (handleClientC overflow segments) = [message.job] := by
  intro h
  have hdelivery : taskSeven.Delivery [Utf8.encode "Task7 1".toList, Utf8.encode "5".toList] :=
    ⟨by decide, by decide⟩
  have hrequest := (actsOn_handleClient_iff .ascii).mp (h .ascii id taskSeven _ hdelivery).1
  have hread : request .ascii (Utf8.encode ("Task7".toList ++ ' ' :: "1".toList)) = .ok _ :=
    request_prefix .ascii (by decide) (by decide) (by decide) (by decide)
  have hjob := Except.ok.inj (hread.symm.trans hrequest)
  exact absurd (congrArg Job.seconds hjob) (by decide)

end Tasks
