import DistWorkshops.Lib.Scanf
import DistWorkshops.Lib.Utf8
import DistWorkshops.Python

/-!
# The task servers

`handle_client` of `server_multithreading.py`, and `handleClient` of the C file of that name: a
client sends a task and a number of seconds, and the server works on the task for so long. Both
take what one `recv` returns for the whole message. The Python server splits it into words and
turns the second one into a number; the C server reads it with `sscanf`.
-/

set_option autoImplicit false

namespace Tasks

open Text Decimal Scanf

abbrev Bytes := List UInt8

/-- What a server acts on. -/
structure Job where
  task : List Char
  seconds : ℤ
  deriving DecidableEq

/-- Why a message is refused. -/
inductive Refusal where
  | raised (e : PyError)
  | recvFailed
  | malformed (message : List Char)
  deriving DecidableEq

/-- What a thread prints and sends, in order. -/
inductive Event where
  | start
  | task (job : Job)
  | work (job : Job) (i : ℕ)
  | send (response : Bytes)
  | finish (task : List Char)
  | error (reason : Refusal)
  | close
  deriving DecidableEq

/-- The client's bytes arrive in segments, and `recv(size)` returns what there is of the first one;
it returns nothing when the client has closed the connection. -/
def recv (size : ℕ) (segments : List Bytes) : Bytes := (segments.headD []).take size

/-- The simulated task, second by second, and the response. -/
def work (job : Job) (response : Bytes) : List Event :=
  .task job :: (List.range job.seconds.toNat).map (fun i => .work job (i + 1)) ++
    [.send response, .finish job.task]

def completed : List Char := " completed by server".toList

def Event.job? : Event → Option Job
  | .task job => some job
  | _ => none

/-- The jobs a thread acts on. -/
def actsOn (events : List Event) : List Job := events.filterMap Event.job?

theorem actsOn_append (events later : List Event) :
    actsOn (events ++ later) = actsOn events ++ actsOn later :=
  List.filterMap_append

theorem actsOn_work (job : Job) (response : Bytes) : actsOn (work job response) = [job] := by
  have hloop : actsOn ((List.range job.seconds.toNat).map fun i => .work job (i + 1)) = [] := by
    rw [actsOn, List.filterMap_map, List.filterMap_eq_nil_iff]
    exact fun _ _ => rfl
  calc actsOn (work job response)
      = [job] ++ actsOn ((List.range job.seconds.toNat).map fun i => .work job (i + 1)) := by
        rw [work, actsOn_append]
        exact List.append_nil _
    _ = [job] := by rw [hloop, List.append_nil]

/-! ## The Python server -/

def request (unicode : Unicode) (data : Bytes) : Except PyError Job :=
  match Utf8.decode data with
  | none => .error .valueError
  | some message => match split message with
    | task :: number :: _ => match int? unicode number with
      | some seconds => .ok ⟨task, seconds⟩
      | none => .error .valueError
    | _ => .error .indexError

def handleClient (unicode : Unicode) (segments : List Bytes) : List Event :=
  .start :: (match request unicode (recv 1024 segments) with
    | .ok job => work job (Utf8.encode (job.task ++ completed))
    | .error e => [.error (.raised e)]) ++ [.close]

theorem actsOn_handleClient (unicode : Unicode) (segments : List Bytes) :
    actsOn (handleClient unicode segments)
      = (request unicode (recv 1024 segments)).toOption.toList := by
  unfold handleClient
  cases request unicode (recv 1024 segments) with
  | ok job =>
      show actsOn (work job _ ++ [.close]) = [job]
      rw [actsOn_append, actsOn_work]
      rfl
  | error e => rfl

theorem actsOn_handleClient_iff (unicode : Unicode) {segments : List Bytes} {job : Job} :
    actsOn (handleClient unicode segments) = [job] ↔
      request unicode (recv 1024 segments) = .ok job := by
  rw [actsOn_handleClient]
  cases request unicode (recv 1024 segments) with
  | ok job' => simp [Except.toOption]
  | error e => simp [Except.toOption]

/-- **The Python server takes the first two words of a message**, the second of which must be an
integer literal. -/
theorem request_eq_ok_iff (unicode : Unicode) {message : List Char} {job : Job} :
    request unicode (Utf8.encode message) = .ok job ↔
      ∃ number tail, Fields isSpace message job.task (number ++ tail) ∧ Solid number ∧
        Ends isSpace tail ∧ int? unicode number = some job.seconds := by
  rw [request, Utf8.decode_encode]
  constructor
  · intro h
    match hsplit : split message with
    | [] =>
        simp only [hsplit] at h
        cases h
    | [_] =>
        simp only [hsplit] at h
        cases h
    | task :: number :: ws =>
        simp only [hsplit] at h
        obtain ⟨tail, hfields, -, hsolid, hends⟩ := split_eq_cons_cons_iff.mp ⟨ws, hsplit⟩
        cases hint : int? unicode number with
        | none =>
            rw [hint] at h
            cases h
        | some seconds =>
            rw [hint] at h
            obtain rfl := Except.ok.inj h
            exact ⟨number, tail, hfields, hsolid, hends, hint⟩
  · rintro ⟨number, tail, hfields, hsolid, hends, hint⟩
    have hne : number ≠ [] := by
      rintro rfl
      cases hint
    obtain ⟨ws, hsplit⟩ := split_eq_cons_cons_iff.mpr ⟨tail, hfields, hne, hsolid, hends⟩
    simp only [hsplit, hint]

/-! ## The C server -/

def bufferSize : ℕ := 1024

/-- The string in a buffer that ends with a NUL: the bytes before the first one, as characters. -/
def cString (buffer : Bytes) : List Char :=
  (buffer.takeWhile (· ≠ 0)).map fun b => Char.ofNat b.toNat

def bytes (s : List Char) : Bytes := s.map fun c => UInt8.ofNat c.toNat

/-- The numbers of an `int`. -/
def IntRange (z : ℤ) : Prop := -2 ^ 31 ≤ z ∧ z < 2 ^ 31

instance (z : ℤ) : Decidable (IntRange z) := inferInstanceAs (Decidable (_ ∧ _))

section C

-- what `%d` stores for a number that does not fit, on which the C standard says nothing
variable (overflow : ℤ → ℤ)

def stored (z : ℤ) : ℤ := if IntRange z then z else overflow z

/-- `sscanf(buffer, "%s %d", task, &seconds)`. -/
def sscanf (buffer : Bytes) : Option Job :=
  (wordNumber? (cString buffer)).map fun (task, number) => ⟨task, stored overflow number⟩

def handleClientC (segments : List Bytes) : List Event :=
  let buffer := recv (bufferSize - 1) segments
  .start :: (if buffer.isEmpty then [.error .recvFailed]
    else match sscanf overflow buffer with
      | some job => work job ((bytes (job.task ++ completed)).take (bufferSize - 1))
      | none => [.error (.malformed (cString buffer))]) ++ [.close]

theorem actsOn_handleClientC (segments : List Bytes) :
    actsOn (handleClientC overflow segments)
      = (sscanf overflow (recv (bufferSize - 1) segments)).toList := by
  unfold handleClientC
  simp only
  by_cases hempty : (recv (bufferSize - 1) segments).isEmpty = true
  · rw [if_pos hempty, List.isEmpty_iff.mp hempty]
    rfl
  · rw [if_neg hempty]
    cases sscanf overflow (recv (bufferSize - 1) segments) with
    | none => rfl
    | some job =>
        show actsOn (work job _ ++ [.close]) = [job]
        rw [actsOn_append, actsOn_work]
        rfl

theorem actsOn_handleClientC_iff {segments : List Bytes} {job : Job} :
    actsOn (handleClientC overflow segments) = [job] ↔
      sscanf overflow (recv (bufferSize - 1) segments) = some job := by
  rw [actsOn_handleClientC]
  cases sscanf overflow (recv (bufferSize - 1) segments) with
  | none => simp
  | some job' => simp

/-- The string in a buffer that holds an ASCII message. -/
theorem cString_encode {message : List Char} (hascii : ∀ c ∈ message, c.toNat < 128) :
    cString (Utf8.encode message) = message.takeWhile (· ≠ '\x00') := by
  rw [Utf8.encode_ascii hascii, cString]
  induction message with
  | nil => rfl
  | cons c message ih =>
      have hbyte : c.val.toUInt8.toNat = c.toNat := by
        have hc := hascii c List.mem_cons_self
        show c.val.toNat % 256 = c.toNat
        exact Nat.mod_eq_of_lt (by show c.toNat < 256; omega)
      by_cases hnul : c = '\x00'
      · subst hnul
        rfl
      · have hzero : c.val.toUInt8 ≠ 0 := by
          intro hzero
          rw [hzero] at hbyte
          exact hnul (Char.toNat_inj.mp hbyte.symm)
        have hrest := ih fun d hd => hascii d (List.mem_cons_of_mem c hd)
        rw [List.map_cons, List.takeWhile_cons_of_pos, List.takeWhile_cons_of_pos, List.map_cons,
          hrest, hbyte, Char.ofNat_toNat]
        · exact decide_eq_true hnul
        · exact decide_eq_true hzero

theorem cString_encode_of_not_mem {message : List Char} (hascii : ∀ c ∈ message, c.toNat < 128)
    (hnul : '\x00' ∉ message) : cString (Utf8.encode message) = message := by
  rw [cString_encode hascii, List.takeWhile_eq_self_iff]
  intro c hc
  refine decide_eq_true fun h => hnul ?_
  rwa [← h]

/-- **The C server takes the first field of the string and the number that begins the second
one.** -/
theorem sscanf_eq_some_iff {buffer : Bytes} {job : Job} :
    sscanf overflow buffer = some job ↔
      ∃ rest number more, Fields isBlank (cString buffer) job.task rest ∧
        number? rest = some (number, more) ∧ job.seconds = stored overflow number := by
  rw [sscanf, Option.map_eq_some_iff]
  constructor
  · rintro ⟨⟨task, number⟩, hscan, rfl⟩
    obtain ⟨rest, more, hfields, hnumber⟩ := wordNumber?_eq_some_iff.mp hscan
    exact ⟨rest, number, more, hfields, hnumber, rfl⟩
  · rintro ⟨rest, number, more, hfields, hnumber, hseconds⟩
    refine ⟨(job.task, number), wordNumber?_eq_some_iff.mpr ⟨rest, more, hfields, hnumber⟩, ?_⟩
    simp only [← hseconds]

end C

end Tasks
