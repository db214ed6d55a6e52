import DistWorkshops.Lib.Decimal
import DistWorkshops.Lib.Dict
import DistWorkshops.Webhook.Ingestion

/-!
# The mock without a schema

The handler of `wa_mock_service.py`. It reads fields with `get` and checks none, and for an object
no field can be missing or of a wrong type that way. But what `json.loads` returns has to be an
object in the first place, and the customer id has to be hashable to be looked up: these are the two
places where the handler raises.

Times are in microseconds from `START`. From outside come `json.loads` and the draws of
`customer_last_seen`. What the handler prints, less the record of the attempt, is left out.
-/

set_option autoImplicit false

namespace Webhook.WaMock

open Json

/-! ## Customers -/

def simulatedNow : ℤ := 24 * 3600 * 1000000

/-- `WINDOW`, 24 hours. -/
def window : ℤ := 24 * 3600 * 1000000

/-- `CUSTOMERS`. -/
def customers : ℕ := 500

/-- A number in decimal, padded with zeros, as the formats `04d` and `06d` write it. -/
def padded (width n : ℕ) : Str :=
  ((Decimal.digits n).leftpad width '0').map fun c => ⟨c.toNat, toNat_lt c⟩

/-- The last message of each customer; `draws` are the drawn `timedelta`s. -/
def customerLastSeen (draws : ℕ → ℤ) : Dict Str ℤ :=
  Dict.ofPairs ((List.range customers).map fun index =>
    (text "c-" ++ padded 4 index, simulatedNow - draws index))

/-! ## The handler -/

structure Mock (Body : Type) where
  loads : Body → Except LoadsError Json
  draws : ℕ → ℤ

/-- `d.get(key)`, for a dictionary whose keys are strings: a list or a dictionary is not hashable,
and no other value is equal to a string. -/
def getKey (d : Dict Str ℤ) (key : Json) : Except PyError (Option ℤ) :=
  match key with
  | .arr _ | .obj _ => .error .typeError
  | .str s => .ok (d.get? s)
  | _ => .ok none

/-- `message.get(key)`; only a dictionary has the method. -/
def getField (message : Json) (key : Str) : Except PyError Json :=
  match message with
  | .obj entries => .ok ((entries.lookup key).getD .null)
  | _ => .error .attributeError

/-- What the handler answers and the record it logs. -/
structure Handled where
  answer : Answer
  record : Option Json

def invalidJson (error : Str) : Json :=
  .obj [(text "error", .obj [(text "message", .str (text "invalid JSON: " ++ error))])]

/-- `messageId` is what `next(message_ids)` returned. -/
def sent (messageId : ℕ) : Json :=
  .obj [(text "status", .str (text "sent")),
    (text "message_id", .str (text "wamid." ++ padded 6 messageId))]

def errorCode : ℤ := 131047

def reEngagement : Json :=
  .obj [(text "error", .obj [(text "code", .int errorCode),
    (text "message", .str (text "Re-engagement message"))])]

/-- The record of an attempt. -/
def attempt (message customerId : Json) (statusCode : ℕ) (errorCode : Json) :
    Except PyError Json := do
  let kind ← getField message (text "kind")
  let inReplyTo ← getField message (text "in_reply_to")
  let body ← getField message (text "body")
  let fencingMeta ← getField message (text "fencing_meta")
  return .obj [(text "customer_id", customerId), (text "kind", kind),
    (text "in_reply_to", inReplyTo), (text "body", body), (text "fencing_meta", fencingMeta),
    (text "http_status", .int statusCode), (text "error_code", errorCode)]

section Handlers

variable {Body : Type} (mock : Mock Body)

def windowIsOpen (customerId : Json) : Except PyError Bool := do
  let lastMessage ← getKey (customerLastSeen mock.draws) customerId
  return match lastMessage with
    | none => false
    | some lastMessage => decide (simulatedNow ≤ lastMessage + window)

/-- The handler after it has read the body, as a step on `messageIds`, the next number of
`message_ids`. -/
def messages (messageIds : ℕ) (raw : Body) : ℕ × Except PyError Handled :=
  match mock.loads raw with
  | .error (.valueError error) => (messageIds, .ok ⟨⟨400, invalidJson error⟩, none⟩)
  | .error (.other e) => (messageIds, .error e)
  | .ok message =>
      match getField message (text "customer_id") with
      | .error e => (messageIds, .error e)
      | .ok customerId =>
          match windowIsOpen mock customerId with
          | .error e => (messageIds, .error e)
          | .ok true => (messageIds + 1, (attempt message customerId 200 .null).map fun record =>
              ⟨⟨200, sent messageIds⟩, some record⟩)
          | .ok false => (messageIds, (attempt message customerId 400 (.int errorCode)).map
              fun record => ⟨⟨400, reEngagement⟩, some record⟩)

end Handlers

/-! ## Which requests are answered -/

/-- A value that can be the key of a dictionary. -/
def Hashable (value : Json) : Prop :=
  (∀ items, value ≠ .arr items) ∧ ∀ entries, value ≠ .obj entries

theorem getKey_ok_iff (d : Dict Str ℤ) (key : Json) :
    (∃ found, getKey d key = .ok found) ↔ Hashable key := by
  cases key with
  | arr items => exact iff_of_false (fun ⟨_, h⟩ => by cases h) fun h => h.1 items rfl
  | obj entries => exact iff_of_false (fun ⟨_, h⟩ => by cases h) fun h => h.2 entries rfl
  | _ => exact iff_of_true ⟨_, rfl⟩ ⟨fun _ => nofun, fun _ => nofun⟩

theorem getField_of_no_object {message : Json} (hobj : ∀ entries, message ≠ .obj entries)
    (key : Str) : getField message key = .error .attributeError := by
  cases message with
  | obj entries => exact absurd rfl (hobj entries)
  | _ => rfl

/-- The record of an object is always there. -/
theorem attempt_obj (entries : List (Str × Json)) (customerId : Json) (statusCode : ℕ)
    (errorCode : Json) :
    ∃ record, attempt (.obj entries) customerId statusCode errorCode = .ok record := ⟨_, rfl⟩

section Answers

variable {Body : Type} (mock : Mock Body) (messageIds : ℕ)

theorem windowIsOpen_ok_iff (customerId : Json) :
    (∃ isOpen, windowIsOpen mock customerId = .ok isOpen) ↔ Hashable customerId := by
  rw [← getKey_ok_iff (customerLastSeen mock.draws), windowIsOpen]
  cases getKey (customerLastSeen mock.draws) customerId with
  | error e => exact iff_of_false (fun ⟨_, h⟩ => by cases h) (fun ⟨_, h⟩ => by cases h)
  | ok found => exact iff_of_true ⟨_, rfl⟩ ⟨found, rfl⟩

/-- Once the window is looked up, an object is answered, and its number used up if it is open. -/
theorem messages_of_open {raw : Body} {entries : List (Str × Json)} {isOpen : Bool}
    (hloads : mock.loads raw = .ok (.obj entries))
    (hopen : windowIsOpen mock ((entries.lookup (text "customer_id")).getD .null) = .ok isOpen) :
    ∃ record, messages mock messageIds raw =
      if isOpen then (messageIds + 1, .ok ⟨⟨200, sent messageIds⟩, some record⟩)
      else (messageIds, .ok ⟨⟨400, reEngagement⟩, some record⟩) := by
  simp only [messages, hloads, getField, hopen]
  cases isOpen with
  | true =>
      obtain ⟨record, hrecord⟩ := attempt_obj entries
        ((entries.lookup (text "customer_id")).getD .null) 200 .null
      simp only [hrecord]
      exact ⟨record, rfl⟩
  | false =>
      obtain ⟨record, hrecord⟩ := attempt_obj entries
        ((entries.lookup (text "customer_id")).getD .null) 400 (.int errorCode)
      simp only [hrecord]
      exact ⟨record, rfl⟩

/-- The handler returns an answer with status 200 or 400. -/
def Answers (raw : Body) : Prop :=
  ∃ handled, (messages mock messageIds raw).2 = .ok handled ∧
    (handled.answer.statusCode = 200 ∨ handled.answer.statusCode = 400)

/-- An object is answered exactly when its customer id is hashable; a missing one is `None`. -/
theorem answers_obj_iff {raw : Body} {entries : List (Str × Json)}
    (hloads : mock.loads raw = .ok (.obj entries)) :
    Answers mock messageIds raw ↔
      Hashable ((entries.lookup (text "customer_id")).getD .null) := by
  rw [← windowIsOpen_ok_iff mock, Answers]
  cases hopen : windowIsOpen mock ((entries.lookup (text "customer_id")).getD .null) with
  | error e =>
      refine iff_of_false ?_ (fun ⟨_, h⟩ => by cases h)
      rintro ⟨handled, hhandled, -⟩
      simp only [messages, hloads, getField, hopen] at hhandled
      cases hhandled
  | ok isOpen =>
      refine iff_of_true ?_ ⟨isOpen, rfl⟩
      obtain ⟨record, hmessages⟩ := messages_of_open mock messageIds hloads hopen
      rw [hmessages]
      cases isOpen with
      | true => exact ⟨_, rfl, Or.inl rfl⟩
      | false => exact ⟨_, rfl, Or.inr rfl⟩

/-- A customer id that is missing is `None`, which is hashable. -/
theorem hashable_getD_iff (found : Option Json) :
    Hashable (found.getD .null) ↔ ∀ customerId, found = some customerId → Hashable customerId := by
  cases found with
  | none => exact iff_of_true ⟨fun _ => nofun, fun _ => nofun⟩ nofun
  | some customerId =>
      constructor
      · intro h customerId' hsome
        rw [← Option.some.inj hsome]
        exact h
      · exact fun h => h customerId rfl

/-- A body that is no JSON is answered. -/
theorem answers_of_valueError {raw : Body} {error : Str}
    (hloads : mock.loads raw = .error (.valueError error)) : Answers mock messageIds raw := by
  refine ⟨⟨⟨400, invalidJson error⟩, none⟩, ?_, Or.inr rfl⟩
  simp only [messages, hloads]

theorem not_answers_of_other {raw : Body} {e : PyError}
    (hloads : mock.loads raw = .error (.other e)) : ¬ Answers mock messageIds raw := by
  rintro ⟨handled, hhandled, -⟩
  simp only [messages, hloads] at hhandled
  cases hhandled

/-- A value without `get` is not answered. -/
theorem not_answers_of_no_object {raw : Body} {message : Json}
    (hloads : mock.loads raw = .ok message) (hobj : ∀ entries, message ≠ .obj entries) :
    ¬ Answers mock messageIds raw := by
  rintro ⟨handled, hhandled, -⟩
  simp only [messages, hloads, getField_of_no_object hobj] at hhandled
  cases hhandled

/-- **Which requests the mock answers**: a body that is no JSON, and an object without a customer
id or with one that is not an array or an object. -/
theorem messages_answers_iff (raw : Body) :
    Answers mock messageIds raw ↔
      (∃ error, mock.loads raw = .error (.valueError error)) ∨
        ∃ entries, mock.loads raw = .ok (.obj entries) ∧
          ∀ customerId, entries.lookup (text "customer_id") = some customerId →
            Hashable customerId := by
  cases hloads : mock.loads raw with
  | error e =>
      cases e with
      | valueError error =>
          exact iff_of_true (answers_of_valueError mock messageIds hloads) (Or.inl ⟨error, rfl⟩)
      | other e =>
          refine iff_of_false (not_answers_of_other mock messageIds hloads) ?_
          rintro (⟨error, h⟩ | ⟨entries, h, -⟩)
          · cases h
          · cases h
  | ok message =>
      by_cases hobj : ∃ entries, message = .obj entries
      · obtain ⟨entries, rfl⟩ := hobj
        rw [answers_obj_iff mock messageIds hloads, hashable_getD_iff]
        constructor
        · exact fun h => Or.inr ⟨entries, rfl, h⟩
        · rintro (⟨error, h⟩ | ⟨entries', h, hall⟩)
          · cases h
          · cases h
            exact hall
      · refine iff_of_false ?_ ?_
        · exact not_answers_of_no_object mock messageIds hloads fun entries h => hobj ⟨entries, h⟩
        · rintro (⟨error, h⟩ | ⟨entries, h, -⟩)
          · cases h
          · exact hobj ⟨entries, Except.ok.inj h⟩

end Answers

/-- `json.loads` on the three bodies used here. -/
def sampleMock : Mock String where
  loads raw :=
    if raw = "[]" then .ok (.arr [])
    else if raw = "\x7b\"customer_id\": []\x7d" then .ok (.obj [(text "customer_id", .arr [])])
    else if raw = "\x7b\x7d" then .ok (.obj [])
    else .error (.valueError (text "Expecting value: line 1 column 1 (char 0)"))
  draws _ := 0

/-- An empty array has no `get`, and an empty array as the customer id is not hashable. -/
theorem messages_raises :
    (messages sampleMock 1 "[]").2 = .error .attributeError ∧
      (messages sampleMock 1 "\x7b\"customer_id\": []\x7d").2 = .error .typeError ∧
      ¬ Answers sampleMock 1 "[]" ∧ ¬ Answers sampleMock 1 "\x7b\"customer_id\": []\x7d" := by
  have harray : (messages sampleMock 1 "[]").2 = .error .attributeError := rfl
  have hcustomer : (messages sampleMock 1 "\x7b\"customer_id\": []\x7d").2 = .error .typeError :=
    rfl
  refine ⟨harray, hcustomer, ?_, ?_⟩
  · rintro ⟨handled, hhandled, -⟩
    rw [harray] at hhandled
    cases hhandled
  · rintro ⟨handled, hhandled, -⟩
    rw [hcustomer] at hhandled
    cases hhandled

end Webhook.WaMock
