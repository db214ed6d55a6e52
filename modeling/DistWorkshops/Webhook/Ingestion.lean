import DistWorkshops.Webhook.Schemas
import DistWorkshops.Python
import Mathlib.Data.List.Sort
import Mathlib.Data.List.Lex
import Mathlib.Order.Fin.Basic

/-!
# The ingestion service

The handlers of `ingestion_service.py` and the validation of `validation.py`. A handler after it
has read the body is one step on `sequences`, the counter of each partition. What the module
takes from outside is the `Service`: `json.loads`, the hash behind `partition_for`, the format
checker and the two validators.
-/

set_option autoImplicit false

namespace Webhook

open Json JsonSchema

/-- `PARTITIONS`. -/
abbrev partitions : ℕ := 8

abbrev Partition := Fin partitions

/-- What `json.loads` raises: a `ValueError` with its text, which the handler catches, or
another error. -/
inductive LoadsError where
  | valueError (error : Str)
  | other (error : PyError)

structure Service (Body : Type) where
  loads : Body → Except LoadsError Json
  partitionFor : Json → Except PyError Partition
  check : FormatChecker
  requestValidator : Validator check requestSchema
  responseValidator : Validator check responseSchema

/-! ## Validation -/

/-- `{"path": …, "message": …}`. -/
structure FieldError where
  path : Str
  message : Str

def FieldError.document (error : FieldError) : Json :=
  .obj [(text "path", .str error.path), (text "message", .str error.message)]

def collectErrors {check : FormatChecker} {schema : Schema} (validator : Validator check schema)
    (document : Json) : List FieldError :=
  let errors := (validator.iterErrors document).insertionSort
    fun e e' => e.jsonPath ≤ e'.jsonPath
  errors.map fun e => ⟨e.jsonPath, e.message⟩

/-! ## Ingestion -/

/-- `sequences`, a `defaultdict(int)`: a partition without an entry counts from 0. -/
abbrev Sequences := Partition → ℕ

/-- `sequences[partition] += 1`. -/
def Sequences.bump (sequences : Sequences) (p : Partition) : Sequences :=
  Function.update sequences p (sequences p + 1)

/-- `message[key]`. -/
def getItem (message : Json) (key : Str) : Except PyError Json :=
  match message with
  | .obj entries => match entries.lookup key with
      | some value => .ok value
      | none => .error .keyError
  | _ => .error .typeError

/-- `f"messages.p{partition}"`. -/
def stream (p : Partition) : Str := text "messages.p" ++ text (toString p.val)

def accepted (msgId : Json) (p : Partition) (sequence : ℕ) : Json :=
  .obj [(text "status", .str (text "accepted")), (text "msg_id", msgId),
    (text "partition", .int p.val), (text "stream", .str (stream p)),
    (text "sequence", .int sequence)]

def rejection (errors : List FieldError) : Json :=
  .obj [(text "status", .str (text "rejected")), (text "errors", .arr (errors.map (·.document)))]

/-- An HTTP answer, less its headers. -/
structure Answer where
  statusCode : ℕ
  document : Json

section Handlers

variable {Body : Type} (service : Service Body)

def validateRequest (document : Json) : List FieldError :=
  collectErrors service.requestValidator document

def validateResponse (document : Json) : List FieldError :=
  collectErrors service.responseValidator document

/-- The counter is advanced before `msg_id` is read. -/
def ingest (sequences : Sequences) (message : Json) : Sequences × Except PyError Json :=
  match getItem message (text "customer_id") with
  | .error e => (sequences, .error e)
  | .ok customerId =>
      match service.partitionFor customerId with
      | .error e => (sequences, .error e)
      | .ok p =>
          let sequences := sequences.bump p
          match getItem message (text "msg_id") with
          | .error e => (sequences, .error e)
          | .ok msgId => (sequences, .ok (accepted msgId p (sequences p)))

/-- The end of `webhook`: the answer is checked against the response schema. -/
def checkResponse (answer : Json) (statusCode : ℕ) : Answer :=
  match validateResponse service answer with
  | [] => ⟨statusCode, answer⟩
  | responseErrors => ⟨500, rejection responseErrors⟩

def webhook (sequences : Sequences) (raw : Body) : Sequences × Except PyError Answer :=
  match service.loads raw with
  | .error (.valueError error) =>
      (sequences, .ok ⟨400, rejection [⟨text "$", text "invalid JSON: " ++ error⟩]⟩)
  | .error (.other e) => (sequences, .error e)
  | .ok message =>
      match validateRequest service message with
      | [] =>
          match ingest service sequences message with
          | (sequences, .error e) => (sequences, .error e)
          | (sequences, .ok answer) => (sequences, .ok (checkResponse service answer 200))
      -- a rejection is checked against the response schema as well
      | requestErrors => (sequences, .ok (checkResponse service (rejection requestErrors) 422))

/-- The same work without validation. Nothing is caught here. -/
def controlWebhook (sequences : Sequences) (raw : Body) : Sequences × Except PyError Answer :=
  match service.loads raw with
  | .error (.valueError _) => (sequences, .error .valueError)
  | .error (.other e) => (sequences, .error e)
  | .ok message =>
      match ingest service sequences message with
      | (sequences, .error e) => (sequences, .error e)
      | (sequences, .ok answer) => (sequences, .ok ⟨200, answer⟩)

end Handlers

/-! ## What the pieces do -/

theorem collectErrors_eq_nil {check : FormatChecker} {schema : Schema}
    (validator : Validator check schema) (document : Json) :
    collectErrors validator document = [] ↔ schema.valid check document = true := by
  rw [collectErrors, List.map_eq_nil_iff, ← validator.iterErrors_eq_nil]
  constructor
  · intro h
    exact List.perm_nil.mp (h ▸ (List.perm_insertionSort _ _).symm)
  · intro h
    rw [h]
    rfl

theorem getItem_of_field {message value : Json} {key : Str}
    (h : message.field? key = some value) : getItem message key = .ok value := by
  cases message with
  | obj entries =>
      rw [field?_obj] at h
      simp only [getItem, h]
  | _ => cases h

/-- **The answer of `ingest` meets the response schema** when the `msg_id` is a non-empty
string. -/
theorem accepted_valid {check : FormatChecker} {s : Str} (hne : s ≠ []) (p : Partition)
    {sequence : ℕ} (hpos : 1 ≤ sequence) :
    acceptedSchema.valid check (accepted (.str s) p sequence) = true := by
  have hmsgId : (Schema.all [.type .string, .minLength 1]).valid check (.str s) = true :=
    (nonemptyString_iff _).mpr ⟨s, rfl, hne⟩
  have hpartition : (Schema.all [.type .integer, .minimum 0]).valid check (.int p.val) = true := by
    simp [Schema.valid, validAll, JsonType.has, atLeast]
  have hstream : (Schema.all [.type .string, .minLength 1]).valid check (.str (stream p)) = true :=
    (nonemptyString_iff _).mpr ⟨stream p, rfl, by simp [stream, text]⟩
  have hsequence : (Schema.all [.type .integer, .minimum 1]).valid check (.int sequence)
      = true := by
    simp only [Schema.valid, validAll, JsonType.has, atLeast, Bool.and_true, Bool.true_and,
      decide_eq_true_eq]
    omega
  apply closedObject_of_conforms
  · exact .cons ⟨rfl, beq_self_eq_true _⟩ (.cons ⟨rfl, hmsgId⟩ (.cons ⟨rfl, hpartition⟩
      (.cons ⟨rfl, hstream⟩ (.cons ⟨rfl, hsequence⟩ .nil))))
  · decide
  · exact List.Subset.refl _

end Webhook
