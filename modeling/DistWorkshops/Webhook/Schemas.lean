import DistWorkshops.Lib.JsonSchema

/-!
# The schemas of the webhook

`webhook_request.schema.json` and `webhook_response.schema.json`, less their titles and
descriptions. Every object in them is closed.
-/

set_option autoImplicit false

namespace Webhook

open Json JsonSchema

def requestSchema : Schema :=
  closedObject
    [text "msg_id", text "customer_id", text "session_id", text "t_customer", text "body",
      text "delivery_attempt"]
    [(text "msg_id", .all [.type .string, .minLength 1]),
      (text "customer_id", .all [.type .string, .minLength 1]),
      (text "session_id", .all [.type .string, .minLength 1]),
      (text "t_customer", .all [.type .string, .format (text "date-time")]),
      (text "body", .all [.type .string, .minLength 1, .maxLength 4096]),
      (text "delivery_attempt", .all [.type .integer, .minimum 1]),
      (text "edge_case", .all [.type .string, .minLength 1])]

/-- `$defs/accepted` of the response schema. -/
def acceptedSchema : Schema :=
  closedObject
    [text "status", text "msg_id", text "partition", text "stream", text "sequence"]
    [(text "status", .const (text "accepted")),
      (text "msg_id", .all [.type .string, .minLength 1]),
      (text "partition", .all [.type .integer, .minimum 0]),
      (text "stream", .all [.type .string, .minLength 1]),
      (text "sequence", .all [.type .integer, .minimum 1])]

/-- `$defs/rejected` of the response schema. -/
def rejectedSchema : Schema :=
  closedObject
    [text "status", text "errors"]
    [(text "status", .const (text "rejected")),
      (text "errors", .all [.type .array, .minItems 1, .items (closedObject
        [text "path", text "message"]
        [(text "path", .type .string), (text "message", .type .string)])])]

def responseSchema : Schema := .oneOf [acceptedSchema, rejectedSchema]

/-! ## What the schemas say -/

variable {check : FormatChecker}

/-- A document meets the response schema when it meets one branch and not the other. -/
theorem responseSchema_iff (document : Json) :
    responseSchema.valid check document = true ↔
      (acceptedSchema.valid check document = true ↔
        ¬ rejectedSchema.valid check document = true) := by
  rw [responseSchema, Schema.valid, countValid, countValid, countValid]
  by_cases ha : acceptedSchema.valid check document = true
  · by_cases hr : rejectedSchema.valid check document = true
    · simp [ha, hr]
    · simp [ha, hr]
  · by_cases hr : rejectedSchema.valid check document = true
    · simp [ha, hr]
    · simp [ha, hr]

/-- The documents a string field with `minLength` 1 admits. -/
theorem nonemptyString_iff (document : Json) :
    (Schema.all [.type .string, .minLength 1]).valid check document = true ↔
      ∃ s, document = .str s ∧ s ≠ [] := by
  rw [Schema.valid, validAll_iff]
  simp only [List.mem_cons, List.not_mem_nil, or_false, forall_eq_or_imp, forall_eq]
  cases document with
  | str s =>
      simp [Schema.valid, JsonType.has, Nat.one_le_iff_ne_zero]
  | _ => simp [Schema.valid, JsonType.has]

theorem status_of_accepted {document : Json}
    (h : acceptedSchema.valid check document = true) :
    document.field? (text "status") = some (.str (text "accepted")) :=
  closedObject_const h (text "status") List.mem_cons_self List.mem_cons_self

theorem status_of_rejected {document : Json}
    (h : rejectedSchema.valid check document = true) :
    document.field? (text "status") = some (.str (text "rejected")) :=
  closedObject_const h (text "status") List.mem_cons_self List.mem_cons_self

/-- The branches exclude each other through `status`. -/
theorem not_rejected_of_accepted {document : Json}
    (h : acceptedSchema.valid check document = true) :
    ¬ rejectedSchema.valid check document = true := by
  intro hr
  have hstatus := (status_of_accepted h).symm.trans (status_of_rejected hr)
  have hne : text "accepted" ≠ text "rejected" := by decide
  exact hne (Json.str.inj (Option.some.inj hstatus))

theorem responseSchema_of_accepted {document : Json}
    (h : acceptedSchema.valid check document = true) :
    responseSchema.valid check document = true :=
  (responseSchema_iff document).mpr (iff_of_true h (not_rejected_of_accepted h))

/-- A valid request has a non-empty string as its `msg_id`. -/
theorem msgId_of_request {document : Json}
    (h : requestSchema.valid check document = true) :
    ∃ s, document.field? (text "msg_id") = some (.str s) ∧ s ≠ [] := by
  obtain ⟨value, hfield, hvalid⟩ :=
    closedObject_field h (text "msg_id") List.mem_cons_self List.mem_cons_self
  obtain ⟨s, rfl, hne⟩ := (nonemptyString_iff value).mp hvalid
  exact ⟨s, hfield, hne⟩

/-- A valid request has a non-empty string as its `customer_id`. -/
theorem customerId_of_request {document : Json}
    (h : requestSchema.valid check document = true) :
    ∃ s, document.field? (text "customer_id") = some (.str s) ∧ s ≠ [] := by
  obtain ⟨value, hfield, hvalid⟩ :=
    closedObject_field h (text "customer_id") (List.mem_cons_of_mem _ List.mem_cons_self)
      (List.mem_cons_of_mem _ List.mem_cons_self)
  obtain ⟨s, rfl, hne⟩ := (nonemptyString_iff value).mp hvalid
  exact ⟨s, hfield, hne⟩

/-- `VALID_REQUEST` of the tests. -/
def validRequest : Json :=
  .obj [(text "msg_id", .str (text "m-0001")), (text "customer_id", .str (text "c-042")),
    (text "session_id", .str (text "s-0007")),
    (text "t_customer", .str (text "2026-11-05T10:15:30Z")),
    (text "body", .str (text "Hello, is my order ready?")), (text "delivery_attempt", .int 1)]

example : requestSchema.valid (fun _ _ => true) validRequest = true := by rfl

end Webhook
