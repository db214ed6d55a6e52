import DistWorkshops.Webhook.MessageIds
import DistWorkshops.Webhook.Hashing

/-!
# The generated payloads

The messages of `payloads.py`. What the random numbers come to is an argument. Every message for
the webhook meets the request schema, whatever was drawn (`payload_valid`); what the model takes
from outside is that the format `date-time` admits a time in the layout of the generator.
-/

set_option autoImplicit false

namespace Webhook

open Json JsonSchema WaMock

/-! ## Messages for the webhook -/

/-- `BODIES`. -/
def bodies : List Str :=
  [text "Hello, is my order ready?",
    text "Thanks, that solved my problem.",
    text "What time do you close today?",
    text "I would like to change my delivery address, please.",
    text "Could you send me the invoice for last month?",
    text "The payment went through but I have not received a confirmation yet."]

/-- `EDGE_CASES`. -/
def edgeCases : List Str := [text "duplicate", text "late_delivery", text "out_of_order"]

/-- What the random numbers of one message come to. -/
structure Draws where
  customer : Fin customers
  session : Fin 2000
  seconds : Fin 86400
  body : Fin bodies.length
  deliveryAttempt : Fin 3
  edgeCase : Option (Fin edgeCases.length)

/-- `START` and so many seconds, in the layout `%Y-%m-%dT%H:%M:%SZ`. It is the same day or the
next one. -/
def tCustomer (seconds : Fin 86400) : Str :=
  let total := 8 * 3600 + seconds.val
  text "2026-11-" ++ padded 2 (5 + total / 86400) ++ text "T" ++ padded 2 (total % 86400 / 3600) ++
    text ":" ++ padded 2 (total % 3600 / 60) ++ text ":" ++ padded 2 (total % 60) ++ text "Z"

def makeWebhookPayload (draws : Draws) (index : ℕ) : Json :=
  .obj ([(text "msg_id", .str (text "m-" ++ padded 6 index)),
    (text "customer_id", .str (text "c-" ++ padded 4 draws.customer.val)),
    (text "session_id", .str (text "s-" ++ padded 5 draws.session.val)),
    (text "t_customer", .str (tCustomer draws.seconds)),
    (text "body", .str (bodies.get draws.body)),
    (text "delivery_attempt", .int (draws.deliveryAttempt.val + 1 : ℕ))] ++
    draws.edgeCase.toList.map fun edgeCase => (text "edge_case", .str (edgeCases.get edgeCase)))

/-- The format `date-time` admits the times of the generator. -/
def AdmitsTimes (check : FormatChecker) : Prop :=
  ∀ seconds, check (text "date-time") (tCustomer seconds) = true

/-! ## The messages meet the schema -/

theorem text_append_ne_nil {s : String} (hs : text s ≠ []) (rest : Str) : text s ++ rest ≠ [] :=
  List.append_ne_nil_of_left_ne_nil hs _

theorem bodies_lengths : ∀ body ∈ bodies, 1 ≤ body.length ∧ body.length ≤ 4096 := by decide

theorem edgeCases_ne_nil : ∀ edgeCase ∈ edgeCases, edgeCase ≠ [] := by decide

variable {check : FormatChecker}

theorem nonemptyString_valid {s : Str} (hne : s ≠ []) :
    (Schema.all [.type .string, .minLength 1]).valid check (.str s) = true :=
  (nonemptyString_iff _).mpr ⟨s, rfl, hne⟩

/-- **Every generated message meets the request schema.** -/
theorem payload_valid (hcheck : AdmitsTimes check) (draws : Draws) (index : ℕ) :
    requestSchema.valid check (makeWebhookPayload draws index) = true := by
  have htime : (Schema.all [.type .string, .format (text "date-time")]).valid check
      (.str (tCustomer draws.seconds)) = true := by
    simp only [Schema.valid, validAll, JsonType.has, hcheck draws.seconds, Bool.and_self]
  have hbody : (Schema.all [.type .string, .minLength 1, .maxLength 4096]).valid check
      (.str (bodies.get draws.body)) = true := by
    obtain ⟨hmin, hmax⟩ := bodies_lengths _ (List.get_mem bodies draws.body)
    simp only [Schema.valid, validAll, JsonType.has, decide_eq_true hmin, decide_eq_true hmax,
      Bool.and_self]
  -- the attempts are drawn from 1, 2 and 3
  have hattempt : (Schema.all [.type .integer, .minimum 1]).valid check
      (.int (draws.deliveryAttempt.val + 1 : ℕ)) = true := by
    simp only [Schema.valid, validAll, JsonType.has, atLeast, Bool.and_true, Bool.true_and,
      decide_eq_true_eq]
    omega
  -- the required properties come in the order of the schema
  have hrequired : List.Forall₂ (Conforms check)
      [(text "msg_id", .all [.type .string, .minLength 1]),
        (text "customer_id", .all [.type .string, .minLength 1]),
        (text "session_id", .all [.type .string, .minLength 1]),
        (text "t_customer", .all [.type .string, .format (text "date-time")]),
        (text "body", .all [.type .string, .minLength 1, .maxLength 4096]),
        (text "delivery_attempt", .all [.type .integer, .minimum 1])]
      [(text "msg_id", .str (text "m-" ++ padded 6 index)),
        (text "customer_id", .str (text "c-" ++ padded 4 draws.customer.val)),
        (text "session_id", .str (text "s-" ++ padded 5 draws.session.val)),
        (text "t_customer", .str (tCustomer draws.seconds)),
        (text "body", .str (bodies.get draws.body)),
        (text "delivery_attempt", .int (draws.deliveryAttempt.val + 1 : ℕ))] :=
    .cons ⟨rfl, nonemptyString_valid (text_append_ne_nil (by decide) _)⟩
      (.cons ⟨rfl, nonemptyString_valid (text_append_ne_nil (by decide) _)⟩
        (.cons ⟨rfl, nonemptyString_valid (text_append_ne_nil (by decide) _)⟩
          (.cons ⟨rfl, htime⟩ (.cons ⟨rfl, hbody⟩ (.cons ⟨rfl, hattempt⟩ .nil)))))
  unfold makeWebhookPayload
  cases draws.edgeCase with
  | none =>
      -- the optional property is left out
      refine closedObject_of_conforms_sublist hrequired ?_ (by decide) (List.Subset.refl _)
      exact List.sublist_append_left _
        [(text "edge_case", Schema.all [.type .string, .minLength 1])]
  | some edgeCase =>
      have hedge := @nonemptyString_valid check _
        (edgeCases_ne_nil _ (List.get_mem edgeCases edgeCase))
      refine closedObject_of_conforms
        (List.rel_append hrequired (.cons ⟨rfl, hedge⟩ .nil)) (by decide) ?_
      exact List.subset_append_left _ [text "edge_case"]

end Webhook
