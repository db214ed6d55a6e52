import DistWorkshops.Webhook.Hashing

/-!
# What a failed ingest leaves behind

`ingest` advances the counter of the partition between its two accesses to the message. A
failure of the first one, or of `partition_for`, leaves the counters as they were. A failure of
the second one, for a message that has a customer but no `msg_id`, does not: the number is used
up, and the next message of the partition skips it. The request schema requires both fields, so
only `control_webhook` hands such a message to `ingest`.
-/

set_option autoImplicit false

namespace Webhook

open Json

/-- If the call raises, the counters are as before. -/
def LeavesNoTrace {α : Type} (sequences : Sequences) (result : Sequences × Except PyError α) :
    Prop :=
  (∃ e, result.2 = .error e) → result.1 = sequences

theorem Sequences.bump_ne (sequences : Sequences) (p : Partition) :
    sequences.bump p ≠ sequences := by
  intro h
  have hp : sequences.bump p p = sequences p := congrFun h p
  unfold Sequences.bump at hp
  rw [Function.update_self] at hp
  omega

theorem getItem_of_missing {message : Json} {key : Str} (h : message.field? key = none) :
    ∃ e, getItem message key = .error e := by
  cases message with
  | obj entries =>
      rw [field?_obj] at h
      exact ⟨.keyError, by simp only [getItem, h]⟩
  | _ => exact ⟨.typeError, rfl⟩

section Ingest

variable {Body : Type} (service : Service Body) (sequences : Sequences)

/-- A call that does not get as far as the counter. -/
theorem ingest_of_no_partition {message : Json}
    (h : ∀ customerId p, message.field? (text "customer_id") = some customerId →
      service.partitionFor customerId ≠ .ok p) :
    (ingest service sequences message).1 = sequences := by
  unfold ingest
  cases hcustomer : message.field? (text "customer_id") with
  | none =>
      obtain ⟨e, he⟩ := getItem_of_missing hcustomer
      simp only [he]
  | some customerId =>
      simp only [getItem_of_field hcustomer]
      cases hp : service.partitionFor customerId with
      | error e => rfl
      | ok p => exact absurd hp (h customerId p hcustomer)

/-- A call that gets as far as the counter is answered, or it raises behind the counter. -/
theorem ingest_of_partition {message customerId : Json} {p : Partition}
    (hcustomer : message.field? (text "customer_id") = some customerId)
    (hp : service.partitionFor customerId = .ok p) :
    (ingest service sequences message).1 = sequences.bump p ∧
      ((∃ e, (ingest service sequences message).2 = .error e) ↔
        message.field? (text "msg_id") = none) := by
  unfold ingest
  simp only [getItem_of_field hcustomer, hp]
  cases hmsgId : message.field? (text "msg_id") with
  | none =>
      obtain ⟨e, he⟩ := getItem_of_missing hmsgId
      simp only [he]
      exact ⟨trivial, iff_of_true ⟨e, rfl⟩ trivial⟩
  | some msgId =>
      simp only [getItem_of_field hmsgId]
      refine ⟨trivial, iff_of_false ?_ (Option.some_ne_none msgId)⟩
      rintro ⟨e, he⟩
      cases he

/-- With any `partition_for`: a trace is left by the messages that have a partition but no
`msg_id`. -/
theorem ingest_trace_iff (message : Json) :
    LeavesNoTrace sequences (ingest service sequences message) ↔
      ((∃ customerId p, message.field? (text "customer_id") = some customerId ∧
          service.partitionFor customerId = .ok p) →
        message.field? (text "msg_id") ≠ none) := by
  by_cases h : ∃ customerId p, message.field? (text "customer_id") = some customerId ∧
      service.partitionFor customerId = .ok p
  · obtain ⟨customerId, p, hcustomer, hp⟩ := h
    obtain ⟨hstate, hraises⟩ := ingest_of_partition service sequences hcustomer hp
    constructor
    · intro htrace _ hmissing
      have hsame := htrace (hraises.mpr hmissing)
      rw [hstate] at hsame
      exact sequences.bump_ne p hsame
    · intro hmsgId herror
      exact absurd (hraises.mp herror) (hmsgId ⟨customerId, p, hcustomer, hp⟩)
  · refine iff_of_true (fun _ => ?_) (fun hcontra => absurd hcontra h)
    apply ingest_of_no_partition service sequences
    intro customerId p hcustomer hp
    exact h ⟨customerId, p, hcustomer, hp⟩

/-- **When a failed `ingest` leaves no trace**: unless the message has a `customer_id` that is a
string without a surrogate, and no `msg_id`. -/
theorem ingest_no_trace_iff (sha256 : List UInt8 → List UInt8) (message : Json) :
    LeavesNoTrace sequences (ingest (service.withHash sha256) sequences message) ↔
      ((∃ c, message.field? (text "customer_id") = some (.str c) ∧
          ∀ x ∈ c, ¬ isSurrogate x = true) →
        message.field? (text "msg_id") ≠ none) := by
  rw [ingest_trace_iff]
  apply imp_congr_left
  constructor
  · rintro ⟨customerId, p, hcustomer, hp⟩
    cases customerId with
    | str c => exact ⟨c, hcustomer, (partitionFor_ok_iff sha256 c).mp ⟨p, hp⟩⟩
    | _ => cases hp
  · rintro ⟨c, hcustomer, hc⟩
    obtain ⟨p, hp⟩ := (partitionFor_ok_iff sha256 c).mpr hc
    exact ⟨.str c, p, hcustomer, hp⟩

end Ingest

/-- A message with nothing but its customer. -/
def customerOnly : Json := .obj [(text "customer_id", .str (text "c-042"))]

/-- The message raises `KeyError`, and the next message of the partition gets number 2. -/
theorem ingest_leaves_trace :
    (ingest (plainService.withHash fun _ => digestOfTest) (fun _ => 0) customerOnly).2
        = .error .keyError ∧
      (ingest (plainService.withHash fun _ => digestOfTest) (fun _ => 0) customerOnly).1 3 = 1 ∧
      ¬ ∀ (sha256 : List UInt8 → List UInt8) (sequences : Sequences)
        (entries : List (Str × Json)), LeavesNoTrace sequences
          (ingest (plainService.withHash sha256) sequences (.obj entries)) := by
  have hnumber :
      (ingest (plainService.withHash fun _ => digestOfTest) (fun _ => 0) customerOnly).1 3 = 1 :=
    rfl
  refine ⟨rfl, hnumber, fun h => ?_⟩
  have hsame := h (fun _ => digestOfTest) (fun _ => 0)
    [(text "customer_id", .str (text "c-042"))] ⟨.keyError, rfl⟩
  have hzero : (ingest (plainService.withHash fun _ => digestOfTest) (fun _ => 0)
      customerOnly).1 3 = 0 := congrFun hsame 3
  rw [hnumber] at hzero
  cases hzero

end Webhook
