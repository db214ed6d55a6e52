import DistWorkshops.Webhook.Sequencing

/-!
# The schemas and the handlers agree

What `ingest` answers meets the branch `accepted` of the response schema, and what `rejection`
answers meets the branch `rejected`, each no other. So no answer of `webhook` fails the check of
the response, and on a valid request `webhook` and `controlWebhook`, which checks nothing, do
the same.
-/

set_option autoImplicit false

namespace Webhook

open Json JsonSchema

/-! ## Rejections -/

theorem fieldError_valid {check : FormatChecker} (error : FieldError) :
    (closedObject [text "path", text "message"]
      [(text "path", .type .string), (text "message", .type .string)]).valid check
        error.document = true := by
  apply closedObject_of_conforms
  · exact .cons ⟨rfl, rfl⟩ (.cons ⟨rfl, rfl⟩ .nil)
  · decide
  · exact List.Subset.refl _

/-- **A rejection meets the response schema** when it has an error. -/
theorem rejection_valid {check : FormatChecker} {errors : List FieldError} (hne : errors ≠ []) :
    rejectedSchema.valid check (rejection errors) = true := by
  have hlength : 1 ≤ errors.length := List.length_pos_iff.mpr hne
  have herrors : (Schema.all [.type .array, .minItems 1, .items (closedObject
      [text "path", text "message"]
      [(text "path", .type .string), (text "message", .type .string)])]).valid check
        (.arr (errors.map (·.document))) = true := by
    rw [Schema.valid, validAll_iff]
    simp only [List.mem_cons, List.not_mem_nil, or_false, forall_eq_or_imp, forall_eq]
    refine ⟨rfl, ?_, ?_⟩
    · rw [Schema.valid, decide_eq_true_eq, List.length_map]
      exact hlength
    · rw [Schema.valid, List.all_map, List.all_eq_true]
      intro error _
      exact fieldError_valid error
  apply closedObject_of_conforms
  · exact .cons ⟨rfl, beq_self_eq_true _⟩ (.cons ⟨rfl, herrors⟩ .nil)
  · decide
  · exact List.Subset.refl _

theorem not_accepted_of_rejected {check : FormatChecker} {document : Json}
    (h : rejectedSchema.valid check document = true) :
    ¬ acceptedSchema.valid check document = true := fun ha => not_rejected_of_accepted ha h

theorem responseSchema_of_rejected {check : FormatChecker} {document : Json}
    (h : rejectedSchema.valid check document = true) :
    responseSchema.valid check document = true :=
  (responseSchema_iff document).mpr
    (iff_of_false (not_accepted_of_rejected h) (fun hnot => hnot h))

/-! ## The two handlers -/

variable {Body : Type} (service : Service Body)

theorem checkResponse_of_valid {answer : Json}
    (h : responseSchema.valid service.check answer = true) (statusCode : ℕ) :
    checkResponse service answer statusCode = ⟨statusCode, answer⟩ := by
  have hvalid : validateResponse service answer = [] := (collectErrors_eq_nil _ _).mpr h
  simp only [checkResponse, hvalid]

/-- **What the handlers do with a valid request**: only `partition_for` may raise, and else both
answer 200 with what `ingest` answers. -/
theorem handlers_valid (sequences : Sequences) {raw : Body} {message : Json}
    (hloads : service.loads raw = .ok message)
    (herrors : validateRequest service message = []) :
    ∃ c s, message.field? (text "customer_id") = some (.str c) ∧ s ≠ [] ∧
      webhook service sequences raw =
        (match service.partitionFor (.str c) with
        | .error e => (sequences, .error e)
        | .ok p => (sequences.bump p, .ok ⟨200, accepted (.str s) p (sequences p + 1)⟩)) ∧
      controlWebhook service sequences raw = webhook service sequences raw := by
  have hvalid : requestSchema.valid service.check message = true :=
    (collectErrors_eq_nil _ _).mp herrors
  obtain ⟨c, s, hcustomer, -, hne, hingest⟩ := ingest_valid service sequences hvalid
  refine ⟨c, s, hcustomer, hne, ?_, ?_⟩
  · cases hp : service.partitionFor (.str c) with
    | error e =>
        rw [hp] at hingest
        simp only [webhook, hloads, herrors, hingest]
    | ok p =>
        rw [hp] at hingest
        simp only [webhook, hloads, herrors, hingest, checkResponse_accepted service hne]
  · cases hp : service.partitionFor (.str c) with
    | error e =>
        rw [hp] at hingest
        simp only [webhook, controlWebhook, hloads, herrors, hingest]
    | ok p =>
        rw [hp] at hingest
        simp only [webhook, controlWebhook, hloads, herrors, hingest,
          checkResponse_accepted service hne]

/-- **The 500 branch is dead.** -/
theorem webhook_ne_500 (sequences : Sequences) (raw : Body) {answer : Answer}
    (h : (webhook service sequences raw).2 = .ok answer) : answer.statusCode ≠ 500 := by
  cases hloads : service.loads raw with
  | error error =>
      cases error with
      | valueError e =>
          simp only [webhook, hloads] at h
          obtain rfl := Except.ok.inj h
          show 400 ≠ 500
          decide
      | other e =>
          simp only [webhook, hloads] at h
          cases h
  | ok message =>
      cases herrors : validateRequest service message with
      | nil =>
          obtain ⟨c, s, -, -, hwebhook, -⟩ := handlers_valid service sequences hloads herrors
          rw [hwebhook] at h
          cases hp : service.partitionFor (.str c) with
          | error e =>
              rw [hp] at h
              cases h
          | ok p =>
              rw [hp] at h
              obtain rfl := Except.ok.inj h
              show 200 ≠ 500
              decide
      | cons error rest =>
          -- a rejection with an error passes the check, and keeps its 422
          have hvalid : responseSchema.valid service.check (rejection (error :: rest)) = true :=
            responseSchema_of_rejected (rejection_valid (List.cons_ne_nil error rest))
          simp only [webhook, hloads, herrors, checkResponse_of_valid service hvalid] at h
          obtain rfl := Except.ok.inj h
          show 422 ≠ 500
          decide

/-- **The schemas and the handlers agree.** On a valid request, when `partition_for` returns,
`ingest` answers a document that meets the branch `accepted` of the response schema and no
other; every rejection meets the branch `rejected` and no other; `webhook` never answers 500;
and on a valid request it does what `controlWebhook` does. -/
theorem schemas_agree :
    (∀ sequences message, validateRequest service message = [] →
        ∃ c, message.field? (text "customer_id") = some (.str c) ∧
          ∀ p, service.partitionFor (.str c) = .ok p →
            ∃ answer, ingest service sequences message = (sequences.bump p, .ok answer) ∧
              acceptedSchema.valid service.check answer = true ∧
              ¬ rejectedSchema.valid service.check answer = true) ∧
      (∀ errors, errors ≠ [] → rejectedSchema.valid service.check (rejection errors) = true ∧
        ¬ acceptedSchema.valid service.check (rejection errors) = true) ∧
      (∀ sequences raw answer, (webhook service sequences raw).2 = .ok answer →
        answer.statusCode ≠ 500) ∧
      ∀ sequences raw message, service.loads raw = .ok message →
        validateRequest service message = [] →
        webhook service sequences raw = controlWebhook service sequences raw := by
  refine ⟨?_, ?_, ?_, ?_⟩
  · intro sequences message herrors
    have hvalid : requestSchema.valid service.check message = true :=
      (collectErrors_eq_nil _ _).mp herrors
    obtain ⟨c, s, hcustomer, -, hne, hingest⟩ := ingest_valid service sequences hvalid
    refine ⟨c, hcustomer, fun p hp => ?_⟩
    rw [hp] at hingest
    have haccepted : acceptedSchema.valid service.check
        (accepted (.str s) p (sequences p + 1)) = true :=
      accepted_valid hne p (Nat.le_add_left 1 (sequences p))
    exact ⟨_, hingest, haccepted, not_rejected_of_accepted haccepted⟩
  · intro errors hne
    have hrejected : rejectedSchema.valid service.check (rejection errors) = true :=
      rejection_valid hne
    exact ⟨hrejected, not_accepted_of_rejected hrejected⟩
  · intro sequences raw answer h
    exact webhook_ne_500 service sequences raw h
  · intro sequences raw message hloads herrors
    obtain ⟨c, s, -, -, -, hcontrol⟩ := handlers_valid service sequences hloads herrors
    exact hcontrol.symm

theorem schemas_agree_test :
    (∃ c, validRequest.field? (text "customer_id") = some (.str c) ∧
      ∀ p, testService.partitionFor (.str c) = .ok p →
        ∃ answer, ingest testService (fun _ => 0) validRequest =
            (Sequences.bump (fun _ => 0) p, .ok answer) ∧
          acceptedSchema.valid testService.check answer = true ∧
          ¬ rejectedSchema.valid testService.check answer = true) ∧
      webhook testService (fun _ => 0) (some validRequest) =
        controlWebhook testService (fun _ => 0) (some validRequest) :=
  ⟨(schemas_agree testService).1 (fun _ => 0) validRequest rfl,
    (schemas_agree testService).2.2.2 (fun _ => 0) (some validRequest) validRequest rfl rfl⟩

end Webhook
