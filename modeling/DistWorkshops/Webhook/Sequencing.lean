import DistWorkshops.Webhook.Ingestion
import DistWorkshops.Lib.Server

/-!
# The numbers of the accepted messages

`webhook` advances a counter before it checks its own answer, so an answer that failed the check
would leave a gap. No answer of `ingest` does fail it: the request schema makes `msg_id` a
non-empty string. So a request either is answered 200 under the next number of its partition or
leaves `sequences` alone (`webhook_cases`), and the numbers of a run follow by the numbering rule
of the server.
-/

set_option autoImplicit false

namespace Webhook

open Json JsonSchema Server

variable {Body : Type} (service : Service Body)

/-! ## One request -/

@[simp] theorem bump_self (sequences : Sequences) (p : Partition) :
    sequences.bump p p = sequences p + 1 :=
  Function.update_self _ _ _

theorem bump_of_ne (sequences : Sequences) {p q : Partition} (h : q ≠ p) :
    sequences.bump p q = sequences q :=
  Function.update_of_ne h _ _

/-- What `ingest` does with a valid request: only `partition_for` may raise, before anything is
changed; else the answer is under the next number of the partition. -/
theorem ingest_valid (sequences : Sequences) {message : Json}
    (hvalid : requestSchema.valid service.check message = true) :
    ∃ c s, message.field? (text "customer_id") = some (.str c) ∧
      message.field? (text "msg_id") = some (.str s) ∧ s ≠ [] ∧
      ingest service sequences message =
        match service.partitionFor (.str c) with
        | .error e => (sequences, .error e)
        | .ok p => (sequences.bump p, .ok (accepted (.str s) p (sequences p + 1))) := by
  obtain ⟨c, hcustomer, -⟩ := customerId_of_request hvalid
  obtain ⟨s, hmsg, hne⟩ := msgId_of_request hvalid
  refine ⟨c, s, hcustomer, hmsg, hne, ?_⟩
  cases hp : service.partitionFor (.str c) with
  | error e => simp only [ingest, getItem_of_field hcustomer, hp]
  | ok p => simp only [ingest, getItem_of_field hcustomer, hp, getItem_of_field hmsg, bump_self]

/-- On a valid request `ingest` raises before it changes anything, or it answers under the next
number of a partition. -/
theorem ingest_cases (sequences : Sequences) {message : Json}
    (hvalid : requestSchema.valid service.check message = true) :
    (∃ s p, message.field? (text "msg_id") = some (.str s) ∧ s ≠ [] ∧
        ingest service sequences message =
          (sequences.bump p, .ok (accepted (.str s) p (sequences p + 1)))) ∨
      ∃ e, ingest service sequences message = (sequences, .error e) := by
  obtain ⟨c, s, -, hmsg, hne, hingest⟩ := ingest_valid service sequences hvalid
  cases hp : service.partitionFor (.str c) with
  | error e =>
      rw [hp] at hingest
      exact Or.inr ⟨e, hingest⟩
  | ok p =>
      rw [hp] at hingest
      exact Or.inl ⟨s, p, hmsg, hne, hingest⟩

theorem checkResponse_accepted {s : Str} (hne : s ≠ []) (p : Partition) (n : ℕ)
    (statusCode : ℕ) :
    checkResponse service (accepted (.str s) p (n + 1)) statusCode
      = ⟨statusCode, accepted (.str s) p (n + 1)⟩ := by
  have hvalid : validateResponse service (accepted (.str s) p (n + 1)) = [] :=
    (collectErrors_eq_nil _ _).mpr
      (responseSchema_of_accepted (accepted_valid hne p (Nat.le_add_left 1 n)))
  simp only [checkResponse, hvalid]

/-- The check passes the status on or makes it 500. -/
theorem checkResponse_statusCode (answer : Json) (statusCode : ℕ) :
    (checkResponse service answer statusCode).statusCode = statusCode ∨
      (checkResponse service answer statusCode).statusCode = 500 := by
  unfold checkResponse
  cases validateResponse service answer with
  | nil => exact Or.inl rfl
  | cons error rest => exact Or.inr rfl

/-- **What a request can do**: it is answered 200 under the next number of a partition, or it
is not answered 200 and changes nothing. -/
theorem webhook_cases (sequences : Sequences) (raw : Body) :
    (∃ message s p, service.loads raw = .ok message ∧
        message.field? (text "msg_id") = some (.str s) ∧
        webhook service sequences raw =
          (sequences.bump p, .ok ⟨200, accepted (.str s) p (sequences p + 1)⟩)) ∨
      ∃ result, webhook service sequences raw = (sequences, result) ∧
        ∀ answer, result = .ok answer → answer.statusCode ≠ 200 := by
  cases hloads : service.loads raw with
  | error error =>
      refine Or.inr ?_
      cases error with
      | valueError e =>
          refine ⟨.ok ⟨400, rejection [⟨text "$", text "invalid JSON: " ++ e⟩]⟩,
            by simp only [webhook, hloads], ?_⟩
          rintro answer ⟨rfl⟩
          show 400 ≠ 200
          decide
      | other e =>
          refine ⟨.error e, by simp only [webhook, hloads], ?_⟩
          intro answer h
          cases h
  | ok message =>
      cases herrors : validateRequest service message with
      | cons error rest =>
          -- a rejection keeps its 422, or becomes a 500
          refine Or.inr ⟨.ok (checkResponse service (rejection (error :: rest)) 422),
            by simp only [webhook, hloads, herrors], ?_⟩
          rintro answer ⟨rfl⟩
          rcases checkResponse_statusCode service (rejection (error :: rest)) 422 with h | h
          · rw [h]
            decide
          · rw [h]
            decide
      | nil =>
          have hvalid : requestSchema.valid service.check message = true :=
            (collectErrors_eq_nil _ _).mp herrors
          rcases ingest_cases service sequences hvalid with
            ⟨s, p, hmsg, hne, hingest⟩ | ⟨e, hingest⟩
          · refine Or.inl ⟨message, s, p, rfl, hmsg, ?_⟩
            simp only [webhook, hloads, herrors, hingest, checkResponse_accepted service hne]
          · refine Or.inr ⟨.error e, by simp only [webhook, hloads, herrors, hingest], ?_⟩
            intro answer h
            cases h

/-! ## What a client sees -/

/-- One request to `/webhook` and its answer, or the exception that the handler let through. -/
abbrev Request (Body : Type) := Exchange Sequences Body (Except PyError Answer)

def answered200 (x : Request Body) : Bool :=
  match x.answer with
  | .ok answer => answer.statusCode == 200
  | .error _ => false

/-- A field of the answer's document. -/
def answerField (key : String) (x : Request Body) : Option Json :=
  match x.answer with
  | .ok answer => answer.document.field? (text key)
  | .error _ => none

/-- Answered 200 with the partition `p`. -/
def acceptedOn (p : Partition) (x : Request Body) : Bool :=
  answered200 x &&
    match answerField "partition" x with
    | some (.int n) => n == p.val
    | _ => false

/-- The exchange of a request that is answered 200. -/
theorem accepted_exchange {sequences : Sequences} {raw : Body} {s : Str} {p : Partition}
    (h : webhook service sequences raw =
      (sequences.bump p, .ok ⟨200, accepted (.str s) p (sequences p + 1)⟩)) (q : Partition) :
    acceptedOn q (exchange (webhook service) sequences raw) = decide (q = p) ∧
      answerField "sequence" (exchange (webhook service) sequences raw)
        = some (.int (sequences p + 1 : ℕ)) ∧
      answerField "msg_id" (exchange (webhook service) sequences raw) = some (.str s) ∧
      answerField "stream" (exchange (webhook service) sequences raw) = some (.str (stream p)) := by
  simp only [acceptedOn, answered200, answerField, exchange, h]
  refine ⟨?_, rfl, rfl, rfl⟩
  show (true && ((p.val : ℤ) == (q.val : ℤ))) = decide (q = p)
  rw [Bool.true_and, Bool.eq_iff_iff, beq_iff_eq, decide_eq_true_eq, Fin.ext_iff]
  omega

theorem other_exchange {sequences : Sequences} {raw : Body} {result : Except PyError Answer}
    (h : webhook service sequences raw = (sequences, result))
    (hresult : ∀ answer, result = .ok answer → answer.statusCode ≠ 200) :
    answered200 (exchange (webhook service) sequences raw) = false := by
  simp only [answered200, exchange, h]
  cases result with
  | error e => rfl
  | ok answer => exact beq_eq_false_iff_ne.mpr (hresult answer rfl)

/-! ## Runs -/

/-- Over a run from any counters, the answers on a partition carry the numbers from its counter
at the start to its counter at the end. -/
theorem partition_numbered (sequences : Sequences) (bodies : List Body) (p : Partition) :
    ∃ k, final (webhook service) sequences bodies p = sequences p + k ∧
      ((serve (webhook service) sequences bodies).filter (acceptedOn p)).map
          (answerField "sequence") =
        (List.range k).map fun i => some (.int (sequences p + i + 1 : ℕ)) := by
  refine numbered (acceptedOn p) (answerField "sequence") (fun sequences => sequences p)
    (fun n => some (.int (n : ℕ))) ?_ sequences bodies
  intro sequences raw
  rcases webhook_cases service sequences raw with
    ⟨message, s, q, -, -, h⟩ | ⟨result, h, hresult⟩
  · obtain ⟨hkind, hlabel, -, -⟩ := accepted_exchange service h p
    rw [hkind, hlabel, h]
    -- the counter of the answer's own partition goes up, the others stay
    by_cases hp : p = q
    · subst hp
      exact Or.inl ⟨decide_eq_true rfl, bump_self sequences p, rfl⟩
    · exact Or.inr ⟨decide_eq_false hp, bump_of_ne sequences hp⟩
  · refine Or.inr ⟨?_, by rw [h]⟩
    rw [acceptedOn, other_exchange service h hresult, Bool.false_and]

/-- **Webhook sequencing.** In a run from empty counters the answers with status 200 on a
partition carry 1, 2, … up to the partition's counter at the end; each such answer is on one
partition, with the `msg_id` of its own request and the stream of the partition; and a request
that is not answered 200 leaves the counters alone. -/
theorem webhook_sequencing (bodies : List Body) :
    (∀ p, ((serve (webhook service) (fun _ => 0) bodies).filter (acceptedOn p)).map
          (answerField "sequence") =
        (List.range (final (webhook service) (fun _ => 0) bodies p)).map
          fun i => some (.int (i + 1 : ℕ))) ∧
      ∀ x ∈ serve (webhook service) (fun _ => 0) bodies,
        (answered200 x = true → ∃ p message msgId, acceptedOn p x = true ∧
          service.loads x.request = .ok message ∧
          getItem message (text "msg_id") = .ok msgId ∧
          answerField "msg_id" x = some msgId ∧
          answerField "stream" x = some (.str (stream p))) ∧
        (answered200 x = false → x.after = x.before) := by
  constructor
  · intro p
    obtain ⟨k, hfinal, hnumbers⟩ := partition_numbered service (fun _ => 0) bodies p
    have hk : final (webhook service) (fun _ => 0) bodies p = k := by
      rw [hfinal]
      exact Nat.zero_add k
    rw [hk, hnumbers]
    refine List.map_congr_left fun i _ => ?_
    rw [Nat.zero_add]
  · intro x hx
    rw [mem_serve hx]
    generalize x.before = sequences
    generalize x.request = raw
    rcases webhook_cases service sequences raw with
      ⟨message, s, p, hloads, hmsg, h⟩ | ⟨result, h, hresult⟩
    · obtain ⟨hkind, -, hmsgId, hstream⟩ := accepted_exchange service h p
      have h200 : acceptedOn p (exchange (webhook service) sequences raw) = true := by
        rw [hkind]
        exact decide_eq_true rfl
      refine ⟨fun _ => ⟨p, message, .str s, h200, hloads, getItem_of_field hmsg, hmsgId,
        hstream⟩, ?_⟩
      intro hnot
      rw [acceptedOn, hnot, Bool.false_and] at h200
      cases h200
    · have hnot := other_exchange service h hresult
      refine ⟨fun h200 => ?_, fun _ => ?_⟩
      · rw [hnot] at h200
        cases h200
      · show (webhook service sequences raw).1 = sequences
        rw [h]

/-- A service that puts every customer on one partition; `none` is a malformed body. -/
def testService : Service (Option Json) where
  loads raw := raw.elim (.error (.valueError [])) .ok
  partitionFor _ := .ok (Fin.last 7)
  check _ _ := true
  requestValidator := .ofValid _ _
  responseValidator := .ofValid _ _

/-- Two valid requests, with a malformed and an invalid one between them. -/
def testBodies : List (Option Json) := [some validRequest, none, some .null, some validRequest]

theorem webhook_sequencing_test :
    (serve (webhook testService) (fun _ => 0) testBodies).map answered200 =
        [true, false, false, true] ∧
      ((serve (webhook testService) (fun _ => 0) testBodies).filter (acceptedOn 7)).map
          (answerField "sequence") =
        (List.range (final (webhook testService) (fun _ => 0) testBodies 7)).map
          fun i => some (.int (i + 1 : ℕ)) :=
  ⟨rfl, (webhook_sequencing testService testBodies).1 7⟩

end Webhook
