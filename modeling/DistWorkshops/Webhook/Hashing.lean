import DistWorkshops.Webhook.Agreement
import DistWorkshops.Lib.Utf8

/-!
# Which valid requests are accepted

The `partition_for` of the source. It hashes the UTF-8 encoding of the `customer_id`, and a string
with a lone surrogate has none: `encode` raises, and neither `ingest` nor `webhook` catches it.
The request schema admits such a string, since `minLength` counts code points of any kind. So a
valid request is accepted exactly when its `customer_id` has no surrogate (`accepted_iff`).
-/

set_option autoImplicit false

namespace Webhook

open Json JsonSchema

/-- `int.from_bytes(bytes, "big")`. -/
def fromBytes (bytes : List UInt8) : ℕ := bytes.foldl (fun n b => 256 * n + b.toNat) 0

/-- `UnicodeEncodeError` is a `ValueError`; only strings have `encode`. -/
def partitionFor (sha256 : List UInt8 → List UInt8) (customerId : Json) :
    Except PyError Partition :=
  match customerId with
  | .str s => match chars? s with
      | some chars =>
          let digest := sha256 (Utf8.encode chars)
          .ok (Fin.ofNat partitions (fromBytes (digest.take 8)))
      | none => .error .valueError
  | _ => .error .attributeError

/-- The service with the `partition_for` of the source. -/
def Service.withHash {Body : Type} (service : Service Body) (sha256 : List UInt8 → List UInt8) :
    Service Body :=
  { service with partitionFor := Webhook.partitionFor sha256 }

/-- `partition_for` returns on the strings without a surrogate, whatever the hash. -/
theorem partitionFor_ok_iff (sha256 : List UInt8 → List UInt8) (s : Str) :
    (∃ p, partitionFor sha256 (.str s) = .ok p) ↔ ∀ c ∈ s, ¬ isSurrogate c = true := by
  cases hs : chars? s with
  | some chars =>
      refine iff_of_true ⟨_, by simp only [partitionFor, hs]; rfl⟩ ?_
      intro c hc hsurrogate
      rw [(chars?_eq_none_iff s).mpr ⟨c, hc, hsurrogate⟩] at hs
      cases hs
  | none =>
      obtain ⟨c, hc, hsurrogate⟩ := (chars?_eq_none_iff s).mp hs
      refine iff_of_false ?_ fun h => h c hc hsurrogate
      intro ⟨p, hp⟩
      simp only [partitionFor, hs] at hp
      cases hp

/-- The handler answers 200 with a document that meets the response schema. -/
def Accepts {Body : Type} (service : Service Body) (sequences : Sequences) (raw : Body) : Prop :=
  ∃ answer, (webhook service sequences raw).2 = .ok answer ∧ answer.statusCode = 200 ∧
    responseSchema.valid service.check answer.document = true

variable {Body : Type} (service : Service Body)

/-- On a valid request everything but `partition_for` succeeds. -/
theorem accepts_iff_partition (sequences : Sequences) {raw : Body} {message : Json}
    (hloads : service.loads raw = .ok message)
    (herrors : validateRequest service message = []) :
    ∃ c, message.field? (text "customer_id") = some (.str c) ∧
      (Accepts service sequences raw ↔ ∃ p, service.partitionFor (.str c) = .ok p) := by
  obtain ⟨c, s, hcustomer, hne, hwebhook, -⟩ := handlers_valid service sequences hloads herrors
  refine ⟨c, hcustomer, ?_⟩
  cases hp : service.partitionFor (.str c) with
  | error e =>
      rw [hp] at hwebhook
      constructor
      · rintro ⟨answer, hanswer, -⟩
        rw [hwebhook] at hanswer
        cases hanswer
      · rintro ⟨p, hcontra⟩
        cases hcontra
  | ok p =>
      rw [hp] at hwebhook
      refine iff_of_true ⟨_, by rw [hwebhook], rfl, ?_⟩ ⟨p, rfl⟩
      exact responseSchema_of_accepted (accepted_valid hne p (Nat.le_add_left 1 (sequences p)))

/-- **Which valid requests are accepted**: those whose `customer_id` has no lone surrogate. -/
theorem accepted_iff (sha256 : List UInt8 → List UInt8) (sequences : Sequences) (raw : Body)
    (message : Json) (hloads : service.loads raw = .ok message)
    (herrors : validateRequest service message = []) :
    Accepts (service.withHash sha256) sequences raw ↔
      ∃ c, message.field? (text "customer_id") = some (.str c) ∧
        ∀ x ∈ c, ¬ isSurrogate x = true := by
  obtain ⟨c, hcustomer, haccepts⟩ :=
    accepts_iff_partition (service.withHash sha256) sequences hloads herrors
  rw [haccepts]
  show (∃ p, partitionFor sha256 (.str c) = .ok p) ↔ _
  rw [partitionFor_ok_iff]
  constructor
  · intro h
    exact ⟨c, hcustomer, h⟩
  · rintro ⟨c', hcustomer', h⟩
    rw [hcustomer] at hcustomer'
    obtain rfl := Json.str.inj (Option.some.inj hcustomer')
    exact h

/-- A service whose bodies are the documents themselves. -/
def plainService : Service Json where
  loads := .ok
  partitionFor _ := .ok 0
  check _ _ := true
  requestValidator := .ofValid _ _
  responseValidator := .ofValid _ _

/-- `VALID_REQUEST` with another customer. -/
def requestOf (customer : Str) : Json :=
  .obj [(text "msg_id", .str (text "m-0001")), (text "customer_id", .str customer),
    (text "session_id", .str (text "s-0007")),
    (text "t_customer", .str (text "2026-11-05T10:15:30Z")),
    (text "body", .str (text "Hello, is my order ready?")), (text "delivery_attempt", .int 1)]

/-- The SHA-256 digest of `c-042`. -/
def digestOfTest : List UInt8 :=
  [202, 222, 28, 110, 229, 49, 244, 155, 211, 169, 111, 73, 31, 221, 58, 79, 135, 33, 184, 17, 11,
    158, 131, 186, 96, 14, 143, 44, 213, 11, 3, 205]

/-- The customer of the tests, under the SHA-256 digest of its name. -/
theorem accepted_iff_test :
    Accepts (plainService.withHash fun _ => digestOfTest) (fun _ => 0) validRequest ↔
      ∃ c, validRequest.field? (text "customer_id") = some (.str c) ∧
        ∀ x ∈ c, ¬ isSurrogate x = true :=
  accepted_iff plainService (fun _ => digestOfTest) (fun _ => 0) validRequest validRequest rfl rfl

/-- The partition of the accepted answer in the tests. -/
example : partitionFor (fun _ => digestOfTest) (.str (text "c-042")) = .ok 3 := by rfl

/-- A valid request whose customer is one lone surrogate: the handler raises. -/
theorem surrogate_raises :
    validateRequest plainService (requestOf [0xD800]) = [] ∧
      (webhook (plainService.withHash fun _ => digestOfTest) (fun _ => 0)
        (requestOf [0xD800])).2 = .error .valueError ∧
      ¬ Accepts (plainService.withHash fun _ => digestOfTest) (fun _ => 0)
        (requestOf [0xD800]) := by
  refine ⟨rfl, rfl, ?_⟩
  rintro ⟨answer, hanswer, -⟩
  cases hanswer

end Webhook
