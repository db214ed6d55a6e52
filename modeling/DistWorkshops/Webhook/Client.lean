import DistWorkshops.Webhook.Payloads

/-!
# The webhook client and its service

`webhook_client.py` against `ingestion_service.py`: the client checks a message before it sends it
and the answer after it has come back, and `main` sends one message after the other until one
cannot reach the service. A request may be lost on its way, or its answer; then the service has
handled a message that the client counts as failed. Here is what one exchange does; the runs of
`main` are in `Dispatch`. Timings, sizes and what is printed are left out.
-/

set_option autoImplicit false

namespace Webhook

open Json JsonSchema WaMock

/-! ## JSON between two machines -/

def IsHighSurrogate (c : Fin 0x110000) : Prop := 0xD800 ≤ c.val ∧ c.val ≤ 0xDBFF

def IsLowSurrogate (c : Fin 0x110000) : Prop := 0xDC00 ≤ c.val ∧ c.val ≤ 0xDFFF

instance (c : Fin 0x110000) : Decidable (IsHighSurrogate c) := inferInstanceAs (Decidable (_ ∧ _))

instance (c : Fin 0x110000) : Decidable (IsLowSurrogate c) := inferInstanceAs (Decidable (_ ∧ _))

/-- A string that comes back from its JSON text: two halves of a pair would come back as one
character. -/
def Unpaired (s : Str) : Prop := s.IsChain fun a b => ¬ (IsHighSurrogate a ∧ IsLowSurrogate b)

/-- The most digits of an integer that Python writes or reads. -/
def maxDigits : ℕ := 4300

def Short (n : ℤ) : Prop := n.natAbs < 10 ^ maxDigits

/-- How deep a document may be nested, well below Python's limit of the recursion. -/
def maxDepth : ℕ := 100

/-- The documents of some depth without floats whose integers and strings come back, with different
keys in every object. -/
inductive PortableWithin : ℕ → Json → Prop where
  | null {depth : ℕ} : PortableWithin depth .null
  | bool {depth : ℕ} (b : Bool) : PortableWithin depth (.bool b)
  | int {depth : ℕ} {n : ℤ} (h : Short n) : PortableWithin depth (.int n)
  | str {depth : ℕ} {s : Str} (h : Unpaired s) : PortableWithin depth (.str s)
  | arr {depth : ℕ} {items : List Json} (h : ∀ item ∈ items, PortableWithin depth item) :
      PortableWithin (depth + 1) (.arr items)
  | obj {depth : ℕ} {entries : List (Str × Json)}
      (hkeys : ∀ key ∈ entries.map Prod.fst, Unpaired key) (hnodup : (entries.map Prod.fst).Nodup)
      (h : ∀ entry ∈ entries, PortableWithin depth entry.2) :
      PortableWithin (depth + 1) (.obj entries)

def Portable (document : Json) : Prop := PortableWithin maxDepth document

/-- `json` as both machines have it. `dumps` is `json.dumps` and `encode`, and `errorPage` is the
body of the server's answer when a handler raises. -/
structure Codec (Body : Type) where
  dumps : Json → Body
  loads : Body → Except LoadsError Json
  errorPage : Body
  loads_dumps : ∀ document, Portable document → loads (dumps document) = .ok document
  /-- The sequence number counts the messages of a partition, so it does not run out of digits. -/
  loads_dumps_accepted : ∀ msgId, Unpaired msgId → ∀ p n,
    loads (dumps (accepted (.str msgId) p n)) = .ok (accepted (.str msgId) p n)
  /-- What a rejection quotes may have two halves of a pair. -/
  loads_dumps_rejection : ∀ errors, ∃ document, loads (dumps (rejection errors)) = .ok document
  loads_errorPage : ∃ error, loads errorPage = .error (.valueError error)

/-- The validators of one machine. The format checkers of two machines may differ. -/
structure Side where
  check : FormatChecker
  requestValidator : Validator check requestSchema
  responseValidator : Validator check responseSchema

/-! ## The network -/

structure HttpResponse (Body : Type) where
  statusCode : ℕ
  content : Body

/-- A handler with its state, as the network sees it. -/
abbrev Route (σ Body : Type) := σ → Body → σ × HttpResponse Body

/-- What becomes of a request and its answer. -/
inductive Delivery where
  | delivered
  | requestLost
  | responseLost
  deriving DecidableEq, Repr

/-- A handler behind its server: an exception that it lets through is answered 500. -/
def toRoute {σ Body : Type} (codec : Codec Body) (handler : σ → Body → σ × Except PyError Answer) :
    Route σ Body := fun s raw =>
  match handler s raw with
  | (s, .ok answer) => (s, ⟨answer.statusCode, codec.dumps answer.document⟩)
  | (s, .error _) => (s, ⟨500, codec.errorPage⟩)

/-! ## The client -/

/-- The dictionary that `exchange` returns: nothing was sent, or it says what came back. -/
inductive Result (Body : Type) where
  | blocked (requestErrors : List FieldError)
  | sent (response : HttpResponse Body) (answer : Option Json) (responseErrors : List FieldError)

/-- What `exchange` raises: `httpx.TransportError`, or another error. -/
inductive Failure where
  | transport
  | raised (error : PyError)

section Client

variable {σ Body : Type} (codec : Codec Body) (side : Side)

/-- `json.loads` of an answer. A `null` is `None` too, as if the answer were no JSON. -/
def parseAnswer (content : Body) : Except Failure (Option Json) :=
  match codec.loads content with
  | .ok .null => .ok none
  | .ok answer => .ok (some answer)
  | .error (.valueError _) => .ok none
  | .error (.other e) => .error (.raised e)

def answerErrors : Option Json → List FieldError
  | none => [⟨text "$", text "response is not valid JSON"⟩]
  | some answer => collectErrors side.responseValidator answer

def exchange (route : Route σ Body) (delivery : Delivery) (s : σ) (message : Json) :
    σ × Except Failure (Result Body) :=
  match collectErrors side.requestValidator message with
  | [] =>
      match delivery with
      | .requestLost => (s, .error .transport)
      -- the service has handled the request
      | .responseLost => ((route s (codec.dumps message)).1, .error .transport)
      | .delivered =>
          match route s (codec.dumps message) with
          | (s, response) => (s, (parseAnswer codec response.content).map fun answer =>
              .sent response answer (answerErrors side answer))
  | requestErrors => (s, .ok (.blocked requestErrors))

/-- What `report` returns: the message was sent, and the answer is a success and valid. -/
def report : Result Body → Bool
  | .blocked _ => false
  | .sent response _ responseErrors =>
      decide (200 ≤ response.statusCode ∧ response.statusCode ≤ 299) && responseErrors.isEmpty

/-- The loop of `main`, with what becomes of each message: the exit code. -/
def dispatch (route : Route σ Body) : σ → Bool → List (Json × Delivery) → σ × Except PyError ℕ
  | s, allOk, [] => (s, .ok (if allOk then 0 else 1))
  | s, allOk, (message, delivery) :: rest =>
      match exchange codec side route delivery s message with
      | (s, .error .transport) => (s, .ok 2)
      | (s, .error (.raised e)) => (s, .error e)
      | (s, .ok result) => dispatch route s (report result && allOk) rest

end Client

/-! ## A deployment -/

/-- The client on one machine and the service on the other. -/
structure Deployment (Body : Type) where
  codec : Codec Body
  sha256 : List UInt8 → List UInt8
  client : Side
  server : Side

namespace Deployment

variable {Body : Type} (d : Deployment Body)

def service : Service Body where
  loads := d.codec.loads
  partitionFor := partitionFor d.sha256
  check := d.server.check
  requestValidator := d.server.requestValidator
  responseValidator := d.server.responseValidator

/-- `POST /webhook`. -/
def route : Route Sequences Body := toRoute d.codec (webhook d.service)

def main (s : Sequences) (run : List (Json × Delivery)) : Sequences × Except PyError ℕ :=
  dispatch d.codec d.client d.route s true run

/-- The partition of a message, if `partition_for` returns one. -/
def partition? (message : Json) : Option Partition :=
  match message.field? (text "customer_id") with
  | none => none
  | some customerId => (partitionFor d.sha256 customerId).toOption

/-- The client sends the message. -/
def sends (message : Json) : Bool := requestSchema.valid d.client.check message

/-- The service stores the message in the partition `p`, if it gets it. -/
def storesOn (p : Partition) (message : Json) : Bool :=
  requestSchema.valid d.server.check message && d.partition? message == some p

/-- The message goes through. -/
def accepts (message : Json) : Bool :=
  d.sends message && requestSchema.valid d.server.check message && (d.partition? message).isSome

/-- The exchange ends in a transport error. -/
def fails (x : Json × Delivery) : Bool := d.sends x.1 && x.2 != .delivered

/-- The message reaches the service, which stores it in the partition `p`. -/
def storedOn (p : Partition) (x : Json × Delivery) : Bool :=
  d.sends x.1 && x.2 != .requestLost && d.storesOn p x.1

/-- The exchanges up to the first one that fails. -/
def attempted : List (Json × Delivery) → List (Json × Delivery)
  | [] => []
  | x :: rest => if d.fails x then [x] else x :: attempted rest

end Deployment

/-! ## Strings that come back -/

/-- A string of characters, without surrogates. -/
def Scalar (s : Str) : Prop := ∀ c ∈ s, ¬ isSurrogate c = true

theorem Scalar.append {s t : Str} (hs : Scalar s) (ht : Scalar t) : Scalar (s ++ t) :=
  List.forall_mem_append.mpr ⟨hs, ht⟩

theorem scalar_of_chars (cs : List Char) :
    Scalar (cs.map fun c => (⟨c.toNat, toNat_lt c⟩ : Fin 0x110000)) := by
  intro c hc
  obtain ⟨x, -, rfl⟩ := List.mem_map.mp hc
  -- a character of Lean is a scalar value
  have hvalid : x.toNat < 0xD800 ∨ (0xDFFF < x.toNat ∧ x.toNat < 0x110000) := x.valid
  simp only [isSurrogate, decide_eq_true_eq]
  omega

theorem scalar_text (s : String) : Scalar (text s) := scalar_of_chars _

theorem scalar_padded (width n : ℕ) : Scalar (padded width n) := scalar_of_chars _

theorem Scalar.unpaired {s : Str} (h : Scalar s) : Unpaired s := by
  refine (List.pairwise_of_forall_mem_list fun a ha b _ => ?_).isChain
  -- a pair of surrogates begins with a high one
  rintro ⟨hhigh, -⟩
  have hnot := h a ha
  simp only [isSurrogate, decide_eq_true_eq] at hnot
  unfold IsHighSurrogate at hhigh
  omega

theorem text_unpaired (s : String) : Unpaired (text s) := (scalar_text s).unpaired

theorem short_of_lt {n : ℕ} (h : n < 10 ^ 6) : Short n :=
  Nat.lt_of_lt_of_le h (Nat.pow_le_pow_right (by decide) (by decide))

/-- A string in an object that comes back comes back. -/
theorem unpaired_of_field {depth : ℕ} {message : Json} (h : PortableWithin depth message)
    {key s : Str} (hfield : message.field? key = some (.str s)) : Unpaired s := by
  cases h with
  | @obj depth entries hkeys hnodup hvalues =>
      obtain ⟨l₁, l₂, hsplit, -⟩ := List.lookup_eq_some_iff.mp hfield
      have hvalue := hvalues (key, .str s) (by simp [hsplit])
      cases hvalue with
      | str h => exact h
  | _ => cases hfield

/-- An object with keys of the source comes back if its values do. -/
theorem portable_object {depth : ℕ} (keys : List String) {entries : List (Str × Json)}
    (hkeys : entries.map Prod.fst = keys.map text) (hnodup : (keys.map text).Nodup)
    (h : ∀ entry ∈ entries, PortableWithin depth entry.2) :
    PortableWithin (depth + 1) (.obj entries) := by
  refine .obj (fun key hkey => ?_) (hkeys ▸ hnodup) h
  rw [hkeys] at hkey
  obtain ⟨s, -, rfl⟩ := List.mem_map.mp hkey
  exact text_unpaired s

/-! ## One request -/

section Requests

variable {Body : Type} (d : Deployment Body) (s : Sequences) {message : Json}

/-- A request that the service stores is taken in under the next number of its partition. -/
theorem ingest_of_storesOn (hportable : Portable message) {p : Partition}
    (hstores : d.storesOn p message = true) :
    ∃ msgId, Unpaired msgId ∧ msgId ≠ [] ∧
      ingest d.service s message = (s.bump p, .ok (accepted (.str msgId) p (s p + 1))) := by
  obtain ⟨hvalid, hp⟩ := Bool.and_eq_true_iff.mp hstores
  obtain ⟨c, msgId, hcustomer, hmsgId, hne, hingest⟩ := ingest_valid d.service s hvalid
  -- the partition of the message is that of its customer
  have hpartition : d.service.partitionFor (.str c) = .ok p := by
    have hsome : (partitionFor d.sha256 (.str c)).toOption = some p := by
      rw [← beq_iff_eq.mp hp, Deployment.partition?, hcustomer]
    cases h : partitionFor d.sha256 (.str c) with
    | error e =>
        rw [h] at hsome
        cases hsome
    | ok q =>
        rw [h] at hsome
        exact h.trans (congrArg Except.ok (Option.some.inj hsome))
  rw [hpartition] at hingest
  exact ⟨msgId, unpaired_of_field hportable hmsgId, hne, hingest⟩

theorem loads_of_portable (hportable : Portable message) :
    d.service.loads (d.codec.dumps message) = .ok message := d.codec.loads_dumps message hportable

/-- A request that the service stores is answered under the next number of its partition. -/
theorem route_of_storesOn (hportable : Portable message) {p : Partition}
    (hstores : d.storesOn p message = true) :
    ∃ msgId, Unpaired msgId ∧ msgId ≠ [] ∧ d.route s (d.codec.dumps message) =
      (s.bump p, ⟨200, d.codec.dumps (accepted (.str msgId) p (s p + 1))⟩) := by
  obtain ⟨msgId, hunpaired, hne, hingest⟩ := ingest_of_storesOn d s hportable hstores
  have herrors : validateRequest d.service message = [] :=
    (collectErrors_eq_nil _ _).mpr (Bool.and_eq_true_iff.mp hstores).1
  refine ⟨msgId, hunpaired, hne, ?_⟩
  simp only [Deployment.route, toRoute, webhook, loads_of_portable d hportable, herrors, hingest,
    checkResponse_accepted d.service hne]

/-- Any other request changes nothing and is answered with a failure, in JSON or with the page of
the server. -/
theorem route_of_not_storesOn (hportable : Portable message)
    (hnot : ∀ p, ¬ d.storesOn p message = true) :
    (d.route s (d.codec.dumps message)).1 = s ∧
      299 < (d.route s (d.codec.dumps message)).2.statusCode ∧
      ((∃ errors,
          (d.route s (d.codec.dumps message)).2.content = d.codec.dumps (rejection errors)) ∨
        (d.route s (d.codec.dumps message)).2.content = d.codec.errorPage) := by
  have hloads := loads_of_portable d hportable
  cases herrors : validateRequest d.service message with
  -- a rejection is answered 400, after a check of its own
  | cons error rest =>
      have hvalid : responseSchema.valid d.service.check (rejection (error :: rest)) = true :=
        responseSchema_of_rejected (rejection_valid (List.cons_ne_nil error rest))
      simp only [Deployment.route, toRoute, webhook, hloads, herrors,
        checkResponse_of_valid d.service hvalid]
      exact ⟨trivial, by decide, Or.inl ⟨_, rfl⟩⟩
  | nil =>
      have hvalid : requestSchema.valid d.server.check message = true :=
        (collectErrors_eq_nil _ _).mp herrors
      obtain ⟨c, msgId, hcustomer, -, -, hingest⟩ := ingest_valid d.service s hvalid
      -- the schema admits the request, so it is `partition_for` that raises
      cases hpartition : d.service.partitionFor (.str c) with
      | ok p =>
          refine absurd ?_ (hnot p)
          have hsome : d.partition? message = some p := by
            have h : partitionFor d.sha256 (.str c) = .ok p := hpartition
            rw [Deployment.partition?, hcustomer]
            simp only [h, Except.toOption]
          rw [Deployment.storesOn, hvalid, hsome]
          exact beq_self_eq_true _
      | error e =>
          rw [hpartition] at hingest
          simp only [Deployment.route, toRoute, webhook, hloads, herrors, hingest]
          exact ⟨trivial, by decide, Or.inr trivial⟩

end Requests

/-! ## One exchange -/

section Exchanges

variable {Body : Type} (d : Deployment Body) (s : Sequences)

theorem parseAnswer_ok {content : Body}
    (h : (∃ errors, content = d.codec.dumps (rejection errors)) ∨ content = d.codec.errorPage) :
    ∃ answer, parseAnswer d.codec content = .ok answer := by
  rcases h with ⟨errors, rfl⟩ | rfl
  · obtain ⟨document, hloads⟩ := d.codec.loads_dumps_rejection errors
    unfold parseAnswer
    rw [hloads]
    cases document with
    | null => exact ⟨_, rfl⟩
    | _ => exact ⟨_, rfl⟩
  · obtain ⟨error, hloads⟩ := d.codec.loads_errorPage
    unfold parseAnswer
    rw [hloads]
    exact ⟨_, rfl⟩

theorem collectErrors_of_sends {message : Json} :
    d.sends message = true ↔ collectErrors d.client.requestValidator message = [] :=
  (collectErrors_eq_nil _ _).symm

/-- A message that the client blocks does not leave it. -/
theorem exchange_of_blocked {message : Json} (delivery : Delivery)
    (h : ¬ d.sends message = true) :
    ∃ errors, errors ≠ [] ∧ exchange d.codec d.client d.route delivery s message
      = (s, .ok (.blocked errors)) := by
  rw [collectErrors_of_sends] at h
  unfold exchange
  cases herrors : collectErrors d.client.requestValidator message with
  | nil => exact absurd herrors h
  | cons error rest => exact ⟨_, List.cons_ne_nil error rest, rfl⟩

/-- A message that goes through: the answer is valid. -/
theorem exchange_of_storesOn {message : Json} (hportable : Portable message)
    (hsends : d.sends message = true) {p : Partition} (hstores : d.storesOn p message = true) :
    ∃ content answer, exchange d.codec d.client d.route .delivered s message
      = (s.bump p, .ok (.sent ⟨200, content⟩ answer [])) := by
  obtain ⟨msgId, hunpaired, hne, hroute⟩ := route_of_storesOn d s hportable hstores
  have hparse : parseAnswer d.codec (d.codec.dumps (accepted (.str msgId) p (s p + 1)))
      = .ok (some (accepted (.str msgId) p (s p + 1))) := by
    unfold parseAnswer
    rw [d.codec.loads_dumps_accepted msgId hunpaired p (s p + 1)]
    rfl
  have hanswer : answerErrors d.client (some (accepted (.str msgId) p (s p + 1))) = [] :=
    (collectErrors_eq_nil _ _).mpr
      (responseSchema_of_accepted (accepted_valid hne p (Nat.le_add_left 1 (s p))))
  refine ⟨d.codec.dumps (accepted (.str msgId) p (s p + 1)),
    some (accepted (.str msgId) p (s p + 1)), ?_⟩
  simp only [exchange, (collectErrors_of_sends d).mp hsends, hroute, hparse, Except.map, hanswer]

/-- A message that is sent and not stored: the client reports a failure. -/
theorem exchange_of_not_storesOn {message : Json} (hportable : Portable message)
    (hsends : d.sends message = true) (hnot : ∀ p, ¬ d.storesOn p message = true) :
    ∃ result, exchange d.codec d.client d.route .delivered s message = (s, .ok result) ∧
      report result = false := by
  obtain ⟨hstate, hstatus, hcontent⟩ := route_of_not_storesOn d s hportable hnot
  obtain ⟨answer, hparse⟩ := parseAnswer_ok d hcontent
  refine ⟨.sent (d.route s (d.codec.dumps message)).2 answer (answerErrors d.client answer), ?_,
    ?_⟩
  · simp only [exchange, (collectErrors_of_sends d).mp hsends, hstate, hparse, Except.map]
  · have hrange : ¬ (200 ≤ (d.route s (d.codec.dumps message)).2.statusCode ∧
        (d.route s (d.codec.dumps message)).2.statusCode ≤ 299) := by omega
    simp only [report, decide_eq_false hrange, Bool.false_and]

end Exchanges

end Webhook
