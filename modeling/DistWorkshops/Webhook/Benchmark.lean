import DistWorkshops.Lib.OneChange
import DistWorkshops.Lib.Rotation
import DistWorkshops.Webhook.Dispatch

/-!
# The benchmark

`run_benchmark.py`: in every round it sends a generated message to `/webhook` with the schemas
checked, the same one to `/control/webhook` without, and a farewell to the mock's `/messages`. The
order of the three cases turns from round to round (`rotation_fair`). The rounds of the warm-up
leave no rows, and nothing is saved if the network fails. If it does not, there is one row for each
case and round, all of them as expected, and the counters of both services tell the requests
(`benchmark_samples`).

`messages_client.py` is the client of the last two cases. Sizes and times are left out of the rows.
-/

set_option autoImplicit false

namespace Webhook.Benchmark

open Json JsonSchema WaMock

/-! ## Farewells -/

/-- `FAREWELLS`. -/
def farewells : List Str :=
  [text "Thanks for contacting us. We are closing this conversation for now.",
    text "It looks like everything is sorted. Write to us again whenever you need.",
    text "We have not heard from you, so we will close this chat. Have a nice day!"]

/-- What the random numbers of one farewell come to. -/
structure FarewellDraws where
  customer : Fin customers
  body : Fin farewells.length
  convVersion : Fin 20
  leaseEpoch : Fin 5

def makeFarewellPayload (draws : FarewellDraws) (index : ℕ) : Json :=
  .obj [(text "customer_id", .str (text "c-" ++ padded 4 draws.customer.val)),
    (text "kind", .str (text "farewell")),
    (text "in_reply_to", .str (text "m-" ++ padded 6 index)),
    (text "body", .str (farewells.get draws.body)),
    (text "fencing_meta", .obj [(text "conv_version", .int (draws.convVersion.val + 1 : ℕ)),
      (text "lease_epoch", .int (draws.leaseEpoch.val + 1 : ℕ))])]

/-! ## The client without validation -/

section Client

variable {σ Body : Type} (codec : Codec Body)

/-- `exchange` of `messages_client.py`: an answer that is no JSON raises. -/
def plainExchange (route : Route σ Body) (delivery : Delivery) (s : σ) (message : Json) :
    σ × Except Failure (ℕ × Json) :=
  match delivery with
  | .requestLost => (s, .error .transport)
  | .responseLost => ((route s (codec.dumps message)).1, .error .transport)
  | .delivered =>
      match route s (codec.dumps message) with
      | (s, response) => (s, match codec.loads response.content with
          | .ok answer => .ok (response.statusCode, answer)
          | .error (.valueError _) => .error (.raised .valueError)
          | .error (.other e) => .error (.raised e))

end Client

/-! ## Cases and rows -/

inductive Case where
  | A
  | AControl
  | B
  deriving DecidableEq, Repr

/-- `CASES`. -/
def cases : List Case := [.A, .AControl, .B]

/-- The order of the cases in a round. -/
def order (index : ℕ) : List Case :=
  let shift := index % cases.length
  cases.drop shift ++ cases.take shift

structure Row where
  case : Case
  index : ℕ
  status : ℕ
  expected : Bool
  deriving DecidableEq, Repr

/-- `value == n`. -/
def equalsInt (value : Json) (n : ℤ) : Bool :=
  match value with
  | .int m => m == n
  | .float q => q == n
  | .bool b => (if b then 1 else 0) == n
  | _ => false

/-- `error.get("code") == 131047`, where `error` is `{}` if there is none. -/
def hasErrorCode (answer : Json) : Except PyError Bool := do
  let error ← match answer with
    | .obj entries => .ok ((entries.lookup (text "error")).getD (.obj []))
    | _ => .error .attributeError
  let code ← getField error (text "code")
  return equalsInt code errorCode

/-- `is_expected` in the case `B`; the code is only looked at after a 400. -/
def isExpectedB (status : ℕ) (answer : Json) : Except PyError Bool :=
  match answer with
  | .obj _ =>
      if status = 200 then .ok true
      else if status = 400 then hasErrorCode answer
      else .ok false
  | _ => .error .attributeError

/-- What the two clients return. -/
inductive Sample (Body : Type) where
  | checked (result : Result Body)
  | plain (status : ℕ) (answer : Json)

/-- `to_row`; a message that was not sent has no times. -/
def toRow {Body : Type} (case : Case) (index : ℕ) : Sample Body → Except PyError Row
  -- `result["response"]`, which a blocked message does not have
  | .checked (.blocked _) => .error .keyError
  | .checked (.sent response _ responseErrors) =>
      .ok ⟨case, index, response.statusCode, response.statusCode == 200 && responseErrors.isEmpty⟩
  | .plain status answer =>
      match case with
      | .B => (isExpectedB status answer).map fun expected => ⟨case, index, status, expected⟩
      | _ => .ok ⟨case, index, status, status == 200⟩

/-! ## The run -/

/-- The counters of the two services. -/
structure Servers where
  sequences : Sequences
  messageIds : ℕ

/-- The two services and the clients; `draws` are those of `customer_last_seen`. -/
structure Rig (Body : Type) where
  deployment : Deployment Body
  draws : ℕ → ℤ

/-- What was generated before the rounds, and what becomes of each request. -/
structure Plan where
  webhookDraws : ℕ → Draws
  farewellDraws : ℕ → FarewellDraws
  delivery : ℕ → Case → Delivery

/-- How `main` ends, unless it raises: with a row for each sample, or with the exit code 2. -/
inductive Finish where
  | saved (rows : Case → List Row)
  | stopped

namespace Rig

variable {Body : Type} (rig : Rig Body) (plan : Plan) (warmup : ℕ)

def mock : Mock Body where
  loads := rig.deployment.codec.loads
  draws := rig.draws

/-- `POST /control/webhook`. -/
def controlRoute : Route Sequences Body :=
  toRoute rig.deployment.codec (controlWebhook rig.deployment.service)

/-- `POST /messages`. -/
def messagesRoute : Route ℕ Body :=
  toRoute rig.deployment.codec fun messageIds raw =>
    ((messages rig.mock messageIds raw).1,
      (messages rig.mock messageIds raw).2.map Handled.answer)

/-- `senders[case](index)`. -/
def send (s : Servers) (index : ℕ) : Case → Servers × Except Failure (Sample Body)
  | .A =>
      let (sequences, result) := exchange rig.deployment.codec rig.deployment.client
        rig.deployment.route (plan.delivery index .A) s.sequences
        (makeWebhookPayload (plan.webhookDraws index) index)
      (⟨sequences, s.messageIds⟩, result.map .checked)
  | .AControl =>
      let (sequences, result) := plainExchange rig.deployment.codec rig.controlRoute
        (plan.delivery index .AControl) s.sequences
        (makeWebhookPayload (plan.webhookDraws index) index)
      (⟨sequences, s.messageIds⟩, result.map fun r => .plain r.1 r.2)
  | .B =>
      let (messageIds, result) := plainExchange rig.deployment.codec rig.messagesRoute
        (plan.delivery index .B) s.messageIds
        (makeFarewellPayload (plan.farewellDraws index) index)
      (⟨s.sequences, messageIds⟩, result.map fun r => .plain r.1 r.2)

/-- The requests of all rounds, in their order. -/
def turns (rounds : ℕ) : List (ℕ × Case) :=
  (List.range rounds).flatMap fun index => (order index).map fun case => (index, case)

/-- The loop over the rounds. -/
def loop : Servers → (Case → List Row) → List (ℕ × Case) →
    Servers × Except Failure (Case → List Row)
  | s, rows, [] => (s, .ok rows)
  | s, rows, (index, case) :: rest =>
      match rig.send plan s index case with
      | (s, .error failure) => (s, .error failure)
      | (s, .ok sample) =>
          -- the rounds of the warm-up are sent and leave no row
          if warmup ≤ index then
            match toRow case index sample with
            | .error e => (s, .error (.raised e))
            | .ok row => loop s (Function.update rows case (rows case ++ [row])) rest
          else loop s rows rest

/-- `main`, less its two requests `GET /info`, which come before the rounds and stop it too if they
fail. A `ValueError` is one of `json.loads`, a `JSONDecodeError`. -/
def main (s : Servers) (requests : ℕ) : Servers × Except PyError Finish :=
  match rig.loop plan warmup s (fun _ => []) (turns (warmup + requests)) with
  | (s, .ok rows) => (s, .ok (.saved rows))
  | (s, .error .transport) => (s, .ok .stopped)
  -- `except (httpx.TransportError, json.JSONDecodeError)`
  | (s, .error (.raised .valueError)) => (s, .ok .stopped)
  | (s, .error (.raised e)) => (s, .error e)

/-! ## The farewells of a customer -/

/-- The customer has written in the last 24 hours. -/
def isOpen (index : ℕ) : Bool :=
  decide (rig.draws (plan.farewellDraws index).customer.val ≤ window)

/-- The status that a request is to have. -/
def status (index : ℕ) : Case → ℕ
  | .B => if rig.isOpen plan index then 200 else 400
  | _ => 200

end Rig

/-! ## The order of the cases -/

/-- The place of a case in `CASES`. -/
def Case.place : Case → ℕ
  | .A => 0
  | .AControl => 1
  | .B => 2

theorem order_eq (index : ℕ) : order index = order (index % 3) := by
  have hlength : cases.length = 3 := rfl
  simp only [order, hlength, Nat.mod_mod]

theorem order_filter (index : ℕ) (case : Case) :
    (order index).filter (fun c => c = case) = [case] := by
  have hsmall : ∀ case : Case, ∀ k < 3, (order k).filter (fun c => c = case) = [case] := by
    intro case
    cases case <;> decide
  rw [order_eq]
  exact hsmall case _ (Nat.mod_lt _ (by decide))

theorem order_perm (index : ℕ) : (order index).Perm cases := by
  have hsmall : ∀ k < 3, (order k).Perm cases := by decide
  rw [order_eq]
  exact hsmall _ (Nat.mod_lt _ (by decide))

theorem order_getElem (index : ℕ) {j : ℕ} (hj : j < 3) (case : Case) :
    (order index)[j]? = some case ↔ index % 3 = (case.place + 3 - j) % 3 := by
  -- the shift is taken modulo 3, so three rounds show them all
  have hsmall : ∀ case : Case, ∀ k < 3, ∀ j < 3,
      (order k)[j]? = some case ↔ k = (case.place + 3 - j) % 3 := by
    intro case
    cases case <;> decide
  rw [order_eq]
  exact hsmall case _ (Nat.mod_lt _ (by decide)) j hj

/-- How often a case comes at a place in so many rounds. -/
def timesAt (rounds j : ℕ) (case : Case) : ℕ :=
  (List.range rounds).countP fun index => (order index)[j]? = some case

theorem timesAt_eq (rounds : ℕ) {j : ℕ} (hj : j < 3) (case : Case) :
    timesAt rounds j case = Rotation.turns 3 ((case.place + 3 - j) % 3) rounds := by
  induction rounds with
  | zero => rfl
  | succ rounds ih =>
      unfold timesAt at ih ⊢
      rw [List.range_succ, List.countP_append, ih, Rotation.turns_succ, List.countP_singleton]
      simp only [order_getElem rounds hj case, decide_eq_true_eq]

/-- **The rotation is fair.** Every round runs each case once, and in any number of rounds a case
comes at one place of a round as often as another case at another place, up to one. -/
theorem rotation_fair (rounds : ℕ) (case case' : Case) {j j' : ℕ} (hj : j < 3) (hj' : j' < 3) :
    (∀ index, (order index).Perm cases) ∧
      timesAt rounds j case ≤ timesAt rounds j' case' + 1 := by
  refine ⟨order_perm, ?_⟩
  rw [timesAt_eq rounds hj, timesAt_eq rounds hj']
  exact Rotation.turns_le_succ (Nat.mod_lt _ (by decide)) (Nat.mod_lt _ (by decide)) rounds

theorem rotation_fair_four : timesAt 4 0 .A ≤ timesAt 4 2 .B + 1 :=
  (rotation_fair 4 .A .B (by decide) (by decide)).2

/-! ## The services on what is generated -/

theorem farewells_portable {depth : ℕ} :
    ∀ body ∈ farewells, PortableWithin depth (.str body) := by
  simp only [farewells, List.forall_mem_cons]
  exact ⟨.str (text_unpaired _), .str (text_unpaired _), .str (text_unpaired _),
    List.forall_mem_nil _⟩

theorem farewell_portable (draws : FarewellDraws) (index : ℕ) :
    Portable (makeFarewellPayload draws index) := by
  have hmeta : ∀ depth, PortableWithin (depth + 1)
      (.obj [(text "conv_version", .int (draws.convVersion.val + 1 : ℕ)),
        (text "lease_epoch", .int (draws.leaseEpoch.val + 1 : ℕ))]) := by
    intro depth
    refine portable_object ["conv_version", "lease_epoch"] rfl (by decide) ?_
    simp only [List.forall_mem_cons]
    exact ⟨.int (short_of_lt (by omega)), .int (short_of_lt (by omega)), List.forall_mem_nil _⟩
  refine portable_object ["customer_id", "kind", "in_reply_to", "body", "fencing_meta"] rfl
    (by decide) ?_
  simp only [List.forall_mem_cons]
  exact ⟨numbered_portable _ _ _, .str (text_unpaired _), numbered_portable _ _ _,
    farewells_portable _ (List.get_mem _ _), hmeta _, List.forall_mem_nil _⟩

theorem sent_portable (messageId : ℕ) : Portable (sent messageId) := by
  refine portable_object ["status", "message_id"] rfl (by decide) ?_
  simp only [List.forall_mem_cons]
  exact ⟨.str (text_unpaired _), numbered_portable _ _ _, List.forall_mem_nil _⟩

theorem reEngagement_portable : Portable reEngagement := by
  have herror : ∀ depth, PortableWithin (depth + 1) (.obj [(text "code", .int errorCode),
      (text "message", .str (text "Re-engagement message"))]) := by
    intro depth
    refine portable_object ["code", "message"] rfl (by decide) ?_
    simp only [List.forall_mem_cons]
    exact ⟨.int (short_of_lt (by decide)), .str (text_unpaired _), List.forall_mem_nil _⟩
  refine portable_object ["error"] rfl (by decide) ?_
  simp only [List.forall_mem_cons]
  exact ⟨herror _, List.forall_mem_nil _⟩

/-- Every customer of the generator was seen. -/
theorem get?_customerLastSeen (draws : ℕ → ℤ) (k : Fin customers) :
    (customerLastSeen draws).get? (text "c-" ++ padded 4 k.val)
      = some (simulatedNow - draws k.val) := by
  have hkeys : (((List.range customers).map fun index =>
      (text "c-" ++ padded 4 index, simulatedNow - draws index)).map Prod.fst).Nodup := by
    rw [List.map_map]
    refine List.Nodup.map (fun m n h => ?_) List.nodup_range
    exact padded_injective 4 (List.append_cancel_left h)
  rw [Dict.get?_eq_some_iff, customerLastSeen, Dict.entries_ofPairs hkeys]
  exact List.mem_map.mpr ⟨k.val, List.mem_range.mpr k.isLt, rfl⟩

namespace Rig

variable {Body : Type} (rig : Rig Body) (plan : Plan)

/-- The control route takes a message in as the checked one does. -/
theorem controlRoute_of_storesOn (s : Sequences) {message : Json} (hportable : Portable message)
    {p : Partition} (hstores : rig.deployment.storesOn p message = true) :
    ∃ answer, rig.deployment.codec.loads (rig.deployment.codec.dumps answer) = .ok answer ∧
      rig.controlRoute s (rig.deployment.codec.dumps message)
        = (s.bump p, ⟨200, rig.deployment.codec.dumps answer⟩) := by
  obtain ⟨msgId, hunpaired, -, hingest⟩ :=
    ingest_of_storesOn rig.deployment s hportable hstores
  refine ⟨_, rig.deployment.codec.loads_dumps_accepted msgId hunpaired p (s p + 1), ?_⟩
  simp only [controlRoute, toRoute, controlWebhook, loads_of_portable rig.deployment hportable,
    hingest]

theorem windowIsOpen_farewell (index : ℕ) : windowIsOpen rig.mock
    (.str (text "c-" ++ padded 4 (plan.farewellDraws index).customer.val))
      = .ok (rig.isOpen plan index) := by
  have hget := get?_customerLastSeen rig.draws (plan.farewellDraws index).customer
  -- seen at most a day before the simulated time
  have hiff : simulatedNow
        ≤ simulatedNow - rig.draws (plan.farewellDraws index).customer.val + window
      ↔ rig.draws (plan.farewellDraws index).customer.val ≤ window := by
    constructor <;> intro h <;> omega
  simp only [windowIsOpen, getKey, mock, hget, isOpen, ← hiff]
  rfl

/-- A farewell is sent, or refused because of its customer. -/
theorem messagesRoute_farewell (messageIds index : ℕ) :
    ∃ answer, Portable answer ∧
      isExpectedB (rig.status plan index .B) answer = .ok true ∧
      rig.messagesRoute messageIds
          (rig.deployment.codec.dumps (makeFarewellPayload (plan.farewellDraws index) index))
        = (messageIds + (if rig.isOpen plan index then 1 else 0),
          ⟨rig.status plan index .B, rig.deployment.codec.dumps answer⟩) := by
  have hloads : rig.mock.loads
      (rig.deployment.codec.dumps (makeFarewellPayload (plan.farewellDraws index) index))
        = .ok (makeFarewellPayload (plan.farewellDraws index) index) :=
    rig.deployment.codec.loads_dumps _ (farewell_portable _ _)
  obtain ⟨record, hmessages⟩ := messages_of_open rig.mock messageIds hloads
    (rig.windowIsOpen_farewell plan index)
  cases hopen : rig.isOpen plan index with
  | true =>
      rw [hopen] at hmessages
      refine ⟨sent messageIds, sent_portable messageIds, ?_, ?_⟩
      · simp only [status, hopen, if_true]
        rfl
      · simp only [messagesRoute, toRoute, hmessages, status, hopen, if_true, Except.map]
  | false =>
      rw [hopen] at hmessages
      refine ⟨reEngagement, reEngagement_portable, ?_, ?_⟩
      · simp only [status, hopen, Bool.false_eq_true, if_false]
        decide
      · simp only [messagesRoute, toRoute, hmessages, status, hopen, Bool.false_eq_true, if_false,
          Except.map]
        rfl

/-! ## One request -/

theorem sum_bump (s : Sequences) (p : Partition) : ∑ q, s.bump p q = ∑ q, s q + 1 := by
  -- only one partition counts the message
  have hsum := OneChange.sum_add_eq fun q (hq : q ≠ p) => bump_of_ne s hq
  rw [bump_self] at hsum
  omega

/-- What a request adds to the counters. -/
structure Adds (s s' : Servers) (index : ℕ) (case : Case) : Prop where
  sequences : ∑ p, s'.sequences p = ∑ p, s.sequences p + if case = .B then 0 else 1
  messageIds : s'.messageIds
    = s.messageIds + if case = .B ∧ rig.isOpen plan index = true then 1 else 0

/-- The row of a request. -/
def row (case : Case) (index : ℕ) : Row := ⟨case, index, rig.status plan index case, true⟩

/-- **One request that is delivered** gives a row as expected. -/
theorem send_delivered (hclient : AdmitsTimes rig.deployment.client.check)
    (hserver : AdmitsTimes rig.deployment.server.check) (s : Servers) {index : ℕ} {case : Case}
    (hdelivered : plan.delivery index case = .delivered) :
    ∃ s' sample, rig.send plan s index case = (s', .ok sample) ∧
      toRow case index sample = .ok (rig.row plan case index) ∧ rig.Adds plan s s' index case := by
  have hportable := payload_portable (plan.webhookDraws index) index
  obtain ⟨p, hstores⟩ := payload_stored rig.deployment hserver (plan.webhookDraws index) index
  cases case with
  | A =>
      obtain ⟨content, answer, hexchange⟩ := exchange_of_storesOn rig.deployment s.sequences
        hportable (payload_valid hclient (plan.webhookDraws index) index) hstores
      refine ⟨⟨s.sequences.bump p, s.messageIds⟩, .checked (.sent ⟨200, content⟩ answer []), ?_,
        rfl, sum_bump s.sequences p, rfl⟩
      simp only [send, hdelivered, hexchange]
      rfl
  -- the control route counts on the same partitions
  | AControl =>
      obtain ⟨answer, hanswer, hroute⟩ := rig.controlRoute_of_storesOn s.sequences hportable hstores
      refine ⟨⟨s.sequences.bump p, s.messageIds⟩, .plain 200 answer, ?_, rfl,
        sum_bump s.sequences p, rfl⟩
      simp only [send, plainExchange, hdelivered, hroute, hanswer]
      rfl
  | B =>
      obtain ⟨answer, hanswer, hexpected, hroute⟩ :=
        rig.messagesRoute_farewell plan s.messageIds index
      refine ⟨⟨s.sequences, s.messageIds + if rig.isOpen plan index then 1 else 0⟩,
        .plain (rig.status plan index .B) answer, ?_, ?_, ?_, ?_⟩
      · simp only [send, plainExchange, hdelivered, hroute,
          rig.deployment.codec.loads_dumps answer hanswer]
        rfl
      · simp only [toRow, hexpected]
        rfl
      · rw [if_pos rfl, Nat.add_zero]
      · simp only [true_and]

/-- A request that is not delivered, or its answer is not. -/
theorem send_lost (hclient : AdmitsTimes rig.deployment.client.check) (s : Servers) {index : ℕ}
    {case : Case} (hlost : plan.delivery index case ≠ .delivered) :
    ∃ s', rig.send plan s index case = (s', .error .transport) := by
  -- the client's own check passes, so the network decides
  have herrors := (collectErrors_of_sends rig.deployment).mp
    (payload_valid hclient (plan.webhookDraws index) index)
  cases hdelivery : plan.delivery index case with
  | delivered => exact absurd hdelivery hlost
  | requestLost =>
      cases case <;>
        exact ⟨_, by simp only [send, exchange, plainExchange, hdelivery, herrors]; rfl⟩
  | responseLost =>
      cases case <;>
        exact ⟨_, by simp only [send, exchange, plainExchange, hdelivery, herrors]; rfl⟩

/-! ## The rounds -/

/-- The rows of a case that some requests leave. -/
def rowsOf (warmup : ℕ) (run : List (ℕ × Case)) (case : Case) : List Row :=
  (run.filter fun t => t.2 = case ∧ warmup ≤ t.1).map fun t => rig.row plan case t.1

/-- **The loop over requests that are all delivered.** -/
theorem loop_delivered (hclient : AdmitsTimes rig.deployment.client.check)
    (hserver : AdmitsTimes rig.deployment.server.check) (warmup : ℕ) (run : List (ℕ × Case))
    (hdelivered : ∀ t ∈ run, plan.delivery t.1 t.2 = .delivered) (s : Servers)
    (rows : Case → List Row) :
    ∃ s', rig.loop plan warmup s rows run
        = (s', .ok fun case => rows case ++ rig.rowsOf plan warmup run case) ∧
      ∑ p, s'.sequences p = ∑ p, s.sequences p + run.countP (fun t => t.2 ≠ .B) ∧
      s'.messageIds
        = s.messageIds + run.countP fun t => t.2 = .B ∧ rig.isOpen plan t.1 = true := by
  induction run generalizing s rows with
  | nil => exact ⟨s, by simp [loop, rowsOf], rfl, rfl⟩
  | cons t rest ih =>
      obtain ⟨index, case⟩ := t
      obtain ⟨hhere, hrest⟩ := List.forall_mem_cons.mp hdelivered
      -- the induction is on the requests, from any counters and rows so far
      obtain ⟨s₁, sample, hsend, hrow, hadds⟩ :=
        rig.send_delivered plan hclient hserver s hhere
      -- the rows after this request, and after the others
      have hrows : ∃ rows₁, rig.loop plan warmup s rows ((index, case) :: rest)
          = rig.loop plan warmup s₁ rows₁ rest ∧
          (∀ c, rows₁ c ++ rig.rowsOf plan warmup rest c
            = rows c ++ rig.rowsOf plan warmup ((index, case) :: rest) c) := by
        by_cases hwarm : warmup ≤ index
        · refine ⟨Function.update rows case (rows case ++ [rig.row plan case index]), ?_,
            fun c => ?_⟩
          · rw [loop]
            simp only [hsend, hwarm, if_true, hrow]
          · by_cases hc : c = case
            · subst hc
              simp [rowsOf, hwarm]
            · have hc' : ¬ case = c := fun h => hc h.symm
              simp [rowsOf, hc, hc']
        · refine ⟨rows, ?_, fun c => ?_⟩
          · rw [loop]
            simp only [hsend, hwarm, if_false]
          · simp [rowsOf, hwarm]
      obtain ⟨rows₁, hloop, hsame⟩ := hrows
      obtain ⟨s', hrun, hsequences, hids⟩ := ih hrest s₁ rows₁
      refine ⟨s', ?_, ?_, ?_⟩
      · rw [hloop, hrun]
        simp only [hsame]
      · rw [hsequences, hadds.sequences, List.countP_cons]
        by_cases hB : case = .B
        · simp [hB]
        · simp only [hB, ne_eq, not_false_eq_true, if_false, decide_true, if_true]
          omega
      · rw [hids, hadds.messageIds, List.countP_cons]
        by_cases hB : case = .B ∧ rig.isOpen plan index = true
        · simp only [hB, and_self, if_true, decide_true]
          omega
        · simp only [hB, if_false, decide_false, Bool.false_eq_true, Nat.add_zero]

/-- A request that is lost ends the loop. -/
theorem loop_lost (hclient : AdmitsTimes rig.deployment.client.check)
    (hserver : AdmitsTimes rig.deployment.server.check) (warmup : ℕ) (run : List (ℕ × Case))
    (hlost : ∃ t ∈ run, plan.delivery t.1 t.2 ≠ .delivered) (s : Servers)
    (rows : Case → List Row) : ∃ s', rig.loop plan warmup s rows run = (s', .error .transport) := by
  induction run generalizing s rows with
  | nil =>
      obtain ⟨t, ht, -⟩ := hlost
      cases ht
  | cons t rest ih =>
      obtain ⟨index, case⟩ := t
      by_cases hhere : plan.delivery index case = .delivered
      · have hlater : ∃ t ∈ rest, plan.delivery t.1 t.2 ≠ .delivered := by
          obtain ⟨t, ht, hnot⟩ := hlost
          rcases List.mem_cons.mp ht with rfl | ht
          · exact absurd hhere hnot
          · exact ⟨t, ht, hnot⟩
        -- a delivered request goes on to the lost one, with or without a row
        obtain ⟨s₁, sample, hsend, hrow, -⟩ := rig.send_delivered plan hclient hserver s hhere
        rw [loop]
        simp only [hsend, hrow]
        split
        · exact ih hlater _ _
        · exact ih hlater _ _
      · obtain ⟨s₁, hsend⟩ := rig.send_lost plan hclient s hhere
        exact ⟨s₁, by rw [loop]; simp only [hsend]⟩

theorem turns_succ (rounds : ℕ) :
    turns (rounds + 1) = turns rounds ++ (order rounds).map fun case => (rounds, case) := by
  rw [turns, List.range_succ, List.flatMap_append, List.flatMap_singleton]
  rfl

theorem mem_turns {rounds index : ℕ} {case : Case} :
    (index, case) ∈ turns rounds ↔ index < rounds := by
  have hcase : case ∈ order index := (order_perm index).mem_iff.mpr (by cases case <;> decide)
  simp only [turns, List.mem_flatMap, List.mem_range, List.mem_map, Prod.mk.injEq]
  constructor
  · rintro ⟨k, hk, c, -, rfl, -⟩
    exact hk
  · exact fun h => ⟨index, h, case, hcase, rfl, rfl⟩

theorem rowsOf_turns (warmup rounds : ℕ) (case : Case) :
    rig.rowsOf plan warmup (turns rounds) case
      = ((List.range rounds).filter fun index => warmup ≤ index).map (rig.row plan case) := by
  induction rounds with
  | zero => rfl
  | succ rounds ih =>
      -- a round has one request of each case, wherever it comes
      have hround : rig.rowsOf plan warmup ((order rounds).map fun case => (rounds, case)) case
          = if warmup ≤ rounds then [rig.row plan case rounds] else [] := by
        rw [rowsOf, List.filter_map, List.map_map]
        by_cases hwarm : warmup ≤ rounds
        · simp [Function.comp_def, hwarm, order_filter]
        · simp [Function.comp_def, hwarm]
      have happend : ∀ run run' : List (ℕ × Case), rig.rowsOf plan warmup (run ++ run') case
          = rig.rowsOf plan warmup run case ++ rig.rowsOf plan warmup run' case := by
        intro run run'
        rw [rowsOf, List.filter_append, List.map_append]
        rfl
      rw [turns_succ, happend, ih, hround, List.range_succ, List.filter_append, List.map_append]
      by_cases hwarm : warmup ≤ rounds <;> simp [hwarm]

/-- Two requests of each round are for the ingestion service. -/
theorem countP_turns (rounds : ℕ) : (turns rounds).countP (fun t => t.2 ≠ .B) = 2 * rounds := by
  induction rounds with
  | zero => rfl
  | succ rounds ih =>
      have hround : (order rounds).countP (fun c => decide (c ≠ .B)) = 2 :=
        (order_perm rounds).countP_eq _
      rw [turns_succ, List.countP_append, ih, List.countP_map]
      simp only [Function.comp_def, hround]
      omega

theorem countP_turns_open (rounds : ℕ) :
    (turns rounds).countP (fun t => t.2 = .B ∧ rig.isOpen plan t.1 = true)
      = (List.range rounds).countP (rig.isOpen plan) := by
  induction rounds with
  | zero => rfl
  | succ rounds ih =>
      have hround : (order rounds).countP
          (fun c => decide (c = .B ∧ rig.isOpen plan rounds = true))
            = if rig.isOpen plan rounds = true then 1 else 0 := by
        rw [(order_perm rounds).countP_eq]
        by_cases hopen : rig.isOpen plan rounds = true
        · simp [hopen, cases]
        · simp [hopen]
      rw [turns_succ, List.countP_append, ih, List.countP_map, List.range_succ, List.countP_append,
        List.countP_singleton]
      simp only [Function.comp_def, hround]

theorem range_filter (warmup requests : ℕ) :
    (List.range (warmup + requests)).filter (fun index => warmup ≤ index)
      = List.range' warmup requests := by
  -- the rounds split at the end of the warm-up
  have hfirst : (List.range warmup).filter (fun index => decide (warmup ≤ index)) = [] :=
    List.filter_eq_nil_iff.mpr fun index hindex => by
      have := List.mem_range.mp hindex
      simpa using this
  have hlater : (List.range' warmup requests).filter (fun index => decide (warmup ≤ index))
      = List.range' warmup requests :=
    List.filter_eq_self.mpr fun index hindex => by
      simpa using (List.mem_range'_1.mp hindex).1
  rw [List.range_eq_range', ← List.range'_append_1, List.filter_append, Nat.zero_add,
    ← List.range_eq_range', hfirst, hlater, List.nil_append]

/-- **The samples of a benchmark.** Let the formats of both sides admit the times of the generator.
If every request is delivered, there is exactly one row for each case and round behind the warm-up,
in their order, all as expected: with status 200, but for the farewells to customers who have not
written in the last 24 hours, with 400. The counters of the partitions have gone up by two a round,
and the mock has given an id to each of the other farewells, the warm-up included. If a request or
an answer is lost, nothing is saved. -/
theorem benchmark_samples (hclient : AdmitsTimes rig.deployment.client.check)
    (hserver : AdmitsTimes rig.deployment.server.check) (s : Servers) (warmup requests : ℕ) :
    ((∀ index < warmup + requests, ∀ case, plan.delivery index case = .delivered) →
      (rig.main plan warmup s requests).2
          = .ok (.saved fun case => (List.range' warmup requests).map (rig.row plan case)) ∧
        ∑ p, (rig.main plan warmup s requests).1.sequences p
          = ∑ p, s.sequences p + 2 * (warmup + requests) ∧
        (rig.main plan warmup s requests).1.messageIds
          = s.messageIds + (List.range (warmup + requests)).countP (rig.isOpen plan)) ∧
      ((∃ index < warmup + requests, ∃ case, plan.delivery index case ≠ .delivered) →
        (rig.main plan warmup s requests).2 = .ok .stopped) := by
  constructor
  · intro hdelivered
    obtain ⟨s', hloop, hsequences, hids⟩ := rig.loop_delivered plan hclient hserver warmup
      (turns (warmup + requests)) (fun t ht => hdelivered t.1 (mem_turns.mp ht) t.2) s fun _ => []
    have hrows : (fun case => [] ++ rig.rowsOf plan warmup (turns (warmup + requests)) case)
        = fun case => (List.range' warmup requests).map (rig.row plan case) := by
      funext case
      rw [List.nil_append, rowsOf_turns, range_filter]
    rw [hrows] at hloop
    rw [countP_turns] at hsequences
    rw [countP_turns_open] at hids
    simp only [main, hloop]
    exact ⟨trivial, hsequences, hids⟩
  · rintro ⟨index, hindex, case, hlost⟩
    obtain ⟨s', hloop⟩ := rig.loop_lost plan hclient hserver warmup (turns (warmup + requests))
      ⟨(index, case), mem_turns.mpr hindex, hlost⟩ s fun _ => []
    simp only [main, hloop]

end Rig

def plainRig : Rig (Option Json) := ⟨plainDeployment, fun _ => 0⟩

def plainPlan (delivery : ℕ → Case → Delivery) : Plan where
  webhookDraws _ := plainDraws
  farewellDraws _ := ⟨plainDraws.customer, ⟨0, by decide⟩, ⟨2, by decide⟩, ⟨0, by decide⟩⟩
  delivery := delivery

/-- One round to warm up, and two that leave rows. -/
theorem benchmark_samples_two :
    (plainRig.main (plainPlan fun _ _ => .delivered) 1 ⟨fun _ => 0, 1⟩ 2).2
        = .ok (.saved fun case => (List.range' 1 2).map
          (plainRig.row (plainPlan fun _ _ => .delivered) case)) ∧
      (plainRig.main (plainPlan fun _ _ => .responseLost) 1 ⟨fun _ => 0, 1⟩ 2).2 = .ok .stopped :=
  ⟨((plainRig.benchmark_samples (plainPlan fun _ _ => .delivered) (fun _ => rfl) (fun _ => rfl)
      ⟨fun _ => 0, 1⟩ 1 2).1 fun _ _ _ => rfl).1,
    (plainRig.benchmark_samples (plainPlan fun _ _ => .responseLost) (fun _ => rfl) (fun _ => rfl)
      ⟨fun _ => 0, 1⟩ 1 2).2 ⟨0, by decide, .A, by decide⟩⟩

end Webhook.Benchmark
