import DistWorkshops.Lib.Server
import DistWorkshops.Webhook.WaMock

/-!
# The message ids of the mock

The handler draws the next number of `message_ids` on one of its four ways out only, that of an
answer with status 200, and nothing raises behind it. So the ids of a run are numbered by the rule
of the server. They differ also where the number is wider than its padding, since zeros in front do
not change a number.
-/

set_option autoImplicit false

namespace Webhook.WaMock

open Json Server

/-! ## Ids -/

/-- The id made from the number `n`. -/
def messageId (n : ℕ) : Json := .str (text "wamid." ++ padded 6 n)

theorem padded_injective (width : ℕ) : Function.Injective (padded width) := by
  intro m n h
  have hchars : Function.Injective fun c : Char => (⟨c.toNat, toNat_lt c⟩ : Fin 0x110000) := by
    intro c d hcd
    have hval : c.toNat = d.toNat := Fin.mk.inj hcd
    exact Char.toNat_inj.mp hval
  exact Decimal.leftpad_digits_injective width (hchars.list_map h)

theorem messageId_injective : Function.Injective messageId := by
  intro m n h
  have hpadded : padded 6 m = padded 6 n := List.append_cancel_left (Json.str.inj h)
  exact padded_injective 6 hpadded

/-! ## One request -/

/-- One request to `/messages` and its answer, or the exception that the handler let through. -/
abbrev Call (Body : Type) := Exchange ℕ Body (Except PyError Handled)

/-- The request is answered with status 200. -/
def isSent {Body : Type} (call : Call Body) : Bool :=
  match call.answer with
  | .ok handled => handled.answer.statusCode == 200
  | .error _ => false

/-- The message id in the answer. -/
def answeredId {Body : Type} (call : Call Body) : Option Json :=
  match call.answer with
  | .ok handled => handled.answer.document.field? (text "message_id")
  | .error _ => none

section Calls

variable {Body : Type} (mock : Mock Body)

/-- **What a request can do**: it is answered 200 and uses up the next number, or it is not
answered 200 and leaves the numbers alone. -/
theorem messages_cases (messageIds : ℕ) (raw : Body) :
    (∃ record, messages mock messageIds raw =
        (messageIds + 1, .ok ⟨⟨200, sent messageIds⟩, record⟩)) ∨
      ∃ result, messages mock messageIds raw = (messageIds, result) ∧
        ∀ handled, result = .ok handled → handled.answer.statusCode = 400 := by
  cases hloads : mock.loads raw with
  | error e =>
      refine Or.inr ?_
      cases e with
      | valueError error =>
          refine ⟨.ok ⟨⟨400, invalidJson error⟩, none⟩, by simp only [messages, hloads], ?_⟩
          rintro handled ⟨rfl⟩
          rfl
      | other e =>
          refine ⟨.error e, by simp only [messages, hloads], ?_⟩
          intro handled h
          cases h
  | ok message =>
      by_cases hobj : ∃ entries, message = .obj entries
      · obtain ⟨entries, rfl⟩ := hobj
        cases hopen : windowIsOpen mock ((entries.lookup (text "customer_id")).getD .null) with
        | error e =>
            refine Or.inr ⟨.error e, by simp only [messages, hloads, getField, hopen], ?_⟩
            intro handled h
            cases h
        | ok isOpen =>
            obtain ⟨record, hmessages⟩ := messages_of_open mock messageIds hloads hopen
            cases isOpen with
            | true => exact Or.inl ⟨some record, hmessages⟩
            | false =>
                refine Or.inr ⟨_, hmessages, ?_⟩
                rintro handled ⟨rfl⟩
                rfl
      · have hfield := getField_of_no_object (fun entries h => hobj ⟨entries, h⟩)
          (text "customer_id")
        refine Or.inr ⟨.error .attributeError, by simp only [messages, hloads, hfield], ?_⟩
        intro handled h
        cases h

/-- A call that is answered 200 carries the number that it uses up; another one uses none. -/
theorem exchange_cases (messageIds : ℕ) (raw : Body) :
    (isSent (exchange (messages mock) messageIds raw) = true ∧
        (messages mock messageIds raw).1 = messageIds + 1 ∧
        answeredId (exchange (messages mock) messageIds raw) = some (messageId messageIds)) ∨
      (isSent (exchange (messages mock) messageIds raw) = false ∧
        (messages mock messageIds raw).1 = messageIds) := by
  rcases messages_cases mock messageIds raw with ⟨record, h⟩ | ⟨result, h, hresult⟩
  · simp only [isSent, answeredId, exchange, h]
    exact Or.inl ⟨rfl, trivial, rfl⟩
  · simp only [isSent, answeredId, exchange, h]
    refine Or.inr ⟨?_, trivial⟩
    cases result with
    | error e => rfl
    | ok handled =>
        show (handled.answer.statusCode == 200) = false
        rw [hresult handled rfl]
        rfl

/-! ## Runs -/

/-- The calls of a run that are answered 200, in their order. -/
def sentCalls (bodies : List Body) : List (Call Body) :=
  (serve (messages mock) 1 bodies).filter isSent

/-- The ids of a run are those of the numbers from 1, and the counter is behind them at the end. -/
theorem sentCalls_numbered (bodies : List Body) :
    ∃ k, final (messages mock) 1 bodies = 1 + k ∧
      (sentCalls mock bodies).map answeredId =
        (List.range k).map fun i => some (messageId (i + 1)) := by
  obtain ⟨k, hfinal, hids⟩ := numbered isSent answeredId (fun messageIds => messageIds)
    (fun n => some (messageId (n - 1))) (exchange_cases mock) 1 bodies
  refine ⟨k, hfinal, ?_⟩
  rw [sentCalls, hids]
  refine List.map_congr_left fun i _ => ?_
  rw [Nat.add_sub_cancel, Nat.add_comm]

/-- **The message ids are unique.** In a run of any length the answers with status 200 carry, in
their order, the ids made from 1, 2, …; these are pairwise different. Exactly these answers use up
a number. -/
theorem message_ids_unique (bodies : List Body) :
    (∀ (i : ℕ) (call : Call Body), (sentCalls mock bodies)[i]? = some call →
        answeredId call = some (.str (text "wamid." ++ padded 6 (i + 1)))) ∧
      ((sentCalls mock bodies).map answeredId).Nodup ∧
      final (messages mock) 1 bodies = 1 + (sentCalls mock bodies).length ∧
      ∀ call ∈ serve (messages mock) 1 bodies,
        call.after = if isSent call then call.before + 1 else call.before := by
  obtain ⟨k, hfinal, hids⟩ := sentCalls_numbered mock bodies
  refine ⟨?_, ?_, ?_, ?_⟩
  · intro i call hcall
    have hget : ((sentCalls mock bodies).map answeredId)[i]? = some (answeredId call) := by
      rw [List.getElem?_map, hcall]
      rfl
    rw [hids, List.getElem?_map] at hget
    obtain ⟨j, hj, hid⟩ := Option.map_eq_some_iff.mp hget
    obtain ⟨hlt, hij⟩ := List.getElem?_eq_some_iff.mp hj
    rw [List.getElem_range] at hij
    rw [← hid, hij]
    rfl
  · rw [hids]
    apply List.nodup_range.map
    intro m n h
    exact Nat.succ.inj (messageId_injective (Option.some.inj h))
  · have hlength := congrArg List.length hids
    rw [List.length_map, List.length_map, List.length_range] at hlength
    rw [hfinal, hlength]
  · intro call hcall
    rw [mem_serve hcall]
    rcases exchange_cases mock call.before call.request with ⟨hsent, hafter, -⟩ | ⟨hsent, hafter⟩
    · rw [if_pos hsent]
      exact hafter
    · rw [hsent]
      exact hafter

end Calls

/-- A mock that has heard from every customer at its last moment; `none` is a malformed body. -/
def testMock : Mock (Option Json) where
  loads raw := raw.elim (.error (.valueError [])) .ok
  draws _ := 0

/-- A message to the customer. -/
def testMessage (customerId : String) : Option Json :=
  some (.obj [(text "customer_id", .str (text customerId))])

/-- Two messages to customers, with one to nobody and a malformed one between them. -/
def testMessages : List (Option Json) :=
  [testMessage "c-0042", testMessage "nobody", none, testMessage "c-0007"]

theorem entries_customerLastSeen (draws : ℕ → ℤ) :
    (customerLastSeen draws).entries = (List.range customers).map fun index =>
      (text "c-" ++ padded 4 index, simulatedNow - draws index) := by
  refine Dict.entries_ofPairs ?_
  rw [List.map_map]
  refine List.nodup_range.map fun m n h => ?_
  exact padded_injective 4 (List.append_cancel_left h)

theorem windowIsOpen_testMock :
    windowIsOpen testMock (.str (text "c-0042")) = .ok true ∧
      windowIsOpen testMock (.str (text "nobody")) = .ok false ∧
      windowIsOpen testMock (.str (text "c-0007")) = .ok true := by
  -- the table of the customers is taken as a list of pairs, not built one entry after the other
  simp only [windowIsOpen, getKey, Dict.get?, entries_customerLastSeen]
  decide +kernel

/-- Whether a message to a customer is sent is told by the window. -/
theorem isSent_testMessage {customerId : String} {isOpen : Bool}
    (hopen : windowIsOpen testMock (.str (text customerId)) = .ok isOpen) (messageIds : ℕ) :
    isSent (exchange (messages testMock) messageIds (testMessage customerId)) = isOpen := by
  have hloads : testMock.loads (testMessage customerId)
      = .ok (.obj [(text "customer_id", .str (text customerId))]) := rfl
  obtain ⟨record, h⟩ := messages_of_open testMock messageIds hloads hopen
  rw [exchange, isSent, h]
  cases isOpen with
  | true => rfl
  | false => rfl

theorem message_ids_unique_test :
    (serve (messages testMock) 1 testMessages).map isSent = [true, false, false, true] ∧
      ((sentCalls testMock testMessages).map answeredId).Nodup ∧
      final (messages testMock) 1 testMessages = 1 + (sentCalls testMock testMessages).length := by
  obtain ⟨h42, hnobody, h7⟩ := windowIsOpen_testMock
  have hmalformed : ∀ n, isSent (exchange (messages testMock) n none) = false := fun n => rfl
  refine ⟨?_, (message_ids_unique testMock testMessages).2.1,
    (message_ids_unique testMock testMessages).2.2.1⟩
  simp only [testMessages, serve, List.map_cons, List.map_nil, hmalformed, isSent_testMessage h42,
    isSent_testMessage hnobody, isSent_testMessage h7]

/-- The millionth id is one digit wider than the padding. -/
example : messageId 7 = .str (text "wamid.000007") ∧
    messageId 1000000 = .str (text "wamid.1000000") := ⟨rfl, rfl⟩

end Webhook.WaMock
