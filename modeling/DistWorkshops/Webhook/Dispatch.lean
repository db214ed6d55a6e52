import Mathlib.Data.Fintype.BigOperators
import DistWorkshops.Webhook.Client

/-!
# Runs of the webhook client

The loop of `main` in `webhook_client.py`, over any messages and whatever becomes of them on the
network: the exit code and the counters of the service at the end (`dispatch_outcome`). The
payloads of the generator all go through (`main_accepts_generated`).
-/

set_option autoImplicit false

namespace Webhook

open Json JsonSchema WaMock

/-! ## Runs of the client -/

section Runs

variable {Body : Type} (d : Deployment Body)

theorem storesOn_unique {message : Json} {p q : Partition} (hp : d.storesOn p message = true)
    (hq : d.storesOn q message = true) : p = q := by
  obtain ⟨-, hp⟩ := Bool.and_eq_true_iff.mp hp
  obtain ⟨-, hq⟩ := Bool.and_eq_true_iff.mp hq
  exact Option.some.inj ((beq_iff_eq.mp hp).symm.trans (beq_iff_eq.mp hq))

/-- What a request adds to the counters. -/
theorem route_counts (s : Sequences) {message : Json} (hportable : Portable message)
    (p : Partition) : (d.route s (d.codec.dumps message)).1 p
      = s p + if d.storesOn p message = true then 1 else 0 := by
  by_cases hstores : ∃ q, d.storesOn q message = true
  · obtain ⟨q, hq⟩ := hstores
    obtain ⟨msgId, -, -, hroute⟩ := route_of_storesOn d s hportable hq
    rw [hroute]
    by_cases hpq : p = q
    · subst hpq
      rw [if_pos hq]
      exact bump_self s p
    · rw [if_neg fun hp => hpq (storesOn_unique d hp hq)]
      exact bump_of_ne s hpq
  · have hnone : ∀ q, ¬ d.storesOn q message = true := not_exists.mp hstores
    rw [(route_of_not_storesOn d s hportable hnone).1, if_neg (hnone p)]
    rfl

theorem accepts_iff {message : Json} :
    d.accepts message = true ↔ d.sends message = true ∧ ∃ p, d.storesOn p message = true := by
  simp only [Deployment.accepts, Deployment.storesOn, Bool.and_eq_true, beq_iff_eq,
    Option.isSome_iff_exists, and_assoc, exists_and_left]

/-- **One exchange of the loop**: what is delivered is stored and reported if it is accepted. -/
theorem exchange_delivered (s : Sequences) {message : Json} (hportable : Portable message)
    (hsends : d.sends message = true) :
    ∃ result, exchange d.codec d.client d.route .delivered s message
        = ((d.route s (d.codec.dumps message)).1, .ok result) ∧
      report result = d.accepts message := by
  by_cases hstores : ∃ p, d.storesOn p message = true
  · obtain ⟨p, hp⟩ := hstores
    obtain ⟨msgId, -, -, hroute⟩ := route_of_storesOn d s hportable hp
    obtain ⟨content, answer, hexchange⟩ := exchange_of_storesOn d s hportable hsends hp
    rw [hroute]
    exact ⟨_, hexchange, ((accepts_iff d).mpr ⟨hsends, p, hp⟩).symm⟩
  · have hnone := not_exists.mp hstores
    obtain ⟨result, hexchange, hreport⟩ :=
      exchange_of_not_storesOn d s hportable hsends hnone
    refine ⟨result, by rw [(route_of_not_storesOn d s hportable hnone).1, hexchange], ?_⟩
    rw [hreport, eq_comm, ← Bool.not_eq_true]
    exact fun h => hstores ((accepts_iff d).mp h).2

/-- The count of the partition goes on from the first exchange. -/
theorem countP_attempted_cons (p : Partition) (x : Json × Delivery)
    (rest : List (Json × Delivery)) : (d.attempted (x :: rest)).countP (d.storedOn p)
      = (if d.storedOn p x = true then 1 else 0)
        + if d.fails x = true then 0 else (d.attempted rest).countP (d.storedOn p) := by
  rw [Deployment.attempted]
  by_cases hfails : d.fails x = true
  · rw [if_pos hfails, if_pos hfails, List.countP_cons, List.countP_nil, Nat.add_comm]
  · rw [if_neg hfails, if_neg hfails, List.countP_cons, Nat.add_comm]

/-- The loop from any counters and with any result so far. -/
theorem dispatch_spec (run : List (Json × Delivery)) (hportable : ∀ x ∈ run, Portable x.1)
    (s : Sequences) (allOk : Bool) :
    (dispatch d.codec d.client d.route s allOk run).2
        = .ok (if run.any d.fails then 2
          else if allOk && run.all fun x => d.accepts x.1 then 0 else 1) ∧
      ∀ p, (dispatch d.codec d.client d.route s allOk run).1 p
        = s p + (d.attempted run).countP (d.storedOn p) := by
  induction run generalizing s allOk with
  | nil => exact ⟨by cases allOk <;> rfl, fun p => rfl⟩
  | cons x rest ih =>
      obtain ⟨message, delivery⟩ := x
      obtain ⟨hmessage, hrest⟩ := List.forall_mem_cons.mp hportable
      -- by what the client sends, and then by what becomes of it
      by_cases hsends : d.sends message = true
      · cases delivery with
        | delivered =>
            obtain ⟨result, hexchange, hreport⟩ := exchange_delivered d s hmessage hsends
            have hfails : d.fails (message, .delivered) = false := by
              simp [Deployment.fails]
            obtain ⟨hcode, hcounts⟩ := ih hrest (d.route s (d.codec.dumps message)).1
              (report result && allOk)
            simp only [dispatch, hexchange]
            refine ⟨?_, fun p => ?_⟩
            · rw [hcode, hreport, List.any_cons, hfails, Bool.false_or, List.all_cons,
                Bool.and_comm (d.accepts message), Bool.and_assoc]
            · rw [hcounts p, route_counts d s hmessage p, countP_attempted_cons, hfails]
              simp only [Deployment.storedOn, hsends, Bool.true_and, Bool.false_eq_true, if_false]
              rw [Nat.add_assoc]
              rfl
        | requestLost =>
            have hfails : d.fails (message, .requestLost) = true := by
              simp [Deployment.fails, hsends]
            simp only [dispatch, exchange, (collectErrors_of_sends d).mp hsends]
            refine ⟨by rw [List.any_cons, hfails]; rfl, fun p => ?_⟩
            rw [countP_attempted_cons, hfails]
            simp [Deployment.storedOn]
        | responseLost =>
            have hfails : d.fails (message, .responseLost) = true := by
              simp [Deployment.fails, hsends]
            simp only [dispatch, exchange, (collectErrors_of_sends d).mp hsends]
            -- the service has counted the message, though the client stops with 2
            refine ⟨by rw [List.any_cons, hfails]; rfl, fun p => ?_⟩
            rw [route_counts d s hmessage p, countP_attempted_cons, hfails]
            simp only [Deployment.storedOn, hsends, Bool.true_and, if_true, Nat.add_zero]
            rfl
      · -- the client blocks the message, whatever would have become of it
        obtain ⟨errors, -, hexchange⟩ := exchange_of_blocked d s delivery hsends
        have hno : d.sends message = false := Bool.not_eq_true _ ▸ hsends
        have hfails : d.fails (message, delivery) = false := by
          simp [Deployment.fails, hno]
        obtain ⟨hcode, hcounts⟩ := ih hrest s false
        simp only [dispatch, hexchange, report, Bool.false_and]
        refine ⟨?_, fun p => ?_⟩
        · rw [hcode, List.any_cons, hfails, Bool.false_or, List.all_cons, Deployment.accepts, hno]
          simp
        · rw [hcounts p, countP_attempted_cons, hfails]
          simp [Deployment.storedOn, hno]

/-- **A run of the client.** Let the messages be documents that JSON gives back. The exit code is 2
exactly if a message that the client sends is not delivered, or its answer is not, and else 0
exactly if all messages go through: both sides find them valid and they have a partition. The
counter of each partition goes up by the messages for it that reached the service, among those up
to the first failure of the network; a message that the client blocks reaches it never, and one
whose answer is lost has reached it. -/
theorem dispatch_outcome (s : Sequences) (run : List (Json × Delivery))
    (hportable : ∀ x ∈ run, Portable x.1) :
    (d.main s run).2 = .ok (if run.any d.fails then 2
        else if run.all fun x => d.accepts x.1 then 0 else 1) ∧
      ∀ p, (d.main s run).1 p = s p + (d.attempted run).countP (d.storedOn p) := by
  have h := dispatch_spec d run hportable s true
  rw [Bool.true_and] at h
  exact h

end Runs

/-- `json` on documents that are sent as they are, and the page of a server. -/
def plainCodec : Codec (Option Json) where
  dumps := some
  loads raw := raw.elim (.error (.valueError [])) .ok
  errorPage := none
  loads_dumps _ _ := rfl
  loads_dumps_accepted _ _ _ _ := rfl
  loads_dumps_rejection errors := ⟨rejection errors, rfl⟩
  loads_errorPage := ⟨[], rfl⟩

def plainSide : Side where
  check _ _ := true
  requestValidator := .ofValid _ _
  responseValidator := .ofValid _ _

def plainDeployment : Deployment (Option Json) where
  codec := plainCodec
  sha256 _ := digestOfTest
  client := plainSide
  server := plainSide

/-- A message that goes through, one that is blocked, and one whose answer is lost. -/
theorem dispatch_outcome_three :
    (plainDeployment.main (fun _ => 0) [(requestOf (text "c-042"), .delivered),
        (.null, .delivered), (requestOf (text "c-042"), .responseLost)]).2 = .ok 2 ∧
      (plainDeployment.main (fun _ => 0) [(requestOf (text "c-042"), .delivered),
        (.null, .delivered), (requestOf (text "c-042"), .responseLost)]).1 3 = 2 := by
  have hrequest : Portable (requestOf (text "c-042")) := by
    refine portable_object ["msg_id", "customer_id", "session_id", "t_customer", "body",
      "delivery_attempt"] rfl (by decide) ?_
    simp only [List.forall_mem_cons]
    exact ⟨.str (text_unpaired _), .str (text_unpaired _), .str (text_unpaired _),
      .str (text_unpaired _), .str (text_unpaired _), .int (short_of_lt (by decide)),
      List.forall_mem_nil _⟩
  have hrun := dispatch_outcome plainDeployment (fun _ => 0)
    [(requestOf (text "c-042"), .delivered), (.null, .delivered),
      (requestOf (text "c-042"), .responseLost)]
    (by simp only [List.forall_mem_cons]; exact ⟨hrequest, .null, hrequest, List.forall_mem_nil _⟩)
  refine ⟨hrun.1.trans ?_, (hrun.2 3).trans ?_⟩
  · rfl
  · rfl

/-! ## The generated payloads -/

theorem scalar_tCustomer (seconds : Fin 86400) : Scalar (tCustomer seconds) := by
  have htwo := scalar_padded 2
  exact ((((((((((scalar_text _).append (htwo _)).append (scalar_text _)).append (htwo _)).append
    (scalar_text _)).append (htwo _)).append (scalar_text _)).append (htwo _)).append
      (scalar_text _)))

/-- A number behind a literal, as the ids of the generator are. -/
theorem numbered_portable {depth : ℕ} (s : String) (width n : ℕ) :
    PortableWithin depth (.str (text s ++ padded width n)) :=
  .str ((scalar_text s).append (scalar_padded width n)).unpaired

theorem bodies_portable {depth : ℕ} : ∀ body ∈ bodies, PortableWithin depth (.str body) := by
  simp only [bodies, List.forall_mem_cons]
  exact ⟨.str (text_unpaired _), .str (text_unpaired _), .str (text_unpaired _),
    .str (text_unpaired _), .str (text_unpaired _), .str (text_unpaired _), List.forall_mem_nil _⟩

theorem edgeCases_portable {depth : ℕ} :
    ∀ edgeCase ∈ edgeCases, PortableWithin depth (.str edgeCase) := by
  simp only [edgeCases, List.forall_mem_cons]
  exact ⟨.str (text_unpaired _), .str (text_unpaired _), .str (text_unpaired _),
    List.forall_mem_nil _⟩

/-- A generated payload is a flat object. -/
theorem payload_portable (draws : Draws) (index : ℕ) :
    Portable (makeWebhookPayload draws index) := by
  have hattempt : ∀ depth, PortableWithin depth (.int (draws.deliveryAttempt.val + 1 : ℕ)) :=
    fun _ => .int (short_of_lt (by omega))
  unfold makeWebhookPayload
  cases draws.edgeCase with
  | none =>
      refine portable_object ["msg_id", "customer_id", "session_id", "t_customer", "body",
        "delivery_attempt"] rfl (by decide) ?_
      simp only [Option.toList_none, List.map_nil, List.append_nil, List.forall_mem_cons]
      exact ⟨numbered_portable _ _ _, numbered_portable _ _ _, numbered_portable _ _ _,
        .str (scalar_tCustomer _).unpaired, bodies_portable _ (List.get_mem _ _), hattempt _,
        List.forall_mem_nil _⟩
  | some edgeCase =>
      refine portable_object ["msg_id", "customer_id", "session_id", "t_customer", "body",
        "delivery_attempt", "edge_case"] rfl (by decide) ?_
      simp only [Option.toList_some, List.map_cons, List.map_nil, List.cons_append,
        List.nil_append, List.forall_mem_cons]
      exact ⟨numbered_portable _ _ _, numbered_portable _ _ _, numbered_portable _ _ _,
        .str (scalar_tCustomer _).unpaired, bodies_portable _ (List.get_mem _ _), hattempt _,
        edgeCases_portable _ (List.get_mem _ _), List.forall_mem_nil _⟩

theorem payload_customer (draws : Draws) (index : ℕ) :
    (makeWebhookPayload draws index).field? (text "customer_id")
      = some (.str (text "c-" ++ padded 4 draws.customer.val)) := rfl

/-- What `main` sends: the payloads from 1 on, all delivered. -/
def generated (draws : ℕ → Draws) (count : ℕ) : List (Json × Delivery) :=
  (List.range count).map fun i => (makeWebhookPayload (draws i) (i + 1), .delivered)

section Generated

variable {Body : Type} (d : Deployment Body)

/-- A generated payload is for one partition. -/
theorem payload_stored (hserver : AdmitsTimes d.server.check) (draws : Draws) (index : ℕ) :
    ∃ p, d.storesOn p (makeWebhookPayload draws index) = true := by
  have hscalar := (scalar_text "c-").append (scalar_padded 4 draws.customer.val)
  obtain ⟨p, hp⟩ := (partitionFor_ok_iff d.sha256 _).mpr hscalar
  refine ⟨p, ?_⟩
  rw [Deployment.storesOn, payload_valid hserver, Bool.true_and, Deployment.partition?,
    payload_customer]
  simp only [hp, Except.toOption]
  exact beq_self_eq_true _

theorem attempted_of_delivered {run : List (Json × Delivery)}
    (h : ∀ x ∈ run, d.fails x = false) : d.attempted run = run := by
  induction run with
  | nil => rfl
  | cons x rest ih =>
      obtain ⟨hx, hrest⟩ := List.forall_mem_cons.mp h
      rw [Deployment.attempted, hx, ih hrest]
      rfl

/-- Messages that are each for one partition are counted once in all. -/
theorem sum_countP {run : List (Json × Delivery)}
    (h : ∀ x ∈ run, ∃ p, ∀ q, d.storedOn q x = true ↔ q = p) :
    ∑ p, run.countP (d.storedOn p) = run.length := by
  induction run with
  | nil => simp
  | cons x rest ih =>
      obtain ⟨⟨p, hp⟩, hrest⟩ := List.forall_mem_cons.mp h
      simp only [List.countP_cons, Finset.sum_add_distrib, ih hrest, List.length_cons, hp]
      simp

/-- **Everything generated goes through.** If the formats of both sides admit the times of the
generator and the network delivers, the exit code of `main` is 0, whatever was drawn, and the
counters have gone up by the number of messages in all. -/
theorem main_accepts_generated (hclient : AdmitsTimes d.client.check)
    (hserver : AdmitsTimes d.server.check) (s : Sequences) (draws : ℕ → Draws) (count : ℕ) :
    (d.main s (generated draws count)).2 = .ok 0 ∧
      ∑ p, (d.main s (generated draws count)).1 p = ∑ p, s p + count := by
  -- the messages of `main` are numbered from 1
  have hmem : ∀ x ∈ generated draws count, ∃ i,
      x = (makeWebhookPayload (draws i) (i + 1), .delivered) := by
    intro x hx
    obtain ⟨i, -, rfl⟩ := List.mem_map.mp hx
    exact ⟨i, rfl⟩
  have hsends : ∀ i, d.sends (makeWebhookPayload (draws i) (i + 1)) = true := fun i =>
    payload_valid hclient _ _
  have hportable : ∀ x ∈ generated draws count, Portable x.1 := by
    intro x hx
    obtain ⟨i, rfl⟩ := hmem x hx
    exact payload_portable _ _
  have hfails : ∀ x ∈ generated draws count, d.fails x = false := by
    intro x hx
    obtain ⟨i, rfl⟩ := hmem x hx
    simp [Deployment.fails]
  have hany : (generated draws count).any d.fails = false :=
    List.any_eq_false.mpr fun x hx => Bool.not_eq_true _ ▸ hfails x hx
  have hall : ((generated draws count).all fun x => d.accepts x.1) = true := by
    refine List.all_eq_true.mpr fun x hx => ?_
    obtain ⟨i, rfl⟩ := hmem x hx
    exact (accepts_iff d).mpr ⟨hsends i, payload_stored d hserver _ _⟩
  -- each message is stored in one partition, so the counts add up
  have hone : ∀ x ∈ generated draws count, ∃ p, ∀ q, d.storedOn q x = true ↔ q = p := by
    intro x hx
    obtain ⟨i, rfl⟩ := hmem x hx
    obtain ⟨p, hp⟩ := payload_stored d hserver (draws i) (i + 1)
    refine ⟨p, fun q => ?_⟩
    simp only [Deployment.storedOn, hsends i, Bool.true_and]
    exact ⟨fun hq => storesOn_unique d hq hp, fun hq => hq ▸ hp⟩
  obtain ⟨hcode, hcounts⟩ := dispatch_spec d (generated draws count) hportable s true
  refine ⟨?_, ?_⟩
  · rw [hany, hall] at hcode
    exact hcode
  · have hlength : (generated draws count).length = count := by simp [generated]
    have hsum := sum_countP d hone
    rw [hlength] at hsum
    have hcount : ∀ p, (d.main s (generated draws count)).1 p
        = s p + (generated draws count).countP (d.storedOn p) := by
      intro p
      rw [Deployment.main, hcounts p, attempted_of_delivered d hfails]
    rw [Finset.sum_congr rfl fun p _ => hcount p, Finset.sum_add_distrib, hsum]

end Generated

def plainDraws : Draws where
  customer := ⟨42, by decide⟩
  session := 7
  seconds := 8130
  body := ⟨0, by decide⟩
  deliveryAttempt := 0
  edgeCase := none

/-- Three messages on the empty service. -/
theorem main_accepts_generated_three :
    (plainDeployment.main (fun _ => 0) (generated (fun _ => plainDraws) 3)).2 = .ok 0 :=
  (main_accepts_generated plainDeployment (fun _ => rfl) (fun _ => rfl) (fun _ => 0)
    (fun _ => plainDraws) 3).1

end Webhook
