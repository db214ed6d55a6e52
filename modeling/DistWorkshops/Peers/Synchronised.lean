import Mathlib.Algebra.Order.BigOperators.Group.List
import Mathlib.Tactic.FieldSimp
import DistWorkshops.Peers.Node

/-!
# Does a synchronised system stay synchronised?

A cycle reads its own time before the first query and compares it with estimates of the
peers' times at the *end* of their queries. When all clocks show the same time, the estimate
of a peer is therefore ahead of the node's own reading by the time that has passed in
between, and the correction is the average of these delays (`askAll_eq`). It is zero exactly
when no time passes up to the last answer that is used (`synchronised_iff`).
-/

set_option autoImplicit false

namespace Peers

/-! ## How long a query takes, and when its answer is used -/

def Reply.duration : Reply → ℚ
  | .silence => recvTimeout
  | .answer rtt _ => min rtt recvTimeout

/-- The time that passes during the queries `replies`. -/
def elapsed (replies : List Reply) : ℚ := (replies.map Reply.duration).sum

/-- The answer to a request made at the time `now` arrives in time and is positive. -/
def Reply.Accepted (now : ℚ) : Reply → Prop
  | .silence => False
  | .answer rtt peer => rtt ≤ recvTimeout ∧ 0 < peer.localTime (now + rtt / 2)

instance (now : ℚ) (reply : Reply) : Decidable (reply.Accepted now) :=
  match reply with
  | .silence => inferInstanceAs (Decidable False)
  | .answer _ _ => inferInstanceAs (Decidable (_ ∧ _))

/-- Round trips take no negative time. -/
def Reply.Nonneg : Reply → Prop
  | .silence => True
  | .answer rtt _ => 0 ≤ rtt

/-- A peer that answers in time has the skew of `node`. -/
def Reply.Synchronised (node : Node) : Reply → Prop
  | .silence => True
  | .answer rtt peer => rtt ≤ recvTimeout → peer.skew = node.skew

theorem Reply.duration_nonneg {reply : Reply} (h : reply.Nonneg) : 0 ≤ reply.duration := by
  have hto : (0 : ℚ) ≤ recvTimeout := by unfold recvTimeout; norm_num
  cases reply with
  | silence => exact hto
  | answer rtt peer => exact le_min h hto

theorem elapsed_cons (reply : Reply) (replies : List Reply) :
    elapsed (reply :: replies) = reply.duration + elapsed replies := by
  simp [elapsed]

/-- Among synchronised clocks the estimate of an accepted answer is the node's own time at the
end of the query. -/
theorem askPeer_eq {node : Node} (now : ℚ) {reply : Reply} (hn : reply.Nonneg)
    (hs : reply.Synchronised node) :
    askPeer node now reply =
      (if reply.Accepted now then some (node.localTime now + reply.duration) else none,
        now + reply.duration) := by
  cases reply with
  | silence => simp [askPeer, Reply.Accepted, Reply.duration]
  | answer rtt peer =>
      by_cases hto : rtt > recvTimeout
      · have hmin : min rtt recvTimeout = recvTimeout := min_eq_right (le_of_lt hto)
        simp [askPeer, Reply.Accepted, Reply.duration, hto, hmin, not_le.mpr hto]
      · have hle : rtt ≤ recvTimeout := not_lt.mp hto
        have hmin : min rtt recvTimeout = rtt := min_eq_left hle
        have hskew : peer.skew = node.skew := hs hle
        have hrtt : 0 ≤ rtt := hn
        have hdiff : peer.localTime (now + rtt / 2) - node.localTime (now + rtt) = -(rtt / 2) := by
          rw [Node.localTime_eq, Node.localTime_eq, hskew]
          ring
        -- a synchronised peer is off by half a round trip at most, far below the bound
        have hplausible : ¬ |peer.localTime (now + rtt / 2) - node.localTime (now + rtt)|
            > maxPlausibleSkew := by
          rw [hdiff, abs_neg, abs_of_nonneg (by linarith)]
          unfold recvTimeout at hle
          unfold maxPlausibleSkew
          linarith
        -- half the round trip is added back, so the estimate is valid at the end of the query
        have hestimate : peer.localTime (now + rtt / 2) + (now + rtt - now) / 2
            = node.localTime now + rtt := by
          rw [Node.localTime_eq, Node.localTime_eq, hskew]
          ring
        by_cases hpos : peer.localTime (now + rtt / 2) ≤ 0
        · simp [askPeer, checkTime, Reply.Accepted, Reply.duration, hto, hmin, hpos,
            not_lt.mpr hpos]
        · simp only [askPeer, if_neg hto, checkTime, if_neg hpos, if_neg hplausible,
            hestimate, Reply.Accepted, Reply.duration, hmin, hle, not_le.mp hpos, and_self,
            if_true]

/-! ## The delays behind the estimates -/

/-- How long after the start the accepted answers arrive, when `passed` has passed already. -/
def delays (now : ℚ) : ℚ → List Reply → List ℚ
  | _, [] => []
  | passed, reply :: replies =>
      (if reply.Accepted (now + passed) then [passed + reply.duration] else [])
        ++ delays now (passed + reply.duration) replies

/-- Every estimate is the node's own reading plus the delay of its answer. -/
theorem askAll_eq {node : Node} (now : ℚ) (replies : List Reply) (passed : ℚ)
    (hn : ∀ reply ∈ replies, reply.Nonneg) (hs : ∀ reply ∈ replies, reply.Synchronised node) :
    askAll node (now + passed) replies
      = (delays now passed replies).map (fun d => node.localTime now + d) := by
  induction replies generalizing passed with
  | nil => rfl
  | cons reply replies ih =>
      have hhead := askPeer_eq (now + passed) (hn reply (by simp)) (hs reply (by simp))
      have htail := ih (passed + reply.duration)
        (fun r hr => hn r (List.mem_cons_of_mem _ hr))
        (fun r hr => hs r (List.mem_cons_of_mem _ hr))
      have hown : node.localTime (now + passed) + reply.duration
          = node.localTime now + (passed + reply.duration) := by
        rw [Node.localTime_eq, Node.localTime_eq]
        ring
      simp only [askAll, hhead, delays, List.map_append, add_assoc now] at htail ⊢
      rw [htail]
      by_cases hacc : reply.Accepted (now + passed)
      · simp [hacc, hown]
      · simp [hacc]

theorem mem_delays {now : ℚ} {d : ℚ} (replies : List Reply) (passed : ℚ) :
    d ∈ delays now passed replies ↔
      ∃ pre reply post, replies = pre ++ reply :: post ∧
        reply.Accepted (now + (passed + elapsed pre)) ∧
        d = passed + elapsed (pre ++ [reply]) := by
  induction replies generalizing passed with
  | nil => simp [delays]
  | cons first replies ih =>
      rw [delays, List.mem_append, ih]
      constructor
      · rintro (h | ⟨pre, reply, post, rfl, hacc, rfl⟩)
        · by_cases hacc : first.Accepted (now + passed)
          · rw [if_pos hacc, List.mem_singleton] at h
            exact ⟨[], first, replies, rfl, by simpa [elapsed] using hacc, by simp [h, elapsed]⟩
          · rw [if_neg hacc] at h
            cases h
        · refine ⟨first :: pre, reply, post, rfl, ?_, ?_⟩
          · rw [elapsed_cons, ← add_assoc passed]
            exact hacc
          · rw [List.cons_append, elapsed_cons]
            ring
      · rintro ⟨pre, reply, post, hsplit, hacc, rfl⟩
        cases pre with
        | nil =>
            obtain ⟨rfl, rfl⟩ := List.cons.inj hsplit
            have hacc' : first.Accepted (now + passed) := by simpa [elapsed] using hacc
            exact Or.inl (by simp [hacc', elapsed])
        | cons head pre =>
            obtain ⟨rfl, rfl⟩ := List.cons.inj hsplit
            refine Or.inr ⟨pre, reply, post, rfl, ?_, ?_⟩
            · rw [elapsed_cons, ← add_assoc passed] at hacc
              exact hacc
            · rw [List.cons_append, elapsed_cons]
              ring

theorem elapsed_nonneg {replies : List Reply} (hn : ∀ reply ∈ replies, reply.Nonneg) :
    0 ≤ elapsed replies := by
  apply List.sum_nonneg
  intro d hd
  obtain ⟨reply, hreply, rfl⟩ := List.mem_map.mp hd
  exact Reply.duration_nonneg (hn reply hreply)

theorem delays_nonneg {now d : ℚ} {replies : List Reply}
    (hn : ∀ reply ∈ replies, reply.Nonneg) (hd : d ∈ delays now 0 replies) : 0 ≤ d := by
  obtain ⟨pre, reply, post, rfl, -, rfl⟩ := (mem_delays replies 0).mp hd
  rw [zero_add]
  refine elapsed_nonneg (fun r hr => hn r ?_)
  rcases List.mem_append.mp hr with h | h
  · exact List.mem_append_left _ h
  · rw [List.mem_singleton.mp h]
    simp

/-! ## The correction -/

theorem sum_eq_zero_iff {ds : List ℚ} (hd : ∀ d ∈ ds, 0 ≤ d) :
    ds.sum = 0 ↔ ∀ d ∈ ds, d = 0 := by
  constructor
  · intro hsum d hmem
    exact List.all_zero_of_le_zero_le_of_sum_eq_zero hd hsum hmem
  · intro hzero
    exact List.sum_eq_zero hzero

/-- The correction is the average of the delays, the node's own delay 0 included. -/
theorem correction_eq (own : ℚ) (ds : List ℚ) :
    correction own (own :: ds.map (fun d => own + d))
      = if ds = [] then none else some (ds.sum / (ds.length + 1)) := by
  have hsum : (ds.map (fun d => own + d)).sum = ds.length * own + ds.sum := by
    induction ds with
    | nil => simp
    | cons d ds ih =>
        simp only [List.map_cons, List.sum_cons, ih, List.length_cons]
        push_cast
        ring
  have hpos : (ds.length : ℚ) + 1 ≠ 0 := by positivity
  by_cases hd : ds = []
  · rw [if_pos hd, hd]
    rfl
  · have hlen : (own :: ds.map (fun d => own + d)).length ≠ 1 := by simpa using hd
    rw [if_neg hd, correction, if_neg hlen]
    simp only [List.length_cons, List.length_map, List.sum_cons, hsum, Nat.cast_add,
      Nat.cast_one, Option.some.injEq]
    field_simp
    ring

/-- **When a synchronised system stays synchronised.** Let the node and every peer that
answers in time have the same skew, and let round trips take no negative time. The correction
is zero if and only if no time has passed since the start of the cycle when an accepted
answer arrives: every query up to it, its own included, took no time. -/
theorem synchronised_iff (node : Node) (now : ℚ) (replies : List Reply)
    (hn : ∀ reply ∈ replies, reply.Nonneg)
    (hs : ∀ reply ∈ replies, reply.Synchronised node) :
    (∀ c, syncCycle node now replies = some c → c = 0) ↔
      ∀ pre reply post, replies = pre ++ reply :: post →
        reply.Accepted (now + elapsed pre) → elapsed (pre ++ [reply]) = 0 := by
  have hask := askAll_eq now replies 0 hn hs
  rw [add_zero] at hask
  have hcycle : syncCycle node now replies
      = if delays now 0 replies = [] then none
        else some ((delays now 0 replies).sum / ((delays now 0 replies).length + 1)) := by
    rw [syncCycle, hask, correction_eq]
  -- the correction is an average of delays, none of them negative
  have hzero : (∀ c, syncCycle node now replies = some c → c = 0) ↔
      (delays now 0 replies).sum = 0 := by
    rw [hcycle]
    by_cases hd : delays now 0 replies = []
    · simp [hd]
    · have hpos : ((delays now 0 replies).length : ℚ) + 1 ≠ 0 := by positivity
      simp [hd, hpos]
  rw [hzero, sum_eq_zero_iff (fun d hd => delays_nonneg hn hd)]
  constructor
  · intro h pre reply post hsplit hacc
    refine h _ ((mem_delays replies 0).mpr ⟨pre, reply, post, hsplit, ?_, (zero_add _).symm⟩)
    rw [zero_add]
    exact hacc
  · intro h d hd
    obtain ⟨pre, reply, post, hsplit, hacc, rfl⟩ := (mem_delays replies 0).mp hd
    rw [zero_add] at hacc ⊢
    exact h pre reply post hsplit hacc

/-- The condition at work: the first peer answers at once, the second one never. -/
theorem synchronised_iff_instant :
    (∀ c, syncCycle ⟨0, 0⟩ 1000 [.answer 0 ⟨0, 0⟩, .silence] = some c → c = 0) ↔
      ∀ pre reply post, [Reply.answer 0 ⟨0, 0⟩, .silence] = pre ++ reply :: post →
        reply.Accepted (1000 + elapsed pre) → elapsed (pre ++ [reply]) = 0 :=
  synchronised_iff ⟨0, 0⟩ 1000 _ (by simp [Reply.Nonneg]) (by simp [Reply.Synchronised])

/-- **The bias of a synchronised system.** One peer with the same clock answers after a round
trip of 0.2 s, and the node moves its clock forward by 0.1 s. -/
theorem synchronised_drifts :
    (Reply.answer (1 / 5) ⟨0, 0⟩).Nonneg ∧
      (Reply.answer (1 / 5) ⟨0, 0⟩).Synchronised ⟨0, 0⟩ ∧
      ¬ ∀ c, syncCycle ⟨0, 0⟩ 1000 [.answer (1 / 5) ⟨0, 0⟩] = some c → c = 0 := by
  refine ⟨by norm_num [Reply.Nonneg], fun _ => rfl, fun h => ?_⟩
  have hcycle : syncCycle ⟨0, 0⟩ 1000 [.answer (1 / 5) ⟨0, 0⟩] = some (1 / 10) := by
    norm_num [syncCycle, askAll, askPeer, checkTime, correction, Node.localTime, recvTimeout,
      maxPlausibleSkew]
  have hzero := h _ hcycle
  norm_num at hzero

end Peers
