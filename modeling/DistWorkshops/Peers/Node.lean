import Mathlib.Algebra.Order.Ring.Rat
import Mathlib.Algebra.Order.Group.Unbundled.Abs
import Mathlib.Data.Rat.Lemmas
import Mathlib.Tactic.Linarith
import Mathlib.Tactic.Ring
import DistWorkshops.Python

/-!
# A peer node and its clock

The clock of `peer_node.py`: every node shows the time of the operating system plus its
drift plus its offset, and a cycle of the algorithm moves the offset towards the average of
its own time and of the times its peers answered. Times are rational numbers, and the time
of the operating system is a number that the functions take and return.

A reply carries the peer's time exactly. Its text, with six decimals and the name of the peer, is
the subject of `Wire`.
-/

set_option autoImplicit false

namespace Peers

/-! ## The clock -/

structure Node where
  drift : ℚ
  offset : ℚ
  deriving DecidableEq, Repr

namespace Node

def localTime (node : Node) (now : ℚ) : ℚ := now + node.drift + node.offset

def adjust (node : Node) (delta : ℚ) : Node := { node with offset := node.offset + delta }

/-- `inject_drift`, with the random number as an argument. -/
def injectDrift (node : Node) (delta : ℚ) : Node := { node with drift := node.drift + delta }

/-- `preset_skew`. -/
def presetSkew (node : Node) (seconds : ℚ) : Node := { node with drift := node.drift + seconds }

def skew (node : Node) : ℚ := node.drift + node.offset

/-- The clock that the constructor makes. -/
def fresh : Node := ⟨0, 0⟩

theorem localTime_eq (node : Node) (now : ℚ) : node.localTime now = now + node.skew := by
  unfold localTime skew
  ring

@[simp] theorem adjust_skew (node : Node) (delta : ℚ) :
    (node.adjust delta).skew = node.skew + delta := by
  unfold adjust skew
  ring

@[simp] theorem injectDrift_skew (node : Node) (delta : ℚ) :
    (node.injectDrift delta).skew = node.skew + delta := by
  unfold injectDrift skew
  ring

@[simp] theorem presetSkew_skew (node : Node) (seconds : ℚ) :
    (node.presetSkew seconds).skew = node.skew + seconds := by
  unfold presetSkew skew
  ring

@[simp] theorem fresh_skew : fresh.skew = 0 := add_zero 0

end Node

/-! ## Asking a peer -/

/-- `RECV_TIMEOUT_MS`, in seconds. -/
def recvTimeout : ℚ := 3 / 2

def maxPlausibleSkew : ℚ := 3600

/-- The checks `parse_reply` makes on the time of a reply. -/
def checkTime (peerTime ownTime : ℚ) : Except PyError ℚ :=
  if peerTime ≤ 0 then .error .valueError
  else if |peerTime - ownTime| > maxPlausibleSkew then .error .valueError
  else .ok peerTime

/-- What happens to a request: the peer answers at the midpoint of a round trip that takes
`rtt`, or never. -/
inductive Reply where
  | answer (rtt : ℚ) (peer : Node)
  | silence
  deriving DecidableEq, Repr

/-- `ask_peer`, at the time `now`: the estimated time of the peer if there is one, and the time
at which the call returns. An answer that takes longer than the timeout comes too late. -/
def askPeer (node : Node) (now : ℚ) : Reply → Option ℚ × ℚ
  | .silence => (none, now + recvTimeout)
  | .answer rtt peer =>
      if rtt > recvTimeout then (none, now + recvTimeout)
      else
        let t0 := now
        let now := now + rtt
        -- the plausibility check reads the own time afresh, after the answer
        match checkTime (peer.localTime (t0 + rtt / 2)) (node.localTime now) with
        | .ok peerTime => (some (peerTime + (now - t0) / 2), now)
        | .error _ => (none, now)

/-- `ask_peer`, once the answer is there: it shows the time `stamp`, and the request was sent at
`t0` and answered at `t1`. -/
def received (node : Node) (stamp t0 t1 : ℚ) : Option ℚ :=
  if t1 - t0 > recvTimeout then none
  else
    match checkTime stamp (node.localTime t1) with
    | .ok peerTime => some (peerTime + (t1 - t0) / 2)
    | .error _ => none

theorem askPeer_answer (node peer : Node) (now rtt : ℚ) :
    (askPeer node now (.answer rtt peer)).1
      = received node (peer.localTime (now + rtt / 2)) now (now + rtt) := by
  simp only [askPeer, received, add_sub_cancel_left]
  by_cases hlate : rtt > recvTimeout
  · rw [if_pos hlate, if_pos hlate]
  · rw [if_neg hlate, if_neg hlate]
    cases checkTime (peer.localTime (now + rtt / 2)) (node.localTime (now + rtt)) with
    | ok peerTime => rfl
    | error e => rfl

theorem received_eq {node : Node} {stamp t0 t1 sample : ℚ}
    (h : received node stamp t0 t1 = some sample) : sample = stamp + (t1 - t0) / 2 := by
  unfold received checkTime at h
  split_ifs at h
  exact (Option.some.inj h).symm

/-! ## A cycle -/

/-- The peers are asked one after the other: the times of those that answered. -/
def askAll (node : Node) (now : ℚ) : List Reply → List ℚ
  | [] => []
  | reply :: replies =>
      let (answer, now) := askPeer node now reply
      answer.toList ++ askAll node now replies

/-- The correction passed to `adjust`; there is none when no peer answered. -/
def correction (ownTime : ℚ) (samples : List ℚ) : Option ℚ :=
  -- only the node's own sample: the clock is left alone
  if samples.length = 1 then none
  else
    let average := samples.sum / samples.length
    some (average - ownTime)

/-- Steps 2 and 3 of a cycle of `run`, started at the time `now`: the correction. -/
def syncCycle (node : Node) (now : ℚ) (replies : List Reply) : Option ℚ :=
  let ownTime := node.localTime now
  let samples := ownTime :: askAll node now replies
  correction ownTime samples

end Peers
