import Mathlib.Data.List.Infix
import DistWorkshops.Echo.Streaming
import DistWorkshops.Lib.Run

/-!
# A session with the echo server

The clients `client-random-msgs.py` and `client-random-msgs.c` with the servers of
`Echo.Streaming`, in all four pairs. The client sends a message of random lower-case letters, waits
in one `recv` and goes on with the next message, whatever that `recv` returned; after the last it
closes the connection. The bytes of both directions may be cut anywhere. Once the client has closed,
a reset may make a `recv` or a `send` of the server fail; until then the network delivers. A `send`
that raises `EPIPE` or, in C, ends the process with `SIGPIPE` counts as `sendError` too.
-/

set_option autoImplicit false

namespace Echo

open Text

/-! ## The messages -/

def asciiLowercase : List Char := "abcdefghijklmnopqrstuvwxyz".toList

/-- What the client draws for one message: between 5 and 15 letters. -/
structure Draw where
  letters : List (Fin asciiLowercase.length)
  length_ge : 5 ≤ letters.length
  length_le : letters.length ≤ 15

def randomMessage (draw : Draw) : List Char := draw.letters.map asciiLowercase.get

def sentence (draw : Draw) : Bytes := Utf8.encode (randomMessage draw)

def Ascii (data : Bytes) : Prop := ∀ b ∈ data, b.toNat < 128

theorem Ascii.append {data data' : Bytes} (h : Ascii data) (h' : Ascii data') :
    Ascii (data ++ data') := List.forall_mem_append.mpr ⟨h, h'⟩

theorem randomMessage_lt (draw : Draw) : ∀ c ∈ randomMessage draw, c.toNat < 128 := by
  have hall : ∀ c ∈ asciiLowercase, c.toNat < 128 := by decide
  intro c hc
  obtain ⟨k, -, rfl⟩ := List.mem_map.mp hc
  exact hall _ (List.get_mem asciiLowercase k)

theorem length_sentence (draw : Draw) : (sentence draw).length = draw.letters.length := by
  rw [sentence, Utf8.length_encode_ascii (randomMessage_lt draw), randomMessage, List.length_map]

theorem sentence_ascii (draw : Draw) : Ascii (sentence draw) := by
  rw [sentence, Utf8.encode_ascii (randomMessage_lt draw)]
  intro b hb
  obtain ⟨c, hc, rfl⟩ := List.mem_map.mp hb
  have hlt : c.val.toNat < 128 := randomMessage_lt draw c hc
  rw [UInt32.toNat_toUInt8]
  omega

/-! ## The two servers agree on ASCII -/

theorem toNat_toupper (b : UInt8) :
    (toupper b).toNat = if 97 ≤ b.toNat ∧ b.toNat ≤ 122 then b.toNat - 32 else b.toNat := by
  have hle : (97 ≤ b ∧ b ≤ 122) ↔ 97 ≤ b.toNat ∧ b.toNat ≤ 122 := by
    rw [UInt8.le_iff_toNat_le, UInt8.le_iff_toNat_le]
    exact Iff.rfl
  unfold toupper
  by_cases hlower : 97 ≤ b ∧ b ≤ 122
  · have hb := hle.mp hlower
    have h32 : (32 : UInt8) ≤ b := by
      rw [UInt8.le_iff_toNat_le]
      exact Nat.le_trans (by decide) hb.1
    rw [if_pos hlower, if_pos hb, UInt8.toNat_sub_of_le _ _ h32]
    rfl
  · rw [if_neg hlower, if_neg fun hb => hlower (hle.mpr hb)]

/-- On ASCII text `upper` of the Python server is `toupper` of the C server, byte by byte. -/
theorem capitalizedSentence_ascii (unicode : Unicode) {data : Bytes} (h : Ascii data) :
    capitalizedSentence unicode data = .ok (data.map toupper) := by
  obtain ⟨text, htext, rfl⟩ := Utf8.exists_encode_ascii h
  -- an ASCII character has one upper-case character, which is ASCII again
  have hupper : unicode.upper text = text.map Char.toUpper := by
    rw [Unicode.upper, List.map_eq_flatMap]
    exact List.flatMap_congr fun c hc => unicode.upperChar_ascii c (htext c hc)
  have hle : ∀ c ∈ text, c.toUpper.toNat < 128 := by
    intro c hc
    have hlt := htext c hc
    rw [Unicode.toNat_toUpper]
    split <;> omega
  have hupper_lt : ∀ c ∈ text.map Char.toUpper, c.toNat < 128 := by
    intro c hc
    obtain ⟨d, hd, rfl⟩ := List.mem_map.mp hc
    exact hle d hd
  rw [capitalizedSentence_encode, hupper, Utf8.encode_ascii hupper_lt, Utf8.encode_ascii htext,
    List.map_map, List.map_map]
  refine congrArg Except.ok (List.map_congr_left fun c hc => UInt8.toNat_inj.mp ?_)
  -- both sides as numbers, where `toupper` is a subtraction
  have hval : c.val.toUInt8.toNat = c.toNat := by
    have hlt : c.val.toNat < 128 := htext c hc
    rw [UInt32.toNat_toUInt8]
    exact Nat.mod_eq_of_lt (by omega)
  have hupval : c.toUpper.val.toUInt8.toNat = c.toUpper.toNat := by
    have hlt : c.toUpper.val.toNat < 128 := hle c hc
    rw [UInt32.toNat_toUInt8]
    exact Nat.mod_eq_of_lt (by omega)
  show c.toUpper.val.toUInt8.toNat = (toupper c.val.toUInt8).toNat
  rw [hupval, toNat_toupper, hval, Unicode.toNat_toUpper]

/-! ## The session -/

inductive Program where
  | python
  | c
  deriving DecidableEq

/-- The argument of `recv`. The C programs keep a byte of the buffer for the terminator. -/
def Program.limit : Program → ℕ
  | .python => 1024
  | .c => 1023

/-- What the server makes of a chunk. -/
def Program.capitalized (unicode : Unicode) : Program → Bytes → Except PyError Bytes
  | .python, data => capitalizedSentence unicode data
  | .c, buffer => .ok (buffer.map toupper)

/-- How many bytes one `recv` takes: at least one if there is one, and at most the limit. -/
def Program.cut (program : Program) (n : ℕ) : ℕ := min (n + 1) program.limit

structure Session where
  unsent : List Bytes
  sent : List Bytes
  /-- The client is in `recv`. -/
  awaiting : Bool
  /-- What the `recv` calls of the client have returned. -/
  replies : List Bytes
  closed : Bool
  toServer : Bytes
  toClient : Bytes
  /-- What the server has received and not answered, with its answer. -/
  held : Option (Bytes × Bytes)
  /-- What the loop of the server has met. -/
  passes : List Pass
  /-- What the server has sent. -/
  answers : List Bytes
  ending : Ending

def start (messages : List Bytes) : Session :=
  ⟨messages, [], false, [], false, [], [], none, [], [], .waiting⟩

inductive Act where
  /-- The client sends its next message. -/
  | send
  /-- `recv` of the client returns. -/
  | receive (n : ℕ)
  | close
  /-- `recv` of the server returns bytes. -/
  | read (n : ℕ)
  | answer
  /-- `recv` of the server returns `b''`. -/
  | readEnd
  | recvFault
  | sendFault

/-- The server is in `recv`. -/
def Session.Listening (s : Session) : Prop := s.ending = .waiting ∧ s.held = none

instance (s : Session) : Decidable s.Listening := inferInstanceAs (Decidable (_ ∧ _))

/-- One step, if it is possible. `recv` of the client waits while the server may still send, and
returns `b''` after it has ended. -/
def step (unicode : Unicode) (client server : Program) (s : Session) : Act → Option Session
  | .send => match s.unsent with
      | [] => none
      | message :: unsent =>
          if s.awaiting then none else some { s with
            unsent := unsent
            sent := s.sent ++ [message]
            awaiting := true
            toServer := s.toServer ++ message }
  | .receive n =>
      if s.awaiting ∧ (s.toClient ≠ [] ∨ s.ending ≠ .waiting) then some { s with
        awaiting := false
        replies := s.replies ++ [s.toClient.take (client.cut n)]
        toClient := s.toClient.drop (client.cut n) }
      else none
  | .close =>
      if s.unsent = [] ∧ ¬ s.awaiting ∧ ¬ s.closed then some { s with closed := true } else none
  | .read n =>
      if s.Listening ∧ s.toServer ≠ [] then
        -- the Python server raises on bytes that are no UTF-8, and leaves its loop
        let data := s.toServer.take (server.cut n)
        match server.capitalized unicode data with
        | .error e => some { s with
            toServer := s.toServer.drop (server.cut n)
            passes := s.passes ++ [.received data false]
            ending := .raised e }
        | .ok reply => some { s with
            toServer := s.toServer.drop (server.cut n)
            held := some (data, reply) }
      else none
  | .answer => match s.held with
      | none => none
      | some (data, reply) => some { s with
          toClient := s.toClient ++ reply
          held := none
          passes := s.passes ++ [.received data false]
          answers := s.answers ++ [reply] }
  | .readEnd =>
      if s.Listening ∧ s.toServer = [] ∧ s.closed then some { s with
        passes := s.passes ++ [.received [] false]
        ending := .clientClosed }
      else none
  | .recvFault =>
      if s.Listening ∧ s.closed then some { s with
        passes := s.passes ++ [.recvError]
        ending := .recvError }
      else none
  | .sendFault => match s.held with
      | none => none
      | some (data, _) =>
          if s.closed then some { s with
            held := none
            passes := s.passes ++ [.received data true]
            ending := .sendError }
          else none

def run (unicode : Unicode) (client server : Program) (s : Session) (acts : List Act) :
    Option Session := acts.foldlM (step unicode client server) s

/-- What a step can do. -/
inductive Step (unicode : Unicode) (client server : Program) (s : Session) : Act → Session → Prop
  | send (message : Bytes) (unsent : List Bytes) (hunsent : s.unsent = message :: unsent)
      (hidle : s.awaiting = false) : Step unicode client server s .send { s with
        unsent := unsent
        sent := s.sent ++ [message]
        awaiting := true
        toServer := s.toServer ++ message }
  | receive (n : ℕ) (hawaiting : s.awaiting = true)
      (hsome : s.toClient ≠ [] ∨ s.ending ≠ .waiting) :
      Step unicode client server s (.receive n) { s with
        awaiting := false
        replies := s.replies ++ [s.toClient.take (client.cut n)]
        toClient := s.toClient.drop (client.cut n) }
  | close (hunsent : s.unsent = []) (hidle : s.awaiting = false) (hopen : s.closed = false) :
      Step unicode client server s .close { s with closed := true }
  | raise (n : ℕ) (e : PyError) (hlistening : s.Listening) (hsome : s.toServer ≠ [])
      (herror : server.capitalized unicode (s.toServer.take (server.cut n)) = .error e) :
      Step unicode client server s (.read n) { s with
        toServer := s.toServer.drop (server.cut n)
        passes := s.passes ++ [.received (s.toServer.take (server.cut n)) false]
        ending := .raised e }
  | read (n : ℕ) (reply : Bytes) (hlistening : s.Listening) (hsome : s.toServer ≠ [])
      (hreply : server.capitalized unicode (s.toServer.take (server.cut n)) = .ok reply) :
      Step unicode client server s (.read n) { s with
        toServer := s.toServer.drop (server.cut n)
        held := some (s.toServer.take (server.cut n), reply) }
  | answer (data reply : Bytes) (hheld : s.held = some (data, reply)) :
      Step unicode client server s .answer { s with
        toClient := s.toClient ++ reply
        held := none
        passes := s.passes ++ [.received data false]
        answers := s.answers ++ [reply] }
  | readEnd (hlistening : s.Listening) (hclosed : s.closed = true) :
      Step unicode client server s .readEnd { s with
        passes := s.passes ++ [.received [] false]
        ending := .clientClosed }
  | recvFault (hlistening : s.Listening) (hclosed : s.closed = true) :
      Step unicode client server s .recvFault { s with
        passes := s.passes ++ [.recvError]
        ending := .recvError }
  | sendFault (data reply : Bytes) (hheld : s.held = some (data, reply))
      (hclosed : s.closed = true) : Step unicode client server s .sendFault { s with
        held := none
        passes := s.passes ++ [.received data true]
        ending := .sendError }

section Machine

variable {unicode : Unicode} {client server : Program} {s s' : Session} {act : Act}

theorem step_cases (h : step unicode client server s act = some s') :
    Step unicode client server s act s' := by
  cases act with
  | send =>
      rw [step] at h
      split at h
      · cases h
      · rename_i message unsent hunsent
        split at h
        · cases h
        · rename_i hidle
          obtain rfl := Option.some.inj h
          exact .send message unsent hunsent (Bool.eq_false_iff.mpr hidle)
  | receive n =>
      rw [step] at h
      split at h
      · rename_i hif
        obtain rfl := Option.some.inj h
        exact .receive n hif.1 hif.2
      · cases h
  | close =>
      rw [step] at h
      split at h
      · rename_i hif
        obtain rfl := Option.some.inj h
        exact .close hif.1 (Bool.eq_false_iff.mpr hif.2.1) (Bool.eq_false_iff.mpr hif.2.2)
      · cases h
  | read n =>
      rw [step] at h
      split at h
      · rename_i hif
        simp only at h
        split at h
        · rename_i e herror
          obtain rfl := Option.some.inj h
          exact .raise n e hif.1 hif.2 herror
        · rename_i reply hreply
          obtain rfl := Option.some.inj h
          exact .read n reply hif.1 hif.2 hreply
      · cases h
  | answer =>
      rw [step] at h
      split at h
      · cases h
      · rename_i data reply hheld
        obtain rfl := Option.some.inj h
        exact .answer data reply hheld
  | readEnd =>
      rw [step] at h
      split at h
      · rename_i hif
        obtain rfl := Option.some.inj h
        exact .readEnd hif.1 hif.2.2
      · cases h
  | recvFault =>
      rw [step] at h
      split at h
      · rename_i hif
        obtain rfl := Option.some.inj h
        exact .recvFault hif.1 hif.2
      · cases h
  | sendFault =>
      rw [step] at h
      split at h
      · cases h
      · rename_i data reply hheld
        split at h
        · rename_i hclosed
          obtain rfl := Option.some.inj h
          exact .sendFault data reply hheld hclosed
        · cases h

/-! ## The server is its loop -/

theorem connectionLoop_concat {capitalized : Bytes → Except PyError Bytes} {passes : List Pass}
    {answers : List Bytes} (h : connectionLoop capitalized passes = ⟨answers, .waiting⟩)
    (pass : Pass) : connectionLoop capitalized (passes ++ [pass])
      = ⟨answers ++ (connectionLoop capitalized [pass]).sent,
        (connectionLoop capitalized [pass]).ending⟩ := by
  induction passes generalizing answers with
  | nil =>
      obtain rfl : [] = answers := congrArg Served.sent h
      rfl
  | cons first passes ih =>
      cases first with
      | recvError => cases congrArg Served.ending h
      | received data sendError =>
          -- only a pass that sent its answer leaves the loop waiting
          rw [connectionLoop] at h
          split at h
          · cases congrArg Served.ending h
          · rename_i hdata
            cases hreply : capitalized data with
            | error e =>
                rw [hreply] at h
                cases congrArg Served.ending h
            | ok reply =>
                rw [hreply] at h
                simp only at h
                split at h
                · cases congrArg Served.ending h
                · rename_i hsent
                  obtain rfl := congrArg Served.sent h
                  have hrest : connectionLoop capitalized passes
                      = ⟨(connectionLoop capitalized passes).sent, .waiting⟩ :=
                    congrArg (Served.mk _) (congrArg Served.ending h)
                  rw [List.cons_append, connectionLoop, if_neg hdata, hreply]
                  simp only
                  rw [if_neg hsent, ih hrest]
                  rfl

theorem capitalized_ascii {data : Bytes} (h : Ascii data) :
    server.capitalized unicode data = .ok (data.map toupper) := by
  cases server with
  | python => exact capitalizedSentence_ascii unicode h
  | c => rfl

theorem Program.cut_pos (program : Program) (n : ℕ) : 0 < program.cut n := by
  have hlimit : 0 < program.limit := by
    cases program with
    | python => decide
    | c => decide
  exact lt_min (Nat.succ_pos n) hlimit

theorem take_cut_ne_nil (program : Program) (n : ℕ) {stream : Bytes} (h : stream ≠ []) :
    stream.take (program.cut n) ≠ [] := by
  rw [Ne, List.take_eq_nil_iff, not_or]
  exact ⟨(program.cut_pos n).ne', h⟩

/-! ## The invariant -/

/-- What the server has to send, now or after reading on. -/
def Session.inServer (s : Session) : Bytes :=
  (s.held.map Prod.snd).getD [] ++ s.toServer.map toupper

/-- The upper case of all that the client has sent. -/
def Session.expected (s : Session) : Bytes := s.sent.flatten.map toupper

/-- The invariant of a session. The balance fails only after the server has ended. -/
structure Inv (unicode : Unicode) (server : Program) (s : Session) : Prop where
  messages : ∀ message ∈ s.unsent, message ≠ [] ∧ Ascii message
  toServer : Ascii s.toServer
  held : ∀ data reply, s.held = some (data, reply) →
    data ≠ [] ∧ server.capitalized unicode data = .ok reply ∧ reply ≠ []
  loop : connectionLoop (server.capitalized unicode) s.passes = ⟨s.answers, s.ending⟩
  balance : s.ending = .waiting →
    s.replies.flatten ++ s.toClient ++ s.inServer = s.expected
  received : s.replies.flatten ++ s.toClient <+: s.expected
  behind : s.awaiting = true → s.replies.flatten.length < s.expected.length
  count : s.replies.length + (if s.awaiting then 1 else 0) = s.sent.length
  replies : ∀ reply ∈ s.replies, reply ≠ []
  closed : s.closed = true → s.unsent = [] ∧ s.awaiting = false
  ended : s.ending ≠ .waiting → s.closed = true ∧ s.held = none ∧ ∀ e, s.ending ≠ .raised e

theorem inv_start {messages : List Bytes} (h : ∀ message ∈ messages, message ≠ [] ∧ Ascii message) :
    Inv unicode server (start messages) where
  messages := h
  toServer := List.forall_mem_nil _
  held _ _ hheld := by cases hheld
  loop := rfl
  balance _ := rfl
  received := List.prefix_rfl
  behind hawaiting := by cases hawaiting
  count := rfl
  replies := List.forall_mem_nil _
  closed hclosed := by cases hclosed
  ended hended := absurd rfl hended

/-- While the client has messages or waits, the server is in its loop. -/
theorem Inv.waiting (hi : Inv unicode server s) (hopen : s.closed = false) :
    s.ending = .waiting := by
  by_contra hended
  rw [(hi.ended hended).1] at hopen
  cases hopen

theorem expected_send (message : Bytes) (unsent : List Bytes) (toServer : Bytes) (awaiting : Bool) :
    Session.expected { s with
      unsent := unsent
      sent := s.sent ++ [message]
      awaiting := awaiting
      toServer := toServer } = s.expected ++ message.map toupper := by
  show (s.sent ++ [message]).flatten.map toupper = _
  rw [List.flatten_concat, List.map_append]
  rfl

theorem Inv.send (hi : Inv unicode server s) {message : Bytes} {unsent : List Bytes}
    (hunsent : s.unsent = message :: unsent) (hidle : s.awaiting = false) :
    Inv unicode server { s with
      unsent := unsent
      sent := s.sent ++ [message]
      awaiting := true
      toServer := s.toServer ++ message } := by
  -- a client with a message left has not closed
  have hopen : s.closed = false := by
    cases hclosed : s.closed with
    | false => rfl
    | true =>
        have hnil := (hi.closed hclosed).1
        rw [hunsent] at hnil
        cases hnil
  have hwaiting := hi.waiting hopen
  obtain ⟨hne, hascii⟩ := hi.messages message (hunsent ▸ List.mem_cons_self)
  have hlength : 0 < message.length := List.length_pos_iff.mpr hne
  have hreceived := hi.received
  refine { hi with
    messages := fun m hm => hi.messages m (hunsent ▸ List.mem_cons_of_mem message hm)
    toServer := hi.toServer.append hascii
    balance := fun _ => ?balance
    received := ?received
    behind := fun _ => ?behind
    count := ?count
    closed := fun hclosed => absurd (hopen.symm.trans hclosed) (by decide)
    ended := fun hended => absurd hwaiting hended }
  case balance =>
    rw [expected_send, ← hi.balance hwaiting]
    simp only [Session.inServer, List.map_append, List.append_assoc]
  case received =>
    rw [expected_send]
    exact hreceived.trans (List.prefix_append _ _)
  case behind =>
    rw [expected_send, List.length_append, List.length_map]
    have hle := hreceived.length_le
    rw [List.length_append] at hle
    show s.replies.flatten.length < _
    omega
  case count =>
    have hcount := hi.count
    rw [hidle] at hcount
    show s.replies.length + 1 = (s.sent ++ [message]).length
    rw [List.length_append, ← hcount]
    rfl

/-- The server ends only after the client has closed, so a `recv` of the client gets bytes. -/
theorem Inv.toClient_ne_nil (hi : Inv unicode server s) (hawaiting : s.awaiting = true)
    (hsome : s.toClient ≠ [] ∨ s.ending ≠ .waiting) : s.toClient ≠ [] :=
  hsome.resolve_right fun hended => by
    have hidle := (hi.closed (hi.ended hended).1).2
    rw [hawaiting] at hidle
    cases hidle

theorem Inv.capitalized_take (hi : Inv unicode server s) (n : ℕ) :
    server.capitalized unicode (s.toServer.take n) = .ok ((s.toServer.take n).map toupper) :=
  capitalized_ascii fun b hb => hi.toServer b (List.mem_of_mem_take hb)

theorem Inv.receive (hi : Inv unicode server s) (n : ℕ) (hawaiting : s.awaiting = true)
    (hsome : s.toClient ≠ [] ∨ s.ending ≠ .waiting) : Inv unicode server { s with
      awaiting := false
      replies := s.replies ++ [s.toClient.take (client.cut n)]
      toClient := s.toClient.drop (client.cut n) } := by
  have hne := hi.toClient_ne_nil hawaiting hsome
  -- the cut moves bytes from the stream to the replies
  have hbytes : (s.replies ++ [s.toClient.take (client.cut n)]).flatten
      ++ s.toClient.drop (client.cut n) = s.replies.flatten ++ s.toClient := by
    rw [List.flatten_concat, List.append_assoc, List.take_append_drop]
  refine { hi with
    balance := fun hwaiting => ?balance
    received := ?received
    behind := fun hidle => by cases hidle
    count := ?count
    replies := ?replies
    closed := fun hclosed => ⟨(hi.closed hclosed).1, rfl⟩ }
  case balance =>
    rw [hbytes]
    exact hi.balance hwaiting
  case received =>
    rw [hbytes]
    exact hi.received
  case count =>
    have hcount := hi.count
    rw [hawaiting] at hcount
    show (s.replies ++ [s.toClient.take (client.cut n)]).length + 0 = s.sent.length
    rw [List.length_append, ← hcount]
    rfl
  case replies =>
    intro reply hreply
    rcases List.mem_append.mp hreply with hold | hnew
    · exact hi.replies reply hold
    · rw [List.mem_singleton.mp hnew]
      exact take_cut_ne_nil client n hne

theorem Inv.close (hi : Inv unicode server s) (hunsent : s.unsent = [])
    (hidle : s.awaiting = false) : Inv unicode server { s with closed := true } :=
  { hi with
    closed := fun _ => ⟨hunsent, hidle⟩
    ended := fun hended => ⟨rfl, (hi.ended hended).2⟩ }

theorem Inv.read (hi : Inv unicode server s) (n : ℕ) (hlistening : s.Listening)
    (hsome : s.toServer ≠ []) {reply : Bytes}
    (hreply : server.capitalized unicode (s.toServer.take (server.cut n)) = .ok reply) :
    Inv unicode server { s with
      toServer := s.toServer.drop (server.cut n)
      held := some (s.toServer.take (server.cut n), reply) } := by
  obtain ⟨hwaiting, hnone⟩ := hlistening
  have hne : s.toServer.take (server.cut n) ≠ [] := take_cut_ne_nil server n hsome
  -- the answer is the upper case of the bytes that were taken
  obtain rfl := Except.ok.inj ((hi.capitalized_take _).symm.trans hreply)
  refine { hi with
    toServer := fun b hb => hi.toServer b (List.mem_of_mem_drop hb)
    held := fun data reply hheld => ?held
    balance := fun _ => ?balance
    ended := fun hended => absurd hwaiting hended }
  case held =>
    obtain ⟨rfl, rfl⟩ := Prod.mk.inj (Option.some.inj hheld)
    exact ⟨hne, hreply, fun hnil => hne (List.map_eq_nil_iff.mp hnil)⟩
  case balance =>
    have hbalance := hi.balance hwaiting
    rw [Session.inServer, hnone] at hbalance
    show s.replies.flatten ++ s.toClient ++ ((s.toServer.take (server.cut n)).map toupper
      ++ (s.toServer.drop (server.cut n)).map toupper) = _
    rw [← List.map_append, List.take_append_drop]
    exact hbalance

theorem Inv.held_waiting (hi : Inv unicode server s) {held : Bytes × Bytes}
    (hheld : s.held = some held) : s.ending = .waiting := by
  by_contra hended
  rw [(hi.ended hended).2.1] at hheld
  cases hheld

theorem Inv.answer (hi : Inv unicode server s) {data reply : Bytes}
    (hheld : s.held = some (data, reply)) : Inv unicode server { s with
      toClient := s.toClient ++ reply
      held := none
      passes := s.passes ++ [.received data false]
      answers := s.answers ++ [reply] } := by
  have hwaiting := hi.held_waiting hheld
  obtain ⟨hne, hreply, -⟩ := hi.held data reply hheld
  -- the answer moves from the server to the stream
  have hbalance : s.replies.flatten ++ (s.toClient ++ reply) ++ s.toServer.map toupper
      = s.expected := by
    rw [← hi.balance hwaiting, Session.inServer, hheld]
    simp only [Option.map_some, Option.getD_some, List.append_assoc]
  refine { hi with
    held := fun _ _ hnone => by cases hnone
    loop := ?loop
    balance := fun _ => hbalance
    received := ⟨_, hbalance⟩
    ended := fun hended => absurd hwaiting hended }
  case loop =>
    have hloop := hi.loop
    rw [hwaiting] at hloop
    rw [connectionLoop_concat hloop, connectionLoop,
      if_neg (by rw [List.isEmpty_iff]; exact hne), hreply, hwaiting]
    rfl

/-- The server ends when the client has closed. -/
theorem Inv.finish (hi : Inv unicode server s) (hwaiting : s.ending = .waiting)
    (hclosed : s.closed = true) {pass : Pass} {ending : Ending} (hending : ∀ e, ending ≠ .raised e)
    (hpass : connectionLoop (server.capitalized unicode) [pass] = ⟨[], ending⟩)
    (hne : ending ≠ .waiting) : Inv unicode server { s with
      held := none
      passes := s.passes ++ [pass]
      ending := ending } := by
  refine { hi with
    held := fun _ _ hnone => by cases hnone
    loop := ?loop
    balance := fun h => absurd h hne
    ended := fun _ => ⟨hclosed, rfl, hending⟩ }
  case loop =>
    have hloop := hi.loop
    rw [hwaiting] at hloop
    rw [connectionLoop_concat hloop, hpass, List.append_nil]

theorem inv_step (hi : Inv unicode server s) (h : step unicode client server s act = some s') :
    Inv unicode server s' := by
  cases step_cases h with
  | send message unsent hunsent hidle => exact hi.send hunsent hidle
  | receive n hawaiting hsome => exact hi.receive n hawaiting hsome
  | close hunsent hidle hopen => exact hi.close hunsent hidle
  -- what the client sends is ASCII, so no cut of it makes `decode` raise
  | raise n e hlistening hsome herror =>
      rw [hi.capitalized_take] at herror
      cases herror
  | read n reply hlistening hsome hreply => exact hi.read n hlistening hsome hreply
  | answer data reply hheld => exact hi.answer hheld
  | readEnd hlistening hclosed =>
      have hpass : connectionLoop (server.capitalized unicode) [.received [] false]
          = ⟨[], .clientClosed⟩ := rfl
      have h := hi.finish hlistening.1 hclosed (fun e he => by cases he) hpass (by decide)
      rwa [← hlistening.2] at h
  | recvFault hlistening hclosed =>
      have hpass : connectionLoop (server.capitalized unicode) [.recvError]
          = ⟨[], .recvError⟩ := rfl
      have h := hi.finish hlistening.1 hclosed (fun e he => by cases he) hpass (by decide)
      rwa [← hlistening.2] at h
  | sendFault data reply hheld hclosed =>
      obtain ⟨hne, hreply, -⟩ := hi.held data reply hheld
      refine hi.finish (hi.held_waiting hheld) hclosed (fun e he => by cases he) ?_ (by decide)
      rw [connectionLoop, if_neg (by rw [List.isEmpty_iff]; exact hne), hreply]
      rfl

theorem inv_run {acts : List Act} (hi : Inv unicode server s)
    (h : run unicode client server s acts = some s') : Inv unicode server s' :=
  Run.invariant_foldlM hi (fun _ _ _ _ hi h => inv_step hi h) h

/-! ## Progress -/

/-- The steps that are left at most. Every byte may be read and answered by itself. -/
def Session.rank (s : Session) : ℕ :=
  2 * s.unsent.length + (if s.awaiting then 1 else 0) + (if s.closed then 0 else 1)
    + (if s.ending = .waiting then 1 else 0) + 2 * (s.unsent.flatten.length + s.toServer.length)
    + (if s.held = none then 0 else 1)

theorem rank_step (h : step unicode client server s act = some s') : s'.rank + 1 ≤ s.rank := by
  -- a `recv` that returns takes at least a byte
  have hread : ∀ n, s.toServer ≠ [] →
      (s.toServer.drop (server.cut n)).length + 1 ≤ s.toServer.length := by
    intro n hne
    have hlength := List.length_pos_iff.mpr hne
    have hcut := server.cut_pos n
    rw [List.length_drop]
    omega
  cases step_cases h with
  | send message unsent hunsent hidle =>
      simp only [Session.rank, hunsent, hidle, List.length_cons, List.flatten_cons,
        List.length_append, if_true, Bool.false_eq_true, if_false]
      omega
  | receive n hawaiting hsome =>
      simp only [Session.rank, hawaiting, if_true, Bool.false_eq_true, if_false]
      omega
  | close hunsent hidle hopen =>
      simp only [Session.rank, hopen, if_true, Bool.false_eq_true, if_false]
      omega
  | raise n e hlistening hsome herror =>
      have hless := hread n hsome
      simp only [Session.rank, hlistening.1, if_true, reduceCtorEq, if_false]
      omega
  | read n reply hlistening hsome hreply =>
      have hless := hread n hsome
      simp only [Session.rank, hlistening.2, if_true, reduceCtorEq, if_false]
      omega
  | answer data reply hheld =>
      simp only [Session.rank, hheld, if_true, reduceCtorEq, if_false]
      omega
  | readEnd hlistening hclosed =>
      simp only [Session.rank, hlistening.1, if_true, reduceCtorEq, if_false]
      omega
  | recvFault hlistening hclosed =>
      simp only [Session.rank, hlistening.1, if_true, reduceCtorEq, if_false]
      omega
  | sendFault data reply hheld hclosed =>
      simp only [Session.rank, hheld, if_true, reduceCtorEq, if_false]
      split <;> omega

/-- The client has closed the connection, and the server has left its loop. -/
def Session.Finished (s : Session) : Prop := s.closed = true ∧ s.ending ≠ .waiting

/-- **Nobody waits for ever**: while the session is not finished, a step is possible. -/
theorem exists_step (hi : Inv unicode server s) (hopen : ¬ s.Finished) :
    ∃ act s', step unicode client server s act = some s' := by
  -- a server in its loop answers or reads what there is
  have hserver : s.ending = .waiting → s.held ≠ none ∨ s.toServer ≠ [] →
      ∃ act s', step unicode client server s act = some s' := by
    intro hwaiting hwork
    cases hheld : s.held with
    | some held => exact ⟨.answer, _, by rw [step, hheld]⟩
    | none =>
        have hsome : s.toServer ≠ [] := hwork.resolve_left (fun hne => hne hheld)
        refine ⟨.read 0, ?_⟩
        rw [step, if_pos ⟨⟨hwaiting, hheld⟩, hsome⟩]
        simp only [hi.capitalized_take]
        exact ⟨_, rfl⟩
  cases hclosed : s.closed with
  | false =>
      have hwaiting := hi.waiting hclosed
      cases hawaiting : s.awaiting with
      | false =>
          cases hunsent : s.unsent with
          | nil =>
              refine ⟨.close, _, if_pos ⟨hunsent, ?_, ?_⟩⟩
              · rw [hawaiting]
                exact Bool.false_ne_true
              · rw [hclosed]
                exact Bool.false_ne_true
          | cons message unsent =>
              refine ⟨.send, ?_⟩
              rw [step, hunsent]
              simp only [hawaiting, Bool.false_eq_true, if_false]
              exact ⟨_, rfl⟩
      | true =>
          by_cases hclient : s.toClient = []
          · -- the answer is still on its way, so the server has work
            apply hserver hwaiting
            by_contra hidle
            rw [not_or, not_not, not_not] at hidle
            have hbalance := hi.balance hwaiting
            rw [hclient, List.append_nil, Session.inServer, hidle.1, hidle.2] at hbalance
            have hbehind := hi.behind hawaiting
            rw [← hbalance] at hbehind
            simp only [Option.map_none, Option.getD_none, List.map_nil, List.append_nil] at hbehind
            exact absurd hbehind (lt_irrefl _)
          · exact ⟨.receive 0, _, if_pos ⟨hawaiting, .inl hclient⟩⟩
  | true =>
      -- the client has closed: the server takes what is left, and then `b''`
      have hwaiting : s.ending = .waiting := by
        by_contra hended
        exact hopen ⟨hclosed, hended⟩
      by_cases hwork : s.held ≠ none ∨ s.toServer ≠ []
      · exact hserver hwaiting hwork
      · rw [not_or, not_not, not_not] at hwork
        exact ⟨.readEnd, _, if_pos ⟨⟨hwaiting, hwork.1⟩, hwork.2, hclosed⟩⟩

/-- The client sends its messages in their order. -/
theorem sent_unsent (h : step unicode client server s act = some s') :
    s'.sent ++ s'.unsent = s.sent ++ s.unsent := by
  cases step_cases h with
  | send message unsent hunsent hidle =>
      show s.sent ++ [message] ++ unsent = s.sent ++ s.unsent
      rw [hunsent, List.append_assoc]
      rfl
  | _ => rfl

theorem sent_unsent_run {acts : List Act} (h : run unicode client server s acts = some s') :
    s'.sent ++ s'.unsent = s.sent ++ s.unsent :=
  Run.invariant_foldlM (P := fun x => x.sent ++ x.unsent = s.sent ++ s.unsent) rfl
    (fun _ _ _ _ hx h => (sent_unsent h).trans hx) h

/-! ## Without cuts -/

/-- Every reply so far is the upper case of its message, and the next one is on its way in one
piece. -/
inductive Session.Matched (s : Session) : Prop
  | idle (hidle : s.awaiting = false) (hreplies : s.replies = s.sent.map (List.map toupper))
      (hclient : s.toClient = []) (hheld : s.held = none) (hserver : s.toServer = [])
  | asked (done : List Bytes) (message : Bytes) (hawaiting : s.awaiting = true)
      (hsent : s.sent = done ++ [message]) (hreplies : s.replies = done.map (List.map toupper))
      (hplace : s.toClient = [] ∧ s.held = none ∧ s.toServer = message ∨
        s.toClient = [] ∧ s.held = some (message, message.map toupper) ∧ s.toServer = [] ∨
        s.toClient = message.map toupper ∧ s.held = none ∧ s.toServer = [])

/-- A closed session stays matched. -/
theorem Session.Matched.closed (hm : s.Matched) (hidle : s.awaiting = false)
    (hawaiting : s'.awaiting = s.awaiting) (hsent : s'.sent = s.sent)
    (hreplies : s'.replies = s.replies) (hclient : s'.toClient = s.toClient)
    (hheld : s'.held = s.held) (hserver : s'.toServer = s.toServer) : s'.Matched := by
  cases hm with
  | asked _ _ hasked =>
      rw [hidle] at hasked
      cases hasked
  | idle _ h₁ h₂ h₃ h₄ =>
      exact .idle (hawaiting.trans hidle) (by rw [hreplies, hsent, h₁]) (hclient.trans h₂)
        (hheld.trans h₃) (hserver.trans h₄)

theorem Session.Matched.in_order (hm : s.Matched) :
    s.replies <+: s.sent.map (List.map toupper) := by
  cases hm with
  | idle hidle hreplies hclient hheld hserver => rw [hreplies]
  | asked done message hawaiting hsent hreplies hplace =>
      rw [hreplies, hsent, List.map_append]
      exact List.prefix_append _ _

/-- A `recv` that is offered 15 bytes takes all of a message. -/
theorem Program.le_cut (program : Program) {n : ℕ} (hn : 15 ≤ n + 1) : 15 ≤ program.cut n := by
  have hlimit : 15 ≤ program.limit := by
    cases program with
    | python => decide
    | c => decide
  exact le_min hn hlimit

theorem matched_step (hi : Inv unicode server s) (hm : s.Matched)
    (hlength : ∀ message ∈ s.sent ++ s.unsent, message.length ≤ 15)
    (hwhole : ∀ n, act = .read n ∨ act = .receive n → 15 ≤ n + 1)
    (h : step unicode client server s act = some s') : s'.Matched := by
  cases step_cases h with
  | send message unsent hunsent hidle =>
      cases hm with
      | asked _ _ hawaiting =>
          rw [hidle] at hawaiting
          cases hawaiting
      | idle _ hreplies hclient hheld hserver =>
          refine .asked s.sent message rfl rfl hreplies (.inl ⟨hclient, hheld, ?_⟩)
          show s.toServer ++ message = message
          rw [hserver, List.nil_append]
  | receive n hawaiting hsome =>
      have hne : s.toClient ≠ [] := hi.toClient_ne_nil hawaiting hsome
      cases hm with
      | idle hidle =>
          rw [hidle] at hawaiting
          cases hawaiting
      | asked done message _ hsent hreplies hplace =>
          -- bytes on the way to the client are the answer in one piece
          obtain ⟨hclient, hheld, hserver⟩ :=
            (hplace.resolve_left fun h => hne h.1).resolve_left fun h => hne h.1
          have hmessage : message.length ≤ 15 := hlength message (by
            rw [hsent, List.append_assoc]
            exact List.mem_append_right _ List.mem_cons_self)
          have hcut : s.toClient.length ≤ client.cut n := by
            rw [hclient, List.length_map]
            exact hmessage.trans (client.le_cut (hwhole n (.inr rfl)))
          refine .idle rfl ?_ (List.drop_of_length_le hcut) hheld hserver
          show s.replies ++ [s.toClient.take (client.cut n)] = s.sent.map (List.map toupper)
          rw [List.take_of_length_le hcut, hclient, hreplies, hsent, List.map_append]
          rfl
  | close hunsent hidle hopen =>
      cases hm with
      | asked _ _ hawaiting =>
          rw [hidle] at hawaiting
          cases hawaiting
      | idle _ hreplies hclient hheld hserver => exact .idle hidle hreplies hclient hheld hserver
  | raise n e hlistening hsome herror =>
      rw [hi.capitalized_take] at herror
      cases herror
  | read n reply hlistening hsome hreply =>
      obtain rfl := Except.ok.inj ((hi.capitalized_take (server.cut n)).symm.trans hreply)
      cases hm with
      | idle _ _ _ _ hserver => exact absurd hserver hsome
      | asked done message hawaiting hsent hreplies hplace =>
          -- bytes on the way to the server are the message in one piece
          obtain ⟨hclient, -, hserver⟩ := hplace.resolve_right fun h => h.elim
            (fun h => hsome h.2.2) (fun h => hsome h.2.2)
          have hmessage : message.length ≤ 15 := hlength message (by
            rw [hsent, List.append_assoc]
            exact List.mem_append_right _ List.mem_cons_self)
          have hcut : s.toServer.length ≤ server.cut n := by
            rw [hserver]
            exact hmessage.trans (server.le_cut (hwhole n (.inl rfl)))
          refine .asked done message hawaiting hsent hreplies
            (.inr (.inl ⟨hclient, ?_, List.drop_of_length_le hcut⟩))
          show some (s.toServer.take (server.cut n), _) = _
          rw [List.take_of_length_le hcut, hserver]
  | answer data reply hheld =>
      cases hm with
      | idle _ _ _ hnone =>
          rw [hnone] at hheld
          cases hheld
      | asked done message hawaiting hsent hreplies hplace =>
          rcases hplace with ⟨-, hnone, -⟩ | ⟨hclient, hsome, hserver⟩ | ⟨-, hnone, -⟩
          · rw [hnone] at hheld
            cases hheld
          · obtain ⟨rfl, rfl⟩ := Prod.mk.inj (Option.some.inj (hsome.symm.trans hheld))
            refine .asked done message hawaiting hsent hreplies (.inr (.inr ⟨?_, rfl, hserver⟩))
            show s.toClient ++ message.map toupper = message.map toupper
            rw [hclient, List.nil_append]
          · rw [hnone] at hheld
            cases hheld
  | readEnd hlistening hclosed => exact hm.closed (hi.closed hclosed).2 rfl rfl rfl rfl rfl rfl
  | recvFault hlistening hclosed => exact hm.closed (hi.closed hclosed).2 rfl rfl rfl rfl rfl rfl
  | sendFault data reply hheld hclosed =>
      cases hm with
      | idle _ _ _ hnone =>
          rw [hnone] at hheld
          cases hheld
      -- a client that has closed is not waiting, so nothing of it is held
      | asked _ _ hawaiting =>
          rw [(hi.closed hclosed).2] at hawaiting
          cases hawaiting

end Machine

/-! ## Sessions of drawn messages -/

section Sessions

variable (unicode : Unicode) (client server : Program) (draws : List Draw) (acts : List Act)
  (s : Session)

theorem inv_sentences : Inv unicode server (start (draws.map sentence)) := by
  apply inv_start
  intro message hmessage
  obtain ⟨draw, -, rfl⟩ := List.mem_map.mp hmessage
  refine ⟨List.length_pos_iff.mp ?_, sentence_ascii draw⟩
  rw [length_sentence]
  exact Nat.lt_of_lt_of_le (by decide) draw.length_ge

theorem length_sentences : ∀ message ∈ draws.map sentence, message.length ≤ 15 := by
  intro message hmessage
  obtain ⟨draw, -, rfl⟩ := List.mem_map.mp hmessage
  rw [length_sentence]
  exact draw.length_le

theorem length_flatten_le {messages : List Bytes} {k : ℕ}
    (h : ∀ message ∈ messages, message.length ≤ k) :
    messages.flatten.length ≤ k * messages.length := by
  induction messages with
  | nil => exact Nat.zero_le _
  | cons message messages ih =>
      have hone := h message List.mem_cons_self
      have hrest := ih fun m hm => h m (List.mem_cons_of_mem message hm)
      rw [List.flatten_cons, List.length_append, List.length_cons, Nat.mul_succ]
      omega

/-- **Nothing is lost, doubled or out of order.** In any order of the steps and with any cuts, the
replies together are the beginning of the messages in upper case; if moreover no `recv` is offered
less than a message, each reply is the upper case of its own message. -/
theorem replies_in_order
    (h : run unicode client server (start (draws.map sentence)) acts = some s) :
    s.sent ++ s.unsent = draws.map sentence ∧
      s.replies.flatten <+: s.sent.flatten.map toupper ∧
      ((∀ n, .read n ∈ acts ∨ .receive n ∈ acts → 15 ≤ n + 1) →
        s.replies <+: s.sent.map (List.map toupper)) := by
  have hsent : s.sent ++ s.unsent = draws.map sentence := sent_unsent_run h
  have hi := inv_run (inv_sentences unicode server draws) h
  refine ⟨hsent, (List.prefix_append _ _).trans hi.received, fun hwhole => ?_⟩
  -- the bound on the messages is part of the invariant, as those still to send are asked for too
  have hall : Inv unicode server s ∧ s.sent ++ s.unsent = draws.map sentence ∧ s.Matched := by
    refine Run.invariant_foldlM (P := fun s => Inv unicode server s ∧
        s.sent ++ s.unsent = draws.map sentence ∧ s.Matched)
      ⟨inv_sentences unicode server draws, rfl, .idle rfl rfl rfl rfl rfl⟩
      (fun s s' act hact ⟨hi, hsent, hm⟩ hstep => ?_) h
    refine ⟨inv_step hi hstep, (sent_unsent hstep).trans hsent, matched_step hi hm ?_ ?_ hstep⟩
    · rw [hsent]
      exact length_sentences draws
    · rintro n (rfl | rfl)
      · exact hwhole n (.inl hact)
      · exact hwhole n (.inr hact)
  exact hall.2.2.in_order

/-- **A session goes on to its end.** Whatever the cuts and the order of the steps, the server does
what its loop does, and never raises; no reply is empty; as long as the session is not finished a
step is possible, and at most 32 steps a message and two more are made; in the end the client has a
reply for every message. -/
theorem session_ends (h : run unicode client server (start (draws.map sentence)) acts = some s) :
    connectionLoop (server.capitalized unicode) s.passes = ⟨s.answers, s.ending⟩ ∧
      (∀ e, s.ending ≠ .raised e) ∧ (∀ reply ∈ s.replies, reply ≠ []) ∧
      (¬ s.Finished → ∃ act s', step unicode client server s act = some s') ∧
      acts.length ≤ 32 * draws.length + 2 ∧
      (s.Finished → s.replies.length = draws.length) := by
  have hi := inv_run (inv_sentences unicode server draws) h
  refine ⟨hi.loop, fun e he => ?_, hi.replies, exists_step hi, ?_, fun hfinished => ?_⟩
  · have hended : s.ending ≠ .waiting := by
      rw [he]
      exact Ending.noConfusion
    exact (hi.ended hended).2.2 e he
  · have hsteps := Run.length_foldlM (P := fun _ => True) Session.rank trivial
      (fun _ _ _ _ hstep => ⟨trivial, rank_step hstep⟩) h
    -- 15 bytes are read and answered one by one at most, and each message is sent and awaited
    have hbytes := length_flatten_le (length_sentences draws)
    have hstart : (start (draws.map sentence)).rank
        = 2 * (draws.map sentence).length + 2 + 2 * (draws.map sentence).flatten.length := rfl
    rw [List.length_map] at hbytes hstart
    omega
  · obtain ⟨hunsent, hidle⟩ := hi.closed hfinished.1
    have hcount := hi.count
    have hsent := congrArg List.length (sent_unsent_run h)
    rw [hidle] at hcount
    rw [hunsent, List.append_nil] at hsent
    have hall : s.sent.length = draws.length := hsent.trans (List.length_map sentence)
    exact hcount.trans hall

end Sessions

/-! ## A session with one message -/

/-- A message that is cut in two, and a client that does not wait for the second part. -/
def cutActs : List Act := [.send, .read 1, .answer, .receive 9, .close, .read 9, .sendFault]

def wholeActs : List Act := [.send, .read 99, .answer, .receive 99, .close, .readEnd]

theorem replies_in_order_hello : ∃ (draw : Draw) (s : Session),
    randomMessage draw = "hello".toList ∧
      run .ascii .python .c (start [sentence draw]) wholeActs = some s ∧
      s.replies <+: s.sent.map (List.map toupper) := by
  let draw : Draw := ⟨[⟨7, by decide⟩, ⟨4, by decide⟩, ⟨11, by decide⟩, ⟨11, by decide⟩,
    ⟨14, by decide⟩], by decide, by decide⟩
  obtain ⟨s, hs⟩ := Option.isSome_iff_exists.mp (show (run .ascii .python .c
    (start [sentence draw]) wholeActs).isSome = true by decide)
  refine ⟨draw, s, by decide, hs, (replies_in_order .ascii .python .c [draw] wholeActs s hs).2.2 ?_⟩
  intro n hn
  simp only [wholeActs, List.mem_cons, List.not_mem_nil, reduceCtorEq, Act.read.injEq,
    Act.receive.injEq, or_false, false_or] at hn
  omega

theorem session_ends_hello : ∃ (draw : Draw) (s : Session),
    randomMessage draw = "hello".toList ∧
      run .ascii .python .c (start [sentence draw]) cutActs = some s ∧
      s.replies = [[72, 69]] ∧ ∀ e, s.ending ≠ .raised e := by
  let draw : Draw := ⟨[⟨7, by decide⟩, ⟨4, by decide⟩, ⟨11, by decide⟩, ⟨11, by decide⟩,
    ⟨14, by decide⟩], by decide, by decide⟩
  obtain ⟨s, hs⟩ := Option.isSome_iff_exists.mp (show (run .ascii .python .c
    (start [sentence draw]) cutActs).isSome = true by decide)
  have hreplies : (run .ascii .python .c (start [sentence draw]) cutActs).map Session.replies
      = some [[72, 69]] := by decide
  rw [hs] at hreplies
  exact ⟨draw, s, by decide, hs, Option.some.inj hreplies,
    (session_ends .ascii .python .c [draw] cutActs s hs).2.1⟩

end Echo
