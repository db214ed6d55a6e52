import DistWorkshops.Lib.PyFloat
import DistWorkshops.Lib.Utf8
import DistWorkshops.Peers.Node

/-!
# The wire between two peers

The bytes that pass between the server thread of a node, `_serve`, and a peer that reads its
answer with `parse_reply`. The name of a node goes into every answer: `validate_name` admits short
names without white space, so an answer is two words that fit into a message. An error is
answered too, with text of the request in it, but it has three words at least.

The texts are Unicode, so a name has no lone surrogate. `detail` is the end of the message of a
`UnicodeDecodeError`.
-/

set_option autoImplicit false

namespace Peers

open Text Decimal

abbrev Bytes := List UInt8

def timeRequest : List Char := "TIME".toList

def maxMessageBytes : ℕ := 256

/-! ## Names -/

inductive NameError where
  | empty
  | tooLong (length : ℕ)
  | spaces (name : List Char)
  deriving DecidableEq

def validateName : Option (List Char) → Except NameError (List Char)
  | none => .error .empty
  | some value =>
      let name := strip value
      if name.isEmpty then .error .empty
      else if name.length > 32 then .error (.tooLong name.length)
      else if name.any isSpace then .error (.spaces name)
      else .ok name

/-- What `validate_name` accepts. -/
theorem validateName_ok {value : Option (List Char)} {name : List Char}
    (h : validateName value = .ok name) : name ≠ [] ∧ name.length ≤ 32 ∧ Solid name := by
  cases value with
  | none => cases h
  | some value =>
      simp only [validateName] at h
      by_cases hempty : (strip value).isEmpty = true
      · rw [if_pos hempty] at h
        cases h
      rw [if_neg hempty] at h
      by_cases hlong : (strip value).length > 32
      · rw [if_pos hlong] at h
        cases h
      rw [if_neg hlong] at h
      by_cases hspaces : (strip value).any isSpace = true
      · rw [if_pos hspaces] at h
        cases h
      rw [if_neg hspaces] at h
      obtain rfl := Except.ok.inj h
      refine ⟨fun hnil => hempty (List.isEmpty_iff.mpr hnil), by omega, fun c hc => ?_⟩
      by_contra hspace
      exact hspaces (List.any_eq_true.mpr ⟨c, hc, Bool.not_eq_false _ ▸ hspace⟩)

/-! ## Replies -/

/-- The errors of `parse_reply`, with the values their messages show. -/
inductive ReplyError where
  | empty
  | tooLarge (bytes : ℕ)
  | notUtf8
  | malformed (text : List Char)
  | notANumber (stamp : List Char)
  | notPositive (peerTime : PyFloat)
  | tooFar (peerName : List Char) (difference : PyFloat)
  deriving DecidableEq

def parseReply (unicode : Unicode) (raw : Bytes) (ownTime : ℚ) :
    Except ReplyError (List Char × PyFloat) :=
  if raw.isEmpty then .error .empty
  else if raw.length > maxMessageBytes then .error (.tooLarge raw.length)
  else match Utf8.decode raw with
    | none => .error .notUtf8
    | some decoded =>
        let text := strip decoded
        match split text with
        | [peerName, stamp] =>
            match PyFloat.float? unicode stamp with
            | none => .error (.notANumber stamp)
            | some peerTime =>
                if peerTime.le 0 then .error (.notPositive peerTime)
                else if (peerTime.sub ownTime).abs.gt maxPlausibleSkew then
                  .error (.tooFar peerName (peerTime.sub ownTime))
                else .ok (peerName, peerTime)
        | _ => .error (.malformed text)

/-! ## The server -/

/-- What passes through a REP socket. -/
inductive Event where
  | recv (raw : Bytes)
  | send (reply : Bytes)
  deriving DecidableEq

/-- A REP socket takes requests and replies in turn. -/
structure RepSocket where
  unanswered : Bool
  log : List Event

/-- There is no next state when the socket raises `ZMQError`. -/
def RepSocket.recv (socket : RepSocket) (raw : Bytes) : Option RepSocket :=
  if socket.unanswered then none else some ⟨true, socket.log ++ [.recv raw]⟩

def RepSocket.sendString (socket : RepSocket) (text : List Char) : Option RepSocket :=
  if socket.unanswered then some ⟨false, socket.log ++ [.send (Utf8.encode text)]⟩ else none

/-- A request, and the local time when it is handled. -/
structure Request where
  raw : Bytes
  localTime : ℚ

section Server

variable (detail : Bytes → List Char) (unicode : Unicode) (name : List Char)

/-- The answer to a request, or the text of the `ValueError` that is raised. -/
def timeReply (request : Request) : Except (List Char) (List Char) :=
  if request.raw.length > maxMessageBytes then .error "request too large".toList
  else match Utf8.decode request.raw with
    | none => .error ("'utf-8' codec can't decode ".toList ++ detail request.raw)
    | some decoded =>
        let text := unicode.upper (strip decoded)
        if text ≠ timeRequest then .error ("unknown request '".toList ++ text ++ ['\''])
        else .ok (name ++ ' ' :: fixed 6 request.localTime)

def replyText (request : Request) : List Char :=
  match timeReply detail unicode name request with
  | .ok text => text
  | .error exc => "ERROR ".toList ++ exc

/-- One turn of the loop: every request is answered. -/
def serveOne (socket : RepSocket) (request : Request) : Option RepSocket := do
  let socket ← socket.recv request.raw
  socket.sendString (replyText detail unicode name request)

def serve (socket : RepSocket) (requests : List Request) : Option RepSocket :=
  requests.foldlM (serveOne detail unicode name) socket

def reply (request : Request) : Bytes := Utf8.encode (replyText detail unicode name request)

/-- A request that is `TIME` after decoding, stripping and upper-casing, and not too long. -/
def IsTimeRequest (raw : Bytes) : Prop :=
  raw.length ≤ maxMessageBytes ∧
    ∃ decoded, Utf8.decode raw = some decoded ∧ unicode.upper (strip decoded) = timeRequest

/-! ## One reply for each request -/

theorem serveOne_eq (log : List Event) (request : Request) :
    serveOne detail unicode name ⟨false, log⟩ request
      = some ⟨false, log ++ [.recv request.raw, .send (reply detail unicode name request)]⟩ := by
  have h : log ++ [.recv request.raw, .send (reply detail unicode name request)]
      = log ++ [.recv request.raw] ++ [.send (reply detail unicode name request)] := by
    rw [List.append_assoc]
    rfl
  rw [h]
  rfl

/-- The socket is never asked out of turn. -/
theorem serve_eq (log : List Event) (requests : List Request) :
    serve detail unicode name ⟨false, log⟩ requests
      = some ⟨false, log ++ requests.flatMap fun request =>
          [.recv request.raw, .send (reply detail unicode name request)]⟩ := by
  induction requests generalizing log with
  | nil =>
      rw [List.flatMap_nil, List.append_nil]
      rfl
  | cons request requests ih =>
      rw [serve, List.foldlM_cons, serveOne_eq]
      show serve detail unicode name _ requests = _
      rw [ih, List.flatMap_cons, List.append_assoc]

/-! ## What the server says -/

theorem timeReply_of_time {request : Request} (h : IsTimeRequest unicode request.raw) :
    timeReply detail unicode name request = .ok (name ++ ' ' :: fixed 6 request.localTime) := by
  obtain ⟨hlen, decoded, hdecoded, htext⟩ := h
  simp only [timeReply, if_neg (Nat.not_lt.mpr hlen), hdecoded, htext, ne_eq, not_true_eq_false,
    if_false]

/-- Any other request raises a `ValueError` whose text has two words and more. -/
theorem timeReply_of_other {request : Request} (h : ¬ IsTimeRequest unicode request.raw) :
    ∃ w w' rest, timeReply detail unicode name request
        = .error (w ++ ' ' :: (w' ++ ' ' :: rest)) ∧
      (w ≠ [] ∧ Solid w) ∧ w' ≠ [] ∧ Solid w' := by
  unfold timeReply
  by_cases hlen : request.raw.length > maxMessageBytes
  · rw [if_pos hlen]
    exact ⟨"request".toList, "too".toList, "large".toList, rfl, by decide,
      by decide⟩
  · rw [if_neg hlen]
    cases hdecoded : Utf8.decode request.raw with
    | none =>
        exact ⟨"'utf-8'".toList, "codec".toList, "can't decode ".toList ++ detail request.raw, rfl,
          by decide, by decide +kernel⟩
    | some decoded =>
        have htext : unicode.upper (strip decoded) ≠ timeRequest := fun htext =>
          h ⟨Nat.not_lt.mp hlen, decoded, hdecoded, htext⟩
        simp only [ne_eq, htext, not_false_eq_true, if_true]
        exact ⟨"unknown".toList, "request".toList,
          '\'' :: (unicode.upper (strip decoded) ++ ['\'']), rfl, by decide,
          by decide⟩

end Server

/-! ## What the peer reads -/

/-- A reply that is not two words is rejected. -/
theorem parseReply_rejects (unicode : Unicode) {text : List Char}
    (h : ∀ w w', split text ≠ [w, w']) (ownTime : ℚ) :
    ∃ e, parseReply unicode (Utf8.encode text) ownTime = .error e := by
  unfold parseReply
  by_cases hempty : (Utf8.encode text).isEmpty = true
  · exact ⟨_, if_pos hempty⟩
  rw [if_neg hempty]
  by_cases hlarge : (Utf8.encode text).length > maxMessageBytes
  · exact ⟨_, if_pos hlarge⟩
  rw [if_neg hlarge]
  simp only [Utf8.decode_encode, split_strip]
  exact ⟨_, rfl⟩

/-- A name and a number that fits: what is left is the check of the time. -/
theorem parseReply_iff_checkTime (unicode : Unicode) {text peerName stamp : List Char} {q : ℚ}
    (hlen : (Utf8.encode text).length ≤ maxMessageBytes) (hsplit : split text = [peerName, stamp])
    (hstamp : PyFloat.float? unicode stamp = some (.num q)) (ownTime t : ℚ) :
    parseReply unicode (Utf8.encode text) ownTime = .ok (peerName, .num t) ↔
      checkTime q ownTime = .ok t := by
  have hempty : ¬ (Utf8.encode text).isEmpty = true := by
    rw [List.isEmpty_iff, Utf8.encode_eq_nil_iff]
    rintro rfl
    cases hsplit
  unfold parseReply checkTime
  rw [if_neg hempty, if_neg (Nat.not_lt.mpr hlen)]
  simp only [Utf8.decode_encode, split_strip, hsplit, hstamp, PyFloat.le, PyFloat.sub, PyFloat.abs,
    PyFloat.gt, decide_eq_true_eq]
  by_cases hpos : q ≤ 0
  · rw [if_pos hpos, if_pos hpos]
    exact iff_of_false (fun h => by cases h) (fun h => by cases h)
  rw [if_neg hpos, if_neg hpos]
  by_cases hskew : |q - ownTime| > maxPlausibleSkew
  · rw [if_pos hskew, if_pos hskew]
    exact iff_of_false (fun h => by cases h) (fun h => by cases h)
  rw [if_neg hskew, if_neg hskew]
  simp only [Except.ok.injEq, Prod.mk.injEq, true_and, PyFloat.num.injEq]

/-! ## The two ends together -/

section Agreement

variable (detail : Bytes → List Char) (unicode : Unicode)

/-- **The answer to `TIME` is read back**, if the time is plausible. -/
theorem parseReply_time {value : Option (List Char)} {name : List Char}
    (hname : validateName value = .ok name) {request : Request}
    (hlocal : request.localTime < 10 ^ 100) (htime : IsTimeRequest unicode request.raw)
    {ownTime : ℚ} (hpos : 0 < roundTo 6 request.localTime)
    (hskew : |roundTo 6 request.localTime - ownTime| ≤ maxPlausibleSkew) :
    parseReply unicode (reply detail unicode name request) ownTime
      = .ok (name, .num (roundTo 6 request.localTime)) := by
  obtain ⟨hne, hshort, hsolid⟩ := validateName_ok hname
  have hnonneg : 0 ≤ request.localTime := by
    by_contra hneg
    exact absurd (roundTo_nonpos 6 (le_of_lt (not_le.mp hneg))) (not_le.mpr hpos)
  have hreply : reply detail unicode name request
      = Utf8.encode (name ++ ' ' :: fixed 6 request.localTime) := by
    rw [reply, replyText, timeReply_of_time detail unicode name htime]
  have hsplit : split (name ++ ' ' :: fixed 6 request.localTime)
      = [name, fixed 6 request.localTime] := by
    obtain ⟨c, cs, hcs, -⟩ := fixed_head 6 hnonneg
    have hstamp : fixed 6 request.localTime ≠ [] := by
      rw [hcs]
      exact List.cons_ne_nil c cs
    rw [split_word_space hne hsolid, split_word hstamp (fixed_solid hnonneg)]
  have hlen : (Utf8.encode (name ++ ' ' :: fixed 6 request.localTime)).length
      ≤ maxMessageBytes := by
    have hfixed : (Utf8.encode (' ' :: fixed 6 request.localTime)).length ≤ 109 := by
      rw [Utf8.length_encode_ascii, List.length_cons]
      · exact Nat.succ_le_succ (length_fixed (by decide) hnonneg hlocal)
      · intro c hc
        rcases List.mem_cons.mp hc with rfl | hc
        · decide
        rcases mem_fixed hnonneg hc with hdigit | rfl
        · have := (isDigit_iff c).mp hdigit
          omega
        · decide
    have hencoded : (Utf8.encode name).length ≤ 4 * name.length := Utf8.length_encode_le name
    rw [Utf8.encode_append, List.length_append, maxMessageBytes]
    omega
  rw [hreply, parseReply_iff_checkTime unicode hlen hsplit
    (PyFloat.float?_fixed unicode (by decide) hnonneg)]
  rw [checkTime, if_neg (not_le.mpr hpos), if_neg (not_lt.mpr hskew)]

/-- **The answer to any other request is rejected**, whatever it quotes. -/
theorem parseReply_error (name : List Char) {request : Request}
    (h : ¬ IsTimeRequest unicode request.raw) (ownTime : ℚ) :
    ∃ e, parseReply unicode (reply detail unicode name request) ownTime = .error e := by
  obtain ⟨w, w', rest, htext, ⟨hne, hsolid⟩, hne', hsolid'⟩ :=
    timeReply_of_other detail unicode name h
  have hreply : reply detail unicode name request
      = Utf8.encode ("ERROR".toList ++ ' ' :: (w ++ ' ' :: (w' ++ ' ' :: rest))) := by
    rw [reply, replyText, htext]
    rfl
  rw [hreply]
  apply parseReply_rejects
  intro v v' hsplit
  rw [split_word_space (by decide) (by decide), split_word_space hne hsolid,
    split_word_space hne' hsolid'] at hsplit
  cases hsplit

/-- **Server and client agree on the wire.** For a valid name and any requests, the server takes
each request and answers it before the next; the answer to `TIME` is read as the name and the
local time in six decimals when that is positive and plausible; and every other answer is
rejected. -/
theorem wire_agreement (value : Option (List Char)) (name : List Char)
    (hname : validateName value = .ok name) (requests : List Request)
    (hlocal : ∀ request ∈ requests, request.localTime < 10 ^ 100) :
    serve detail unicode name ⟨false, []⟩ requests
        = some ⟨false, requests.flatMap fun request =>
            [.recv request.raw, .send (reply detail unicode name request)]⟩ ∧
      ∀ request ∈ requests, ∀ ownTime,
        (IsTimeRequest unicode request.raw → 0 < roundTo 6 request.localTime →
          |roundTo 6 request.localTime - ownTime| ≤ maxPlausibleSkew →
          parseReply unicode (reply detail unicode name request) ownTime
            = .ok (name, .num (roundTo 6 request.localTime))) ∧
        (¬ IsTimeRequest unicode request.raw →
          ∃ e, parseReply unicode (reply detail unicode name request) ownTime = .error e) := by
  refine ⟨serve_eq detail unicode name [] requests, fun request hrequest ownTime => ⟨?_, ?_⟩⟩
  · intro htime hpos hskew
    exact parseReply_time detail unicode hname (hlocal request hrequest) htime hpos hskew
  · intro hother
    exact parseReply_error detail unicode name hother ownTime

end Agreement

/-- A node whose name is typed with white space around it, asked twice. -/
theorem wire_agreement_two :
    let requests : List Request := [⟨Utf8.encode "time\n".toList, 1000⟩, ⟨[0x48, 0x49], 1001⟩]
    serve (fun _ => []) .ascii ['A'] ⟨false, []⟩ requests
        = some ⟨false, requests.flatMap fun request =>
            [.recv request.raw, .send (reply (fun _ => []) .ascii ['A'] request)]⟩ ∧
      ∀ request ∈ requests, ∀ ownTime,
        (IsTimeRequest .ascii request.raw → 0 < roundTo 6 request.localTime →
          |roundTo 6 request.localTime - ownTime| ≤ maxPlausibleSkew →
          parseReply .ascii (reply (fun _ => []) .ascii ['A'] request) ownTime
            = .ok (['A'], .num (roundTo 6 request.localTime))) ∧
        (¬ IsTimeRequest .ascii request.raw →
          ∃ e, parseReply .ascii (reply (fun _ => []) .ascii ['A'] request) ownTime
            = .error e) := by
  refine wire_agreement (fun _ => []) .ascii (some " A\t".toList) ['A'] (by decide) _ ?_
  intro request hrequest
  rcases List.mem_pair.mp hrequest with rfl | rfl
  · show (1000 : ℚ) < 10 ^ 100
    norm_num
  · show (1001 : ℚ) < 10 ^ 100
    norm_num

end Peers
