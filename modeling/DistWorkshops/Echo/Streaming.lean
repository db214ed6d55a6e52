import DistWorkshops.Lib.Text
import DistWorkshops.Lib.Utf8
import DistWorkshops.Python

/-!
# The streaming echo server

The connection loop of `server-random-msgs.py`, and that of `server-random-msgs.c`: what one `recv`
returns is turned into upper case and sent back, until the client closes the connection. TCP may
cut the bytes of the client anywhere, and `recv` returns them chunk by chunk. The C server works
byte by byte; the Python one decodes each chunk by itself, outside of the `try` statements that
guard `recv` and `send`.
-/

set_option autoImplicit false

namespace Echo

open Text

abbrev Bytes := List UInt8

/-- What the network does in one pass of the loop. -/
inductive Pass where
  | recvError
  | received (data : Bytes) (sendError : Bool)

/-- Where the loop stops. -/
inductive Ending where
  | waiting
  | clientClosed
  | recvError
  | sendError
  | raised (e : PyError)
  deriving DecidableEq

/-- What went back on a connection. -/
structure Served where
  sent : List Bytes
  ending : Ending
  deriving DecidableEq

def Served.after (served : Served) (reply : Bytes) : Served :=
  { served with sent := reply :: served.sent }

/-! ## The loop -/

section Loop

variable (capitalized : Bytes → Except PyError Bytes)

/-- The loop of both servers. A `send` takes the whole reply, or fails. -/
def connectionLoop : List Pass → Served
  | [] => ⟨[], .waiting⟩
  | .recvError :: _ => ⟨[], .recvError⟩
  | .received data sendError :: passes =>
      if data.isEmpty then ⟨[], .clientClosed⟩
      else match capitalized data with
        | .error e => ⟨[], .raised e⟩
        | .ok reply =>
            if sendError then ⟨[], .sendError⟩ else (connectionLoop passes).after reply

/-- A connection that delivers the chunks and is then closed by the client. -/
def delivery (chunks : List Bytes) : List Pass :=
  chunks.map (Pass.received · false) ++ [.received [] false]

variable {capitalized}

theorem connectionLoop_delivery_cons {chunk : Bytes} (hne : chunk ≠ []) {reply : Bytes}
    (h : capitalized chunk = .ok reply) (chunks : List Bytes) :
    connectionLoop capitalized (delivery (chunk :: chunks))
      = (connectionLoop capitalized (delivery chunks)).after reply := by
  have hempty : chunk.isEmpty = false := List.isEmpty_eq_false_iff.mpr hne
  show connectionLoop capitalized (.received chunk false :: delivery chunks) = _
  rw [connectionLoop, hempty, h]
  rfl

/-- Every chunk is answered by itself. -/
theorem connectionLoop_delivery {f : Bytes → Bytes} {chunks : List Bytes}
    (h : ∀ chunk ∈ chunks, chunk ≠ [] ∧ capitalized chunk = .ok (f chunk)) :
    connectionLoop capitalized (delivery chunks) = ⟨chunks.map f, .clientClosed⟩ := by
  induction chunks with
  | nil => rfl
  | cons chunk chunks ih =>
      obtain ⟨hne, hreply⟩ := h chunk List.mem_cons_self
      rw [connectionLoop_delivery_cons hne hreply,
        ih fun c hc => h c (List.mem_cons_of_mem chunk hc)]
      rfl

/-- A chunk that cannot be turned into upper case ends the server. -/
theorem connectionLoop_raises {chunks : List Bytes} (hne : ∀ chunk ∈ chunks, chunk ≠ [])
    {bad : Bytes} (hbad : bad ∈ chunks) {e : PyError} (herror : capitalized bad = .error e) :
    ∃ e', (connectionLoop capitalized (delivery chunks)).ending = .raised e' := by
  induction chunks with
  | nil => exact absurd hbad List.not_mem_nil
  | cons chunk chunks ih =>
      have hchunk := hne chunk List.mem_cons_self
      cases hreply : capitalized chunk with
      | error e' =>
          have hempty : chunk.isEmpty = false := List.isEmpty_eq_false_iff.mpr hchunk
          refine ⟨e', ?_⟩
          show (connectionLoop capitalized (.received chunk false :: delivery chunks)).ending = _
          rw [connectionLoop, hempty, hreply]
          rfl
      | ok reply =>
          have hlater : bad ∈ chunks := by
            rcases List.mem_cons.mp hbad with rfl | hlater
            · rw [herror] at hreply
              cases hreply
            · exact hlater
          rw [connectionLoop_delivery_cons hchunk hreply]
          exact ih (fun c hc => hne c (List.mem_cons_of_mem chunk hc)) hlater

end Loop

/-! ## The Python server -/

/-- `data.decode().upper().encode()`. -/
def capitalizedSentence (unicode : Unicode) (data : Bytes) : Except PyError Bytes :=
  match Utf8.decode data with
  | some sentence => .ok (Utf8.encode (unicode.upper sentence))
  | none => .error .valueError

def serve (unicode : Unicode) (passes : List Pass) : Served :=
  connectionLoop (capitalizedSentence unicode) passes

theorem capitalizedSentence_encode (unicode : Unicode) (sentence : List Char) :
    capitalizedSentence unicode (Utf8.encode sentence)
      = .ok (Utf8.encode (unicode.upper sentence)) := by
  rw [capitalizedSentence, Utf8.decode_encode]

theorem upper_flatten (unicode : Unicode) (pieces : List (List Char)) :
    unicode.upper pieces.flatten = (pieces.map unicode.upper).flatten := by
  induction pieces with
  | nil => rfl
  | cons s pieces ih =>
      rw [List.flatten_cons, Unicode.upper_append, ih, List.map_cons, List.flatten_cons]

/-- The run of the server over pieces of a text. -/
theorem serve_pieces (unicode : Unicode) {pieces : List (List Char)}
    (hne : ∀ chunk ∈ pieces.map Utf8.encode, chunk ≠ []) :
    serve unicode (delivery (pieces.map Utf8.encode))
      = ⟨pieces.map fun s => Utf8.encode (unicode.upper s), .clientClosed⟩ := by
  induction pieces with
  | nil => rfl
  | cons s pieces ih =>
      have hs := hne (Utf8.encode s) List.mem_cons_self
      have hrest := ih fun c hc => hne c (List.mem_cons_of_mem (Utf8.encode s) hc)
      rw [List.map_cons, serve,
        connectionLoop_delivery_cons hs (capitalizedSentence_encode unicode s)]
      rw [serve] at hrest
      rw [hrest]
      rfl

/-- **The server transforms the text exactly when no chunk ends inside a character**: then it
sends back the text in upper case and does not raise. -/
theorem serve_transforms_iff (unicode : Unicode) {text : List Char} {chunks : List Bytes}
    (hchunks : chunks.flatten = Utf8.encode text)
    (hsizes : ∀ chunk ∈ chunks, 1 ≤ chunk.length ∧ chunk.length ≤ 1024) :
    ((serve unicode (delivery chunks)).sent.flatten = Utf8.encode (unicode.upper text) ∧
        ∀ e, (serve unicode (delivery chunks)).ending ≠ .raised e) ↔
      Utf8.Uncut text chunks := by
  have hne : ∀ chunk ∈ chunks, chunk ≠ [] := fun chunk hchunk =>
    List.length_pos_iff.mp (hsizes chunk hchunk).1
  constructor
  · rintro ⟨-, hnoraise⟩
    rw [Utf8.uncut_iff_decode hchunks]
    intro chunk hchunk
    cases hdecode : Utf8.decode chunk with
    | some s => exact ⟨s, rfl⟩
    | none =>
        have herror : capitalizedSentence unicode chunk = .error .valueError := by
          rw [capitalizedSentence, hdecode]
        obtain ⟨e, he⟩ := connectionLoop_raises hne hchunk herror
        exact absurd he (hnoraise e)
  · intro huncut
    obtain ⟨pieces, rfl⟩ := (Utf8.uncut_iff_pieces hchunks).mp huncut
    rw [← Utf8.encode_flatten] at hchunks
    rw [serve_pieces unicode hne, ← Utf8.encode_injective hchunks]
    refine ⟨?_, nofun⟩
    show (pieces.map fun s => Utf8.encode (unicode.upper s)).flatten = _
    rw [upper_flatten, Utf8.encode_flatten, List.map_map]
    rfl

theorem serve_transforms_iff_two :
    Utf8.Uncut "año".toList [Utf8.encode "a".toList, Utf8.encode "ño".toList] ∧
      (serve .ascii (delivery [Utf8.encode "a".toList, Utf8.encode "ño".toList])).sent.flatten
        = Utf8.encode (Unicode.ascii.upper "año".toList) := by
  have huncut : Utf8.Uncut "año".toList [Utf8.encode "a".toList, Utf8.encode "ño".toList] :=
    (Utf8.uncut_iff_pieces (by decide)).mpr ⟨["a".toList, "ño".toList], rfl⟩
  exact ⟨huncut, ((serve_transforms_iff .ascii (by decide) (by decide)).mpr huncut).1⟩

/-- A chunk that ends inside of the only character. -/
theorem serve_raises :
    ¬ ∀ (unicode : Unicode) (text : List Char) (chunks : List Bytes),
      chunks.flatten = Utf8.encode text →
      (∀ chunk ∈ chunks, 1 ≤ chunk.length ∧ chunk.length ≤ 1024) →
        (serve unicode (delivery chunks)).sent.flatten = Utf8.encode (unicode.upper text) ∧
          ∀ e, (serve unicode (delivery chunks)).ending ≠ .raised e := by
  intro h
  have hfirst : Utf8.decode [0xC3] = none := by
    cases hdecode : Utf8.decode [0xC3] with
    | none => rfl
    | some s =>
        -- a prefix of `é` takes no byte or two bytes
        have hs : Utf8.encode s <+: Utf8.encode ['é'] := by
          rw [Utf8.decode_eq_some_iff.mp hdecode]
          decide
        have hlength := congrArg List.length (Utf8.decode_eq_some_iff.mp hdecode)
        rcases List.prefix_cons_iff.mp (Utf8.encode_prefix_iff.mp hs) with rfl | ⟨t, rfl, ht⟩
        · cases hlength
        · rw [List.prefix_nil.mp ht] at hlength
          cases hlength
  obtain ⟨-, hnoraise⟩ := h .ascii ['é'] [[0xC3], [0xA9]] (by decide) (by decide)
  apply hnoraise .valueError
  show (connectionLoop (capitalizedSentence .ascii)
    (.received [0xC3] false :: delivery [[0xA9]])).ending = _
  have herror : capitalizedSentence .ascii [0xC3] = .error .valueError := by
    rw [capitalizedSentence, hfirst]
  rw [connectionLoop, herror]
  rfl

/-! ## The C server -/

/-- `toupper` of the "C" locale. -/
def toupper (c : UInt8) : UInt8 := if 97 ≤ c ∧ c ≤ 122 then c - 32 else c

def serveC (passes : List Pass) : Served :=
  connectionLoop (fun buffer => .ok (buffer.map toupper)) passes

/-- **The C server never raises, and does not depend on the cuts.** -/
theorem serveC_transforms {chunks : List Bytes} (hne : ∀ chunk ∈ chunks, chunk ≠ []) :
    (serveC (delivery chunks)).ending = .clientClosed ∧
      (serveC (delivery chunks)).sent.flatten = chunks.flatten.map toupper := by
  have hrun : serveC (delivery chunks) = ⟨chunks.map (List.map toupper), .clientClosed⟩ :=
    connectionLoop_delivery fun chunk hchunk => ⟨hne chunk hchunk, rfl⟩
  rw [hrun]
  exact ⟨rfl, List.map_flatten.symm⟩

end Echo
