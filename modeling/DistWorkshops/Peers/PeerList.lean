import DistWorkshops.Lib.Decimal
import Mathlib.Data.List.Nodup

/-!
# The list of peers of a node

`validate_peers` reads the endpoints of the peers from one argument: items `host:port` between
commas, with white space around them and blank items left out. The last colon of an item is the one
before the port, so a host may have colons of its own, and two peers have the same endpoint only if
they are the same. So what is rendered from a list of peers is read back, unless a peer comes twice
or is the node itself.

A text is what `str(value)` gives; the errors are the `ValueError`s, with the values that their
messages show.
-/

set_option autoImplicit false

namespace Peers

open Text Decimal

/-! ## Validation -/

inductive PortError where
  | notAnInteger (value : List Char)
  | outOfRange (port : ℤ)
  deriving DecidableEq

def validatePort (unicode : Unicode) (value : List Char) : Except PortError ℤ :=
  match int? unicode (strip value) with
  | none => .error (.notAnInteger value)
  | some port => if 1 ≤ port ∧ port ≤ 65535 then .ok port else .error (.outOfRange port)

inductive PeersError where
  | required
  | malformed (item : List Char)
  | emptyHost (item : List Char)
  | port (error : PortError)
  | sameNode (item : List Char) (ownPort : ℤ)
  | duplicated (item : List Char)
  | emptyAfterParsing
  deriving DecidableEq

/-- The hosts that are this machine. -/
def ownHosts : List (List Char) := ["localhost".toList, "127.0.0.1".toList, "*".toList]

def endpoint (host : List Char) (port : ℤ) : List Char :=
  "tcp://".toList ++ (host ++ ':' :: intText port)

section Validation

variable (unicode : Unicode) (ownPort : Option ℤ)

/-- One pass of the loop of `validate_peers`, on the endpoints so far. -/
def peerStep (peers : List (List Char)) (raw : List Char) : Except PeersError (List (List Char)) :=
  let item := strip raw
  if item.isEmpty then .ok peers
  else if ':' ∉ item then .error (.malformed item)
  else
    let (hostStr, portStr) := rpartition ':' item
    let host := strip hostStr
    if host.isEmpty then .error (.emptyHost item)
    else match validatePort unicode portStr with
      | .error error => .error (.port error)
      | .ok port =>
          if ownPort = some port ∧ host ∈ ownHosts then .error (.sameNode item port)
          else if endpoint host port ∈ peers then .error (.duplicated item)
          else .ok (peers ++ [endpoint host port])

def validatePeers (value : Option (List Char)) : Except PeersError (List (List Char)) :=
  match value with
  | none => .error .required
  | some value =>
      if (strip value).isEmpty then .error .required
      else do
        let peers ← (value.splitOn ',').foldlM (peerStep unicode ownPort) []
        if peers.isEmpty then .error .emptyAfterParsing else .ok peers

end Validation

/-! ## Peers and their texts -/

/-- A peer as it may be written in the list. -/
@[ext] structure Peer where
  host : List Char
  port : ℕ
  host_ne_nil : host ≠ []
  comma_not_mem : ',' ∉ host
  stripped : strip host = host
  port_pos : 1 ≤ port
  port_le : port ≤ 65535
  deriving DecidableEq

namespace Peer

variable (peer : Peer)

/-- The item `host:port`. -/
def text : List Char := peer.host ++ ':' :: digits peer.port

/-- The endpoint `tcp://host:port`. -/
def endpoint : List Char := Peers.endpoint peer.host peer.port

/-- The peer is this node: a host that is this machine, with the node's own port. -/
def IsSelf (ownPort : Option ℤ) : Prop := ownPort = some (peer.port : ℤ) ∧ peer.host ∈ ownHosts

instance (ownPort : Option ℤ) : Decidable (peer.IsSelf ownPort) :=
  inferInstanceAs (Decidable (_ ∧ _))

end Peer

/-- What stands between the commas of a list of peers: their items with white space around them,
and blank items. -/
inductive Pieces : List (List Char) → List Peer → Prop where
  | nil : Pieces [] []
  | blank {piece : List Char} {pieces : List (List Char)} {peers : List Peer}
      (hblank : ∀ c ∈ piece, isSpace c = true) (rest : Pieces pieces peers) :
      Pieces (piece :: pieces) peers
  | item {front back : List Char} {pieces : List (List Char)} {peers : List Peer} (peer : Peer)
      (hfront : ∀ c ∈ front, isSpace c = true) (hback : ∀ c ∈ back, isSpace c = true)
      (rest : Pieces pieces peers) : Pieces ((front ++ peer.text ++ back) :: pieces) (peer :: peers)

/-- `value` is a rendering of the peers. -/
def Renders (value : List Char) (peers : List Peer) : Prop :=
  ∃ pieces, Pieces pieces peers ∧ value = [','].intercalate pieces

/-- No peer comes twice, and none is the node itself. -/
def Acceptable (ownPort : Option ℤ) (peers : List Peer) : Prop :=
  peers.Nodup ∧ ∀ peer ∈ peers, ¬ peer.IsSelf ownPort

/-! ## Items -/

namespace Peer

variable (peer : Peer)

theorem endpoint_eq : peer.endpoint = "tcp://".toList ++ peer.text := rfl

theorem rpartition_text : rpartition ':' peer.text = (peer.host, digits peer.port) :=
  rpartition_append (not_mem_digits (by decide) peer.port) peer.host

/-- **The item tells the peer**, even if the host has colons. -/
theorem text_injective : Function.Injective text := by
  intro p q h
  have hparts := congrArg (rpartition ':') h
  rw [rpartition_text, rpartition_text, Prod.mk.injEq] at hparts
  have hport := congrArg (fun cs => Nat.ofDigitChars 10 cs 0) hparts.2
  simp only [digits, Nat.ofDigitChars_ten_toDigits] at hport
  exact Peer.ext hparts.1 hport

theorem endpoint_injective : Function.Injective endpoint := by
  intro p q h
  rw [endpoint_eq, endpoint_eq] at h
  exact text_injective (List.append_cancel_left h)

theorem text_ne_nil : peer.text ≠ [] := List.append_ne_nil_of_left_ne_nil peer.host_ne_nil _

theorem colon_mem_text : ':' ∈ peer.text := List.mem_append_right _ List.mem_cons_self

theorem comma_not_mem_text : ',' ∉ peer.text := by
  rw [text, List.mem_append, List.mem_cons, not_or, not_or]
  exact ⟨peer.comma_not_mem, by decide, not_mem_digits (by decide) peer.port⟩

theorem strip_text : strip peer.text = peer.text := by
  -- the last character is a digit of the port
  obtain ⟨cs, c, hlast⟩ := (List.eq_nil_or_concat' (digits peer.port)).resolve_left
    (digits_ne_nil peer.port)
  have hc : isSpace c = false := by
    apply not_isSpace_of_isDigit
    apply isDigit_of_mem_digits (n := peer.port)
    rw [hlast]
    exact List.mem_append_right cs List.mem_cons_self
  have htext : peer.text = (peer.host ++ ':' :: cs) ++ [c] := by
    rw [text, hlast, List.append_assoc]
    rfl
  have hdrop := dropWhile_append_of_stripped peer.host_ne_nil peer.stripped
    (':' :: digits peer.port)
  rw [← text, htext] at hdrop
  rw [htext]
  exact @strip_of_ends [] _ _ nofun hdrop hc

theorem validatePort_port (unicode : Unicode) :
    validatePort unicode (digits peer.port) = .ok (peer.port : ℤ) := by
  have hsolid : Solid (digits peer.port) := solid_of_isDigit fun c hc => isDigit_of_mem_digits hc
  have hint : int? unicode (digits peer.port) = some (peer.port : ℤ) :=
    int?_intText unicode peer.port
  have hpos := peer.port_pos
  have hle := peer.port_le
  rw [validatePort, strip_solid hsolid, hint]
  exact if_pos ⟨by omega, by omega⟩

end Peer

/-! ## One pass of the loop -/

section Steps

variable (unicode : Unicode) (ownPort : Option ℤ)

/-- A blank item is left out. -/
theorem peerStep_blank (peers : List (List Char)) {piece : List Char}
    (h : ∀ c ∈ piece, isSpace c = true) : peerStep unicode ownPort peers piece = .ok peers := by
  have hnil : strip piece = [] := (strip_eq_nil_iff piece).mpr h
  simp only [peerStep, hnil, List.isEmpty_nil, if_true]

/-- An item adds the endpoint of its peer, unless that is this node or there already. -/
theorem peerStep_item (peers : List (List Char)) (peer : Peer) {front back : List Char}
    (hfront : ∀ c ∈ front, isSpace c = true) (hback : ∀ c ∈ back, isSpace c = true) :
    peerStep unicode ownPort peers (front ++ peer.text ++ back) =
      if peer.IsSelf ownPort then .error (.sameNode peer.text peer.port)
      else if peer.endpoint ∈ peers then .error (.duplicated peer.text)
      else .ok (peers ++ [peer.endpoint]) := by
  have hitem := strip_padded hfront hback peer.text_ne_nil peer.strip_text
  have htext : ¬ peer.text.isEmpty = true := by simpa using peer.text_ne_nil
  have hhost : ¬ peer.host.isEmpty = true := by simpa using peer.host_ne_nil
  simp only [peerStep, hitem, if_neg htext, if_neg (not_not.mpr peer.colon_mem_text),
    peer.rpartition_text, peer.stripped, if_neg hhost, peer.validatePort_port]
  rfl

/-! ## The loop -/

/-- What the peers that come next have to be, after the peers `done`. -/
def AcceptableAfter (done peers : List Peer) : Prop :=
  (∀ peer ∈ peers, ¬ peer.IsSelf ownPort) ∧ peers.Nodup ∧ ∀ peer ∈ peers, peer ∉ done

theorem acceptableAfter_nil_iff (peers : List Peer) :
    AcceptableAfter ownPort [] peers ↔ Acceptable ownPort peers := by
  rw [AcceptableAfter, Acceptable, and_comm (b := ∀ peer ∈ peers, ¬ peer.IsSelf ownPort)]
  exact and_congr_right fun _ => and_iff_left fun _ _ => List.not_mem_nil

theorem acceptableAfter_cons_iff (done : List Peer) (peer : Peer) (peers : List Peer) :
    AcceptableAfter ownPort done (peer :: peers) ↔
      ¬ peer.IsSelf ownPort ∧ peer ∉ done ∧ AcceptableAfter ownPort (done ++ [peer]) peers := by
  simp only [AcceptableAfter, List.forall_mem_cons, List.nodup_cons, List.mem_append,
    List.mem_singleton, not_or]
  constructor
  · rintro ⟨⟨hself, hselfs⟩, ⟨hnew, hnodup⟩, hdone, hdones⟩
    refine ⟨hself, hdone, hselfs, hnodup, fun q hq => ⟨hdones q hq, ?_⟩⟩
    rintro rfl
    exact hnew hq
  · rintro ⟨hself, hdone, hselfs, hnodup, hdones⟩
    exact ⟨⟨hself, hselfs⟩, ⟨fun hmem => (hdones peer hmem).2 rfl, hnodup⟩, hdone,
      fun q hq => (hdones q hq).1⟩

/-- **The loop reads the peers back**, and it raises if they are not acceptable. -/
theorem foldlM_pieces {pieces : List (List Char)} {peers : List Peer} (h : Pieces pieces peers)
    (done : List Peer) :
    (AcceptableAfter ownPort done peers →
      pieces.foldlM (peerStep unicode ownPort) (done.map Peer.endpoint)
        = .ok ((done ++ peers).map Peer.endpoint)) ∧
      (¬ AcceptableAfter ownPort done peers →
        ∃ error, pieces.foldlM (peerStep unicode ownPort) (done.map Peer.endpoint)
          = .error error) := by
  induction h generalizing done with
  | nil =>
      refine ⟨fun _ => by rw [List.append_nil]; rfl, fun hnot => absurd ?_ hnot⟩
      exact ⟨fun _ => nofun, List.nodup_nil, fun _ => nofun⟩
  | blank hblank _ ih =>
      rw [List.foldlM_cons, peerStep_blank unicode ownPort _ hblank]
      exact ih done
  | @item front back pieces peers peer hfront hback _ ih =>
      have hmem : peer.endpoint ∈ done.map Peer.endpoint ↔ peer ∈ done :=
        List.mem_map_of_injective Peer.endpoint_injective
      rw [acceptableAfter_cons_iff, List.foldlM_cons,
        peerStep_item unicode ownPort _ peer hfront hback]
      by_cases hself : peer.IsSelf ownPort
      · rw [if_pos hself]
        exact ⟨fun haccept => absurd hself haccept.1, fun _ => ⟨_, rfl⟩⟩
      rw [if_neg hself]
      by_cases hdone : peer ∈ done
      · rw [if_pos (hmem.mpr hdone)]
        exact ⟨fun haccept => absurd hdone haccept.2.1, fun _ => ⟨_, rfl⟩⟩
      rw [if_neg (mt hmem.mp hdone)]
      -- the peer joins those that are done
      have hnext : done.map Peer.endpoint ++ [peer.endpoint]
          = (done ++ [peer]).map Peer.endpoint := by
        rw [List.map_append]
        rfl
      obtain ⟨haccept, hnot⟩ := ih (done ++ [peer])
      rw [List.append_assoc, List.singleton_append] at haccept
      rw [hnext]
      refine ⟨fun h => haccept h.2.2, fun h => hnot fun hrest => h ⟨hself, hdone, hrest⟩⟩

end Steps

/-! ## Renderings -/

theorem Pieces.comma_not_mem {pieces : List (List Char)} {peers : List Peer}
    (h : Pieces pieces peers) : ∀ piece ∈ pieces, ',' ∉ piece := by
  have hblank : ∀ s : List Char, (∀ c ∈ s, isSpace c = true) → ',' ∉ s := by
    intro s hs hcomma
    have hspace := hs ',' hcomma
    revert hspace
    decide
  induction h with
  | nil => exact fun _ => nofun
  | blank hpiece _ ih => exact List.forall_mem_cons.mpr ⟨hblank _ hpiece, ih⟩
  | item peer hfront hback _ ih =>
      refine List.forall_mem_cons.mpr ⟨?_, ih⟩
      rw [List.mem_append, List.mem_append, not_or, not_or]
      exact ⟨⟨hblank _ hfront, peer.comma_not_mem_text⟩, hblank _ hback⟩

/-- A list with a peer has a colon in it. -/
theorem Pieces.colon_mem {pieces : List (List Char)} {peers : List Peer} (h : Pieces pieces peers)
    (hne : peers ≠ []) : ∃ piece ∈ pieces, ':' ∈ piece := by
  induction h with
  | nil => exact absurd rfl hne
  | blank _ _ ih =>
      obtain ⟨piece, hmem, hcolon⟩ := ih hne
      exact ⟨piece, List.mem_cons_of_mem _ hmem, hcolon⟩
  | item peer _ _ _ _ =>
      exact ⟨_, List.mem_cons_self,
        List.mem_append_left _ (List.mem_append_right _ peer.colon_mem_text)⟩

section Renderings

variable (unicode : Unicode) (ownPort : Option ℤ)

/-- A rendering of peers is no blank argument, so it is left to the loop. -/
theorem validatePeers_pieces {pieces : List (List Char)} {peers : List Peer}
    (h : Pieces pieces peers) (hne : peers ≠ []) :
    validatePeers unicode ownPort (some ([','].intercalate pieces)) = (do
      let endpoints ← pieces.foldlM (peerStep unicode ownPort) []
      if endpoints.isEmpty then .error .emptyAfterParsing else .ok endpoints) := by
  obtain ⟨piece, hmem, hcolon⟩ := h.colon_mem hne
  have hstrip : ¬ (strip ([','].intercalate pieces)).isEmpty = true := by
    intro hempty
    have hspace := (strip_eq_nil_iff _).mp (List.isEmpty_iff.mp hempty) ':'
      (mem_intercalate hmem hcolon)
    revert hspace
    decide
  have hsplit : ([','].intercalate pieces).splitOn ',' = pieces :=
    List.splitOn_intercalate ',' h.comma_not_mem (List.ne_nil_of_mem hmem)
  rw [validatePeers, if_neg hstrip, hsplit]

theorem validatePeers_of_acceptable {pieces : List (List Char)} {peers : List Peer}
    (h : Pieces pieces peers) (hne : peers ≠ []) (hok : Acceptable ownPort peers) :
    validatePeers unicode ownPort (some ([','].intercalate pieces))
      = .ok (peers.map Peer.endpoint) := by
  have hloop := (foldlM_pieces unicode ownPort h []).1
    ((acceptableAfter_nil_iff ownPort peers).mpr hok)
  rw [List.map_nil, List.nil_append] at hloop
  have hmap : ¬ (peers.map Peer.endpoint).isEmpty = true := by simpa using hne
  rw [validatePeers_pieces unicode ownPort h hne, hloop]
  exact if_neg hmap

theorem validatePeers_of_not_acceptable {pieces : List (List Char)} {peers : List Peer}
    (h : Pieces pieces peers) (hne : peers ≠ []) (hnot : ¬ Acceptable ownPort peers) :
    ∃ error, validatePeers unicode ownPort (some ([','].intercalate pieces)) = .error error := by
  obtain ⟨error, hloop⟩ := (foldlM_pieces unicode ownPort h []).2
    (mt (acceptableAfter_nil_iff ownPort peers).mp hnot)
  rw [List.map_nil] at hloop
  refine ⟨error, ?_⟩
  rw [validatePeers_pieces unicode ownPort h hne, hloop]
  rfl

/-- **Parsing undoes rendering.** A rendering of a list of peers that is not empty is read back as
their endpoints, in order, if no peer comes twice and none is the node itself; else a `ValueError`
is raised. -/
theorem validate_peers_renders {value : List Char} {peers : List Peer} (h : Renders value peers)
    (hne : peers ≠ []) :
    (Acceptable ownPort peers →
      validatePeers unicode ownPort (some value) = .ok (peers.map Peer.endpoint)) ∧
      (¬ Acceptable ownPort peers →
        ∃ error, validatePeers unicode ownPort (some value) = .error error) := by
  obtain ⟨pieces, hpieces, rfl⟩ := h
  exact ⟨validatePeers_of_acceptable unicode ownPort hpieces hne,
    validatePeers_of_not_acceptable unicode ownPort hpieces hne⟩

end Renderings

/-- A peer on this machine. -/
def localPeer (port : ℕ) (hpos : 1 ≤ port) (hle : port ≤ 65535) : Peer where
  host := "localhost".toList
  port := port
  host_ne_nil := by decide
  comma_not_mem := by decide
  stripped := by decide
  port_pos := hpos
  port_le := hle

/-- A peer whose host has colons. -/
def colonPeer : Peer where
  host := "fe80::1".toList
  port := 6003
  host_ne_nil := by decide
  comma_not_mem := by decide
  stripped := by decide
  port_pos := by decide
  port_le := by decide

/-- Two peers with a blank item between them. -/
theorem validate_peers_renders_two :
    validatePeers Unicode.ascii (some 6001) (some "localhost:6002, , fe80::1:6003 ".toList)
      = .ok ["tcp://localhost:6002".toList, "tcp://fe80::1:6003".toList] := by
  have hblank : ∀ c ∈ [' '], isSpace c = true := by decide
  have hpieces : Pieces [[] ++ (localPeer 6002 (by decide) (by decide)).text ++ [], [' '],
      [' '] ++ colonPeer.text ++ [' ']] [localPeer 6002 (by decide) (by decide), colonPeer] :=
    .item _ nofun nofun (.blank hblank (.item _ hblank hblank .nil))
  have hrenders : Renders "localhost:6002, , fe80::1:6003 ".toList
      [localPeer 6002 (by decide) (by decide), colonPeer] := ⟨_, hpieces, by decide⟩
  exact (validate_peers_renders Unicode.ascii (some 6001) hrenders (List.cons_ne_nil _ _)).1
    ⟨by decide, by decide⟩

/-! ## The lists of the launcher -/

/-- The list that `build_nodes` writes for the node with the port `own`. -/
def peerList (ports : List ℕ) (own : ℕ) : List Char :=
  [','].intercalate ((ports.filter fun port => port ≠ own).map fun port =>
    "localhost:".toList ++ digits port)

theorem exists_localPeers {ports : List ℕ} (h : ∀ port ∈ ports, 1 ≤ port ∧ port ≤ 65535) :
    ∃ peers, Pieces (ports.map fun port => "localhost:".toList ++ digits port) peers ∧
      peers.map Peer.port = ports ∧ peers.map Peer.endpoint
        = ports.map fun port => endpoint "localhost".toList port := by
  induction ports with
  | nil => exact ⟨[], .nil, rfl, rfl⟩
  | cons port ports ih =>
      obtain ⟨hport, hports⟩ := List.forall_mem_cons.mp h
      obtain ⟨peers, hpieces, hmap, hendpoints⟩ := ih hports
      refine ⟨localPeer port hport.1 hport.2 :: peers, ?_, ?_, ?_⟩
      · have hitem := @Pieces.item [] [] _ _ (localPeer port hport.1 hport.2) nofun nofun hpieces
        rw [List.nil_append, List.append_nil] at hitem
        exact hitem
      · rw [List.map_cons, hmap]
        rfl
      · rw [List.map_cons, hendpoints]
        rfl

/-- **The launcher's lists are accepted.** With two nodes at least, and ports in range from the
first to the last, each node reads the endpoints of the others. -/
theorem build_nodes_peers (unicode : Unicode) {basePort n i : ℕ} (hpos : 1 ≤ basePort)
    (hle : basePort + n ≤ 65536) (hn : 2 ≤ n) :
    let ports := (List.range n).map fun i => basePort + i
    validatePeers unicode (some (basePort + i : ℕ)) (some (peerList ports (basePort + i)))
      = .ok ((ports.filter fun port => port ≠ basePort + i).map fun port =>
          endpoint "localhost".toList port) := by
  intro ports
  have hnodup : (ports.filter fun port => port ≠ basePort + i).Nodup := by
    apply List.Nodup.filter
    exact List.nodup_range.map fun a b h => Nat.add_left_cancel h
  have hports : ∀ port ∈ ports.filter fun port => port ≠ basePort + i,
      (1 ≤ port ∧ port ≤ 65535) ∧ port ≠ basePort + i := by
    intro port hport
    obtain ⟨hmem, hne⟩ := List.mem_filter.mp hport
    obtain ⟨j, hj, rfl⟩ := List.mem_map.mp hmem
    have hjn := List.mem_range.mp hj
    exact ⟨⟨by omega, by omega⟩, by simpa using hne⟩
  obtain ⟨peers, hpieces, hmap, hendpoints⟩ := exists_localPeers fun port hport =>
    (hports port hport).1
  have hne : peers ≠ [] := by
    rintro rfl
    -- one of the first two ports is another one
    have hother : basePort + (if i = 0 then 1 else 0) ∈
        ports.filter fun port => port ≠ basePort + i := by
      refine List.mem_filter.mpr ⟨List.mem_map.mpr ⟨_, List.mem_range.mpr ?_, rfl⟩, ?_⟩
      · split <;> omega
      · rw [decide_eq_true_iff]
        split <;> omega
    rw [← hmap] at hother
    cases hother
  rw [← hendpoints]
  apply validatePeers_of_acceptable unicode _ hpieces hne
  constructor
  · apply List.Nodup.of_map Peer.port
    rw [hmap]
    exact hnodup
  · rintro peer hpeer ⟨hself, -⟩
    have hport : peer.port ∈ ports.filter fun port => port ≠ basePort + i := by
      rw [← hmap]
      exact List.mem_map_of_mem hpeer
    have hcast : basePort + i = peer.port := by exact_mod_cast Option.some.inj hself
    exact (hports peer.port hport).2 hcast.symm

end Peers
