import Mathlib.Data.List.OfFn
import DistWorkshops.Peers.Drift
import DistWorkshops.Peers.Options

/-!
# The launcher

`main` of `run_peers.py` up to the start of the threads: the options, `build_nodes`, and the skews
the clocks start with. The ranges of the launcher lie within those of the constructor and leave
room for all ports, so once the options are read, every node is made, and each knows exactly the
others (`launch_nodes`). A node started by hand with the same values is the same node, but for its
clock, which is not preset (`node_command`).
-/

set_option autoImplicit false

namespace Peers

open Text Decimal

/-- `NAMES`. -/
def names : List Char := "ABCDEFGHIJ".toList

def launchKeys : List (List Char) :=
  ["peers", "cycles", "interval", "k", "drift", "spread", "base_port", "seed"].map String.toList

structure LaunchOptions where
  peers : ℕ
  cycles : ℕ
  interval : ℚ
  k : ℕ
  drift : ℚ
  spread : ℚ
  basePort : ℕ
  seed : Option ℕ
  deriving DecidableEq

/-- What `random()` returns. -/
abbrev Fraction := { u : ℚ // 0 ≤ u ∧ u ≤ 1 }

/-- `uniform(a, b)`. -/
def uniform (a b : ℚ) (u : Fraction) : ℚ := a + (b - a) * u.val

section Launcher

variable (unicode : Unicode)

def launchSeed : Option (List Char) → Except LaunchError (Option ℕ)
  | none => .ok none
  | some s => (validateInt unicode "seed" 0 (2 ^ 31) (.text s)).map some

/-- The options of `main`. Numbers are compared with the ends of their ranges exactly: a text just
outside, such as `interval=0.09999999999999999999`, which reads as the float `0.1`, is refused here
and not by the source. -/
def launchOptions (lower : List Char → List Char) (argv : List (List Char)) :
    Except LaunchError LaunchOptions := do
  let options ← (parseOptions lower launchKeys argv).mapError .option
  let peers ← validateInt unicode "peers" 2 names.length (optionOr options "peers" (.int 3))
  let cycles ← validateInt unicode "cycles" 1 1000 (optionOr options "cycles" (.int 8))
  let interval ← validateFloat unicode "interval" (1 / 10) 60
    (optionOr options "interval" (.float 1))
  let k ← validateInt unicode "k" 1 100 (optionOr options "k" (.int 3))
  let drift ← validateFloat unicode "drift" 0 60 (optionOr options "drift" (.float (3 / 2)))
  let spread ← validateFloat unicode "spread" 0 600 (optionOr options "spread" (.float 6))
  let basePort ← validateInt unicode "base_port" 1024 65000
    (optionOr options "base_port" (.int 6001))
  let seed ← launchSeed unicode (options.lookup "seed".toList)
  return ⟨peers, cycles, interval, k, drift, spread, basePort, seed⟩

/-- The node `i` of the loop of `build_nodes`, with its drift. -/
def buildNode (o : LaunchOptions) (ports : List ℕ) (draw : ℕ → Fraction) (i : ℕ) :
    Except LaunchError (PeerNode × Node) :=
  match names[i]?, ports[i]? with
  | some name, some port => do
      let node ← PeerNode.new unicode [name] (digits port) (peerList ports port)
        ⟨.int o.cycles, .float o.interval, .int o.k, .float o.drift,
          o.seed.map fun seed : ℕ => .int (seed + i : ℕ)⟩
      return (node, Node.fresh.presetSkew (uniform (-o.spread / 2) (o.spread / 2) (draw i)))
  | _, _ => .error .indexError

def buildNodes (o : LaunchOptions) (draw : ℕ → Fraction) :
    Except LaunchError (List (PeerNode × Node)) := do
  let ports := (List.range o.peers).map fun i => o.basePort + i
  ports.forM fun port => ((validatePort unicode (digits port)).mapError .port).map fun _ => ()
  (List.range o.peers).mapM (buildNode unicode o ports draw)

/-- The nodes that `main` starts. On an error it prints the error and the usage and returns 2. -/
def launch (lower : List Char → List Char) (argv : List (List Char)) (draw : ℕ → Fraction) :
    Except LaunchError (List (PeerNode × Node)) := do
  let o ← launchOptions unicode lower argv
  buildNodes unicode o draw

end Launcher

namespace LaunchOptions

variable (o : LaunchOptions)

def port (i : Fin o.peers) : ℕ := o.basePort + i

/-- The node `i` of the network, which knows all the others. -/
def host (i : Fin o.peers) : PeerNode where
  name := [names.getD i 'A']
  port := o.port i
  peers := (allOthers i).map fun j : Fin o.peers => endpoint "localhost".toList (o.port j)
  cycles := o.cycles
  interval := o.interval
  k := o.k
  driftMax := o.drift
  seed := o.seed.map fun seed : ℕ => (seed : ℤ) + i

/-- The clock of the node `i` at the start. -/
def clock (draw : ℕ → Fraction) (i : Fin o.peers) : Node :=
  Node.fresh.presetSkew (uniform (-o.spread / 2) (o.spread / 2) (draw i))

theorem clock_skew (draw : ℕ → Fraction) (i : Fin o.peers) :
    (o.clock draw i).skew = uniform (-o.spread / 2) (o.spread / 2) (draw i) := by
  rw [clock, Node.presetSkew_skew, Node.fresh_skew, zero_add]

/-- The ranges of the launcher. -/
structure InRange : Prop where
  peers_ge : 2 ≤ o.peers
  peers_le : o.peers ≤ 10
  cycles_ge : 1 ≤ o.cycles
  cycles_le : o.cycles ≤ 1000
  interval_ge : 1 / 10 ≤ o.interval
  interval_le : o.interval ≤ 60
  k_ge : 1 ≤ o.k
  k_le : o.k ≤ 100
  drift_ge : 0 ≤ o.drift
  drift_le : o.drift ≤ 60
  spread_ge : 0 ≤ o.spread
  spread_le : o.spread ≤ 600
  basePort_ge : 1024 ≤ o.basePort
  basePort_le : o.basePort ≤ 65000

variable {o}

theorem InRange.cycles_le_max (h : o.InRange) : o.cycles ≤ 10000 := h.cycles_le.trans (by decide)

theorem InRange.k_le_max (h : o.InRange) : o.k ≤ 1000 := h.k_le.trans (by decide)

theorem InRange.drift_le_max (h : o.InRange) : o.drift ≤ 3600 := h.drift_le.trans (by norm_num)

variable (o)

/-- The settings of all nodes: the ranges of the launcher lie in those of the constructor. -/
def settings (h : o.InRange) : Settings where
  cycles := o.cycles
  k := o.k
  driftMax := o.drift
  cycles_le := h.cycles_le_max
  k_pos := h.k_ge
  k_le := h.k_le_max
  driftMax_nonneg := h.drift_ge
  driftMax_le := h.drift_le_max

end LaunchOptions

section Launcher

variable {unicode : Unicode} {lower : List Char → List Char} {argv : List (List Char)}
  {o : LaunchOptions}

theorem launchOptions_inRange (h : launchOptions unicode lower argv = .ok o) : o.InRange := by
  obtain ⟨options, -, h⟩ := bind_eq_ok_iff.mp h
  obtain ⟨peers, hpeers, h⟩ := bind_eq_ok_iff.mp h
  obtain ⟨cycles, hcycles, h⟩ := bind_eq_ok_iff.mp h
  obtain ⟨interval, hinterval, h⟩ := bind_eq_ok_iff.mp h
  obtain ⟨k, hk, h⟩ := bind_eq_ok_iff.mp h
  obtain ⟨drift, hdrift, h⟩ := bind_eq_ok_iff.mp h
  obtain ⟨spread, hspread, h⟩ := bind_eq_ok_iff.mp h
  obtain ⟨basePort, hbasePort, h⟩ := bind_eq_ok_iff.mp h
  obtain ⟨seed, -, h⟩ := bind_eq_ok_iff.mp h
  obtain rfl := Except.ok.inj h
  obtain ⟨hpeers_ge, hpeers_le⟩ := validateInt_range (by norm_num) hpeers
  obtain ⟨hcycles_ge, hcycles_le⟩ := validateInt_range (by norm_num) hcycles
  obtain ⟨hk_ge, hk_le⟩ := validateInt_range (by norm_num) hk
  obtain ⟨hbase_ge, hbase_le⟩ := validateInt_range (by norm_num) hbasePort
  have hnames : (names.length : ℚ) = 10 := by rfl
  rw [hnames] at hpeers_le
  exact {
    peers_ge := by exact_mod_cast hpeers_ge
    peers_le := by exact_mod_cast hpeers_le
    cycles_ge := by exact_mod_cast hcycles_ge
    cycles_le := by exact_mod_cast hcycles_le
    interval_ge := (validateFloat_ok_iff.mp hinterval).2.1
    interval_le := (validateFloat_ok_iff.mp hinterval).2.2
    k_ge := by exact_mod_cast hk_ge
    k_le := by exact_mod_cast hk_le
    drift_ge := (validateFloat_ok_iff.mp hdrift).2.1
    drift_le := (validateFloat_ok_iff.mp hdrift).2.2
    spread_ge := (validateFloat_ok_iff.mp hspread).2.1
    spread_le := (validateFloat_ok_iff.mp hspread).2.2
    basePort_ge := by exact_mod_cast hbase_ge
    basePort_le := by exact_mod_cast hbase_le }

/-! ## The constructor accepts what the launcher passes on -/

theorem validatePort_digits {port : ℕ} (hge : 1 ≤ port) (hle : port ≤ 65535) :
    validatePort unicode (digits port) = .ok (port : ℤ) :=
  (localPeer port hge hle).validatePort_port unicode

theorem validateName_names {i : ℕ} (hi : i < 10) :
    validateName (some [names.getD i 'A']) = .ok [names.getD i 'A'] := by
  have hall : ∀ name ∈ names, validateName (some [name]) = .ok [name] := by decide
  apply hall
  rw [List.getD, List.getElem?_eq_getElem hi]
  exact List.getElem_mem _

/-- The ports of `build_nodes`. -/
def LaunchOptions.ports (o : LaunchOptions) : List ℕ :=
  (List.range o.peers).map fun i => o.basePort + i

theorem LaunchOptions.InRange.port_range (hrange : o.InRange) (i : Fin o.peers) :
    1 ≤ o.port i ∧ o.port i ≤ 65535 := by
  have hbase := hrange.basePort_le
  have hbase' := hrange.basePort_ge
  have hpeers := hrange.peers_le
  have hi := i.isLt
  unfold LaunchOptions.port
  omega

theorem port_injective (o : LaunchOptions) : Function.Injective o.port := fun _ _ h =>
  Fin.ext (Nat.add_left_cancel h)

theorem ports_eq (o : LaunchOptions) : o.ports = (List.finRange o.peers).map o.port := by
  rw [LaunchOptions.ports, ← List.map_coe_finRange_eq_range, List.map_map]
  rfl

/-- The other ports belong to the other nodes, in their order. -/
theorem others_ports (i : Fin o.peers) :
    o.ports.filter (fun port => port ≠ o.port i) = (allOthers i).map o.port := by
  rw [ports_eq, List.filter_map, allOthers]
  congr 1
  refine List.filter_congr fun j _ => ?_
  rw [Function.comp_apply, decide_eq_decide]
  exact (port_injective o).ne_iff

theorem validatePeers_others (hrange : o.InRange) (i : Fin o.peers) :
    validatePeers unicode (some (o.port i : ℤ)) (some (peerList o.ports (o.port i)))
      = .ok (o.host i).peers := by
  have hpos : 1 ≤ o.basePort := Nat.le_trans (by decide) hrange.basePort_ge
  have hle : o.basePort + o.peers ≤ 65536 := by
    have hbase := hrange.basePort_le
    have hpeers := hrange.peers_le
    omega
  refine (@build_nodes_peers unicode o.basePort o.peers i hpos hle hrange.peers_ge).trans ?_
  have hothers := others_ports i
  unfold LaunchOptions.ports LaunchOptions.port at hothers
  rw [hothers]
  show Except.ok ((((allOthers i).map fun j : Fin o.peers => o.basePort + j).flatMap
    fun port : ℕ => [(port : ℤ)]).map _) = _
  rw [← List.map_eq_flatMap, List.map_map, List.map_map]
  rfl

theorem validateSeed_int (seed : Option ℕ) (i : ℕ) :
    validateSeed unicode (seed.map fun seed : ℕ => .int (seed + i : ℕ))
      = .ok (seed.map fun seed : ℕ => (seed : ℤ) + i) := by
  cases seed with
  | none => rfl
  | some seed => rfl

/-- The constructor makes the node of the network from values that read as the settings. -/
theorem new_host (hrange : o.InRange) (i : Fin o.peers) {values : NodeValues}
    (hcycles : castInt unicode values.cycles = some (.num o.cycles))
    (hinterval : castFloat unicode values.interval = some (.num o.interval))
    (hk : castInt unicode values.k = some (.num o.k))
    (hdrift : castFloat unicode values.drift = some (.num o.drift))
    (hseed : validateSeed unicode values.seed = .ok (o.host i).seed) :
    PeerNode.new unicode [names.getD i 'A'] (digits (o.port i)) (peerList o.ports (o.port i)) values
      = .ok (o.host i) := by
  obtain ⟨hport, hport'⟩ := hrange.port_range i
  have hi : (i : ℕ) < 10 := i.isLt.trans_le hrange.peers_le
  have hcycles' : validateInt unicode "cycles" 0 10000 values.cycles = .ok o.cycles :=
    validateInt_of_cast hcycles (Nat.cast_nonneg _) (by
      have := hrange.cycles_le
      exact_mod_cast this.trans (by decide))
  have hk' : validateInt unicode "k" 1 1000 values.k = .ok o.k :=
    validateInt_of_cast hk (by exact_mod_cast hrange.k_ge) (by
      have := hrange.k_le
      exact_mod_cast this.trans (by decide))
  have hinterval' : validateFloat unicode "interval" (1 / 10) 600 values.interval
      = .ok o.interval :=
    validateFloat_ok_iff.mpr
      ⟨hinterval, hrange.interval_ge, hrange.interval_le.trans (by norm_num)⟩
  have hdrift' : validateFloat unicode "drift" 0 3600 values.drift = .ok o.drift :=
    validateFloat_ok_iff.mpr ⟨hdrift, hrange.drift_ge, hrange.drift_le.trans (by norm_num)⟩
  refine bind_eq_ok_iff.mpr ⟨_, mapError_eq_ok_iff.mpr (validateName_names hi), ?_⟩
  refine bind_eq_ok_iff.mpr ⟨_, mapError_eq_ok_iff.mpr (validatePort_digits hport hport'), ?_⟩
  refine bind_eq_ok_iff.mpr ⟨_, mapError_eq_ok_iff.mpr (validatePeers_others hrange i), ?_⟩
  refine bind_eq_ok_iff.mpr ⟨_, hcycles', bind_eq_ok_iff.mpr ⟨_, hinterval', ?_⟩⟩
  refine bind_eq_ok_iff.mpr ⟨_, hk', bind_eq_ok_iff.mpr ⟨_, hdrift', ?_⟩⟩
  exact bind_eq_ok_iff.mpr ⟨_, hseed, rfl⟩

/-! ## The nodes of the launcher -/

theorem buildNode_host (hrange : o.InRange) (draw : ℕ → Fraction) (i : Fin o.peers) :
    buildNode unicode o o.ports draw i = .ok (o.host i, o.clock draw i) := by
  have hi : (i : ℕ) < 10 := i.isLt.trans_le hrange.peers_le
  have hname : names[(i : ℕ)]? = some (names.getD i 'A') := by
    rw [List.getD, List.getElem?_eq_getElem hi]
    rfl
  have hport : o.ports[(i : ℕ)]? = some (o.port i) := by
    rw [LaunchOptions.ports, List.getElem?_map, List.getElem?_range i.isLt]
    rfl
  rw [buildNode, hname, hport]
  exact bind_eq_ok_iff.mpr
    ⟨_, new_host hrange i rfl rfl rfl rfl (validateSeed_int o.seed i), rfl⟩

theorem forM_eq_ok {α ε : Type} {f : α → Except ε Unit} {xs : List α}
    (h : ∀ x ∈ xs, f x = .ok ()) : xs.forM f = .ok () := by
  induction xs with
  | nil => rfl
  | cons x xs ih =>
      show f x >>= (fun _ => xs.forM f) = _
      exact bind_eq_ok_iff.mpr ⟨(), h x List.mem_cons_self,
        ih fun y hy => h y (List.mem_cons_of_mem x hy)⟩

theorem mapM_eq_ok {α β ε : Type} {f : ℕ → Except ε β} {g : α → β} {number : α → ℕ}
    {xs : List α} (h : ∀ x ∈ xs, f (number x) = .ok (g x)) :
    (xs.map number).mapM f = .ok (xs.map g) := by
  induction xs with
  | nil => rfl
  | cons x xs ih =>
      rw [List.map_cons, List.mapM_cons]
      exact bind_eq_ok_iff.mpr ⟨g x, h x List.mem_cons_self,
        bind_eq_ok_iff.mpr ⟨_, ih fun y hy => h y (List.mem_cons_of_mem x hy), rfl⟩⟩

theorem buildNodes_host (hrange : o.InRange) (draw : ℕ → Fraction) :
    buildNodes unicode o draw = .ok (List.ofFn fun i => (o.host i, o.clock draw i)) := by
  have hports : o.ports.forM (fun port =>
      ((validatePort unicode (digits port)).mapError LaunchError.port).map fun _ => ())
        = .ok () := by
    refine forM_eq_ok fun port hport => ?_
    rw [ports_eq] at hport
    obtain ⟨i, -, rfl⟩ := List.mem_map.mp hport
    obtain ⟨hge, hle⟩ := hrange.port_range i
    rw [validatePort_digits hge hle]
    rfl
  refine bind_eq_ok_iff.mpr ⟨(), hports, ?_⟩
  show (List.range o.peers).mapM (buildNode unicode o o.ports draw) = _
  rw [← List.map_coe_finRange_eq_range, List.ofFn_eq_map]
  exact mapM_eq_ok fun i _ => buildNode_host hrange draw i

theorem abs_uniform_le {a : ℚ} (ha : 0 ≤ a) (u : Fraction) :
    |uniform (-a / 2) (a / 2) u| ≤ a / 2 := by
  obtain ⟨u, hu0, hu1⟩ := u
  rw [abs_le, uniform]
  constructor
  · nlinarith
  · nlinarith

end Launcher

/-- **The launcher starts a complete network or nothing.** When the options are read, all nodes are
made, between 2 and 10, each with a name and a port of its own, with the endpoints of exactly the
other nodes, with equal settings that the constructor admits, and with a clock that is off by at
most half the spread. When they are not, the error is that of the options. -/
theorem launch_nodes (unicode : Unicode) (lower : List Char → List Char) (argv : List (List Char))
    (draw : ℕ → Fraction) :
    (∀ e, launchOptions unicode lower argv = .error e → launch unicode lower argv draw = .error e) ∧
      ∀ o, launchOptions unicode lower argv = .ok o →
        launch unicode lower argv draw = .ok (List.ofFn fun i => (o.host i, o.clock draw i)) ∧
          2 ≤ o.peers ∧ o.peers ≤ 10 ∧
          (Function.Injective fun i => (o.host i).name) ∧
          (Function.Injective fun i => (o.host i).port) ∧
          (∀ i, 1 ≤ (o.host i).port ∧ (o.host i).port ≤ 65535) ∧
          (∀ i, (o.host i).peers
            = (allOthers i).map fun j => endpoint "localhost".toList (o.host j).port) ∧
          (∃ settings : Settings, ∀ i, (o.host i).cycles = settings.cycles ∧
            (o.host i).k = settings.k ∧ (o.host i).driftMax = settings.driftMax) ∧
          ∀ i, |(o.clock draw i).skew| ≤ o.spread / 2 := by
  constructor
  · intro e he
    rw [launch, he]
    rfl
  intro o ho
  have hrange := launchOptions_inRange ho
  refine ⟨bind_eq_ok_iff.mpr ⟨o, ho, buildNodes_host hrange draw⟩, hrange.peers_ge,
    hrange.peers_le, ?_, ?_, ?_, fun i => rfl, ?_, ?_⟩
  · intro i j h
    have hall : ∀ i j : Fin 10, names.getD i 'A' = names.getD j 'A' → i = j := by decide
    have hten : ∀ i : Fin o.peers, (i : ℕ) < 10 := fun i => i.isLt.trans_le hrange.peers_le
    have hij := hall ⟨i, hten i⟩ ⟨j, hten j⟩ (List.cons.inj h).1
    exact Fin.ext (Fin.mk.inj hij)
  · intro i j h
    exact port_injective o (Int.ofNat.inj h)
  · intro i
    obtain ⟨hge, hle⟩ := hrange.port_range i
    exact ⟨Int.ofNat_le.mpr hge, Int.ofNat_le.mpr hle⟩
  · exact ⟨o.settings hrange, fun i => ⟨rfl, rfl, rfl⟩⟩
  · intro i
    rw [o.clock_skew]
    exact abs_uniform_le hrange.spread_ge (draw i)

/-! ## A node started by hand -/

section Command

variable {unicode : Unicode} {lower : List Char → List Char} {o : LaunchOptions}

/-- An argument `key=value`. -/
def item (key value : List Char) : List Char := key ++ '=' :: value

theorem partition_item {key : List Char} (hkey : key ∈ nodeKeys) (value : List Char) :
    partition ['='] (item key value) = (key, value) := by
  have hall : ∀ key ∈ nodeKeys, ¬ ['='] <:+: key := by decide
  exact partition_append List.not_mem_nil (hall key hkey) value

theorem strip_key {key : List Char} (hkey : key ∈ nodeKeys) : strip key = key := by
  have hall : ∀ key ∈ nodeKeys, Solid key := by decide
  exact strip_solid (hall key hkey)

/-- Arguments for different keys are read as they were written. -/
theorem parseOptions_items (hlower : ∀ key ∈ nodeKeys, lower key = key) {pairs : Options}
    (hkeys : ∀ pair ∈ pairs, pair.1 ∈ nodeKeys) (hvalues : ∀ pair ∈ pairs, strip pair.2 = pair.2)
    (hnodup : (pairs.map Prod.fst).Nodup) :
    parseOptions lower nodeKeys (pairs.map fun pair => item pair.1 pair.2) = .ok pairs := by
  have hkey : ∀ pair ∈ pairs, optionKey lower (item pair.1 pair.2) = pair.1 := fun pair hpair => by
    rw [optionKey, partition_item (hkeys pair hpair), strip_key (hkeys pair hpair),
      hlower pair.1 (hkeys pair hpair)]
  have hoptions : optionsOf lower (pairs.map fun pair => item pair.1 pair.2) = pairs := by
    rw [optionsOf, List.map_map]
    refine (List.map_congr_left fun pair hpair => ?_).trans (List.map_id pairs)
    show (optionKey lower (item pair.1 pair.2), optionValue (item pair.1 pair.2)) = pair
    rw [hkey pair hpair, optionValue, partition_item (hkeys pair hpair), hvalues pair hpair]
  have haccepted : Accepted lower nodeKeys (pairs.map fun pair => item pair.1 pair.2) := by
    constructor
    · intro argument hargument
      obtain ⟨pair, hpair, rfl⟩ := List.mem_map.mp hargument
      rw [hkey pair hpair]
      exact ⟨List.mem_append_right _ List.mem_cons_self, hkeys pair hpair⟩
    · rwa [← optionsOf_keys, hoptions]
  rw [parseOptions_of_accepted haccepted, hoptions]

/-- The options for the node `i`, with texts for the two floats. -/
def nodeOptions (o : LaunchOptions) (i : Fin o.peers) (interval drift : List Char) : Options :=
  [("cycles".toList, digits o.cycles), ("interval".toList, interval), ("k".toList, digits o.k),
    ("drift".toList, drift)] ++
      o.seed.toList.map fun seed : ℕ => ("seed".toList, digits (seed + i))

/-- The command line of `peer_node.py` for the node `i`. -/
def nodeCommand (o : LaunchOptions) (i : Fin o.peers) (interval drift : List Char) :
    List (List Char) :=
  [names.getD i 'A'] :: digits (o.port i) :: peerList o.ports (o.port i) ::
    (nodeOptions o i interval drift).map fun pair => item pair.1 pair.2

theorem nodeOptions_keys (i : Fin o.peers) (interval drift : List Char) :
    ((nodeOptions o i interval drift).map Prod.fst).Sublist nodeKeys := by
  have hkeys : (nodeOptions o i interval drift).map Prod.fst
      = nodeKeys.take 4 ++ o.seed.toList.map fun _ => "seed".toList := by
    rw [nodeOptions, List.map_append, List.map_map]
    rfl
  rw [hkeys]
  cases o.seed with
  | none => exact List.take_sublist 4 nodeKeys
  | some seed => exact List.Sublist.refl nodeKeys

theorem lookup_seed (i : Fin o.peers) (interval drift : List Char) :
    (nodeOptions o i interval drift).lookup "seed".toList
      = o.seed.map fun seed : ℕ => digits (seed + i) := by
  unfold nodeOptions
  cases o.seed with
  | none => rfl
  | some seed => rfl

theorem solid_digits (n : ℕ) : Solid (digits n) := solid_of_isDigit fun _ hc =>
  isDigit_of_mem_digits hc

theorem nodeOptions_solid (i : Fin o.peers) {interval drift : List Char} (hsolid : Solid interval)
    (hsolid' : Solid drift) : ∀ pair ∈ nodeOptions o i interval drift, Solid pair.2 := by
  intro pair hpair
  rcases List.mem_append.mp hpair with hfour | hseed
  · simp only [List.mem_cons, List.not_mem_nil, or_false] at hfour
    obtain rfl | rfl | rfl | rfl := hfour
    · exact solid_digits o.cycles
    · exact hsolid
    · exact solid_digits o.k
    · exact hsolid'
  · obtain ⟨seed, -, rfl⟩ := List.mem_map.mp hseed
    exact solid_digits (seed + i)

theorem castInt_digits (n : ℕ) : castInt unicode (.text (digits n)) = some (.num n) := by
  rw [castInt, strip_solid (solid_digits n)]
  exact congrArg (Option.map _) (int?_intText unicode n)

theorem castFloat_solid {s : List Char} (hs : Solid s) :
    castFloat unicode (.text s) = PyFloat.float? unicode s := by
  rw [castFloat, strip_solid hs]

/-- **A node started by hand is the launcher's node, but for its clock.** The command line of
`peer_node.py` with the values of a node of the launcher, its floats in any texts that read as them,
makes a node with the same fields. The launcher presets the skew of its node; the clock of the node
started by hand has neither drift nor offset. -/
theorem node_command (hlower : ∀ key ∈ nodeKeys, lower key = key) {argv : List (List Char)}
    (ho : launchOptions unicode lower argv = .ok o) (draw : ℕ → Fraction) (i : Fin o.peers)
    {interval drift : List Char} (hsolid : Solid interval) (hsolid' : Solid drift)
    (hinterval : PyFloat.float? unicode interval = some (.num o.interval))
    (hdrift : PyFloat.float? unicode drift = some (.num o.drift)) :
    ∃ nodes node, launch unicode lower argv draw = .ok nodes ∧
      nodes[(i : ℕ)]? = some (node,
        Node.fresh.presetSkew (uniform (-o.spread / 2) (o.spread / 2) (draw i))) ∧
      nodeMain unicode lower (nodeCommand o i interval drift) = .ok (node, .fresh) := by
  have hrange := launchOptions_inRange ho
  refine ⟨_, o.host i, bind_eq_ok_iff.mpr ⟨o, ho, buildNodes_host hrange draw⟩, ?_, ?_⟩
  · rw [List.getElem?_ofFn, dif_pos i.isLt]
    rfl
  -- the options are read as they were written
  have hparse : parseOptions lower nodeKeys
      ((nodeOptions o i interval drift).map fun pair => item pair.1 pair.2)
        = .ok (nodeOptions o i interval drift) := by
    have hkeys := nodeOptions_keys i interval drift
    have hdistinct : nodeKeys.Nodup := by decide
    exact parseOptions_items hlower (fun pair hpair => hkeys.subset (List.mem_map_of_mem hpair))
      (fun pair hpair => strip_solid (nodeOptions_solid i hsolid hsolid' pair hpair))
      (hdistinct.sublist hkeys)
  refine bind_eq_ok_iff.mpr ⟨nodeOptions o i interval drift, mapError_eq_ok_iff.mpr hparse, ?_⟩
  have hvalues : validateSeed unicode
      (((nodeOptions o i interval drift).lookup "seed".toList).map .text)
        = .ok (o.host i).seed := by
    rw [lookup_seed]
    cases hs : o.seed with
    | none => simp only [LaunchOptions.host, hs]; rfl
    | some seed =>
        have hint : int? unicode (digits (seed + i)) = some ((seed + i : ℕ) : ℤ) :=
          int?_intText unicode (seed + i : ℕ)
        simp only [LaunchOptions.host, hs, Option.map_some, validateSeed, toInt, hint]
        rfl
  exact bind_eq_ok_iff.mpr ⟨_, new_host hrange i (castInt_digits o.cycles)
    ((castFloat_solid hsolid).trans hinterval) (castInt_digits o.k)
    ((castFloat_solid hsolid').trans hdrift) hvalues, rfl⟩

end Command

/-! ## Two peers -/

def twoPeers : List (List Char) := ["peers=2".toList, " K = 5".toList, "seed=7".toList]

def twoPeersOptions : LaunchOptions := ⟨2, 8, 1, 5, 3 / 2, 6, 6001, some 7⟩

theorem launchOptions_twoPeers :
    launchOptions .ascii (List.map Char.toLower) twoPeers = .ok twoPeersOptions := by
  decide +kernel

/-- Two peers know each other. -/
theorem launch_nodes_two : ∃ draw : ℕ → Fraction,
    launch .ascii (List.map Char.toLower) twoPeers draw
        = .ok (List.ofFn fun i => (twoPeersOptions.host i, twoPeersOptions.clock draw i)) ∧
      (twoPeersOptions.host ⟨0, by decide⟩).peers = ["tcp://localhost:6002".toList] := by
  let draw : ℕ → Fraction := fun _ => ⟨1, by decide, by decide⟩
  have h := (launch_nodes .ascii (List.map Char.toLower) twoPeers draw).2 twoPeersOptions
    launchOptions_twoPeers
  exact ⟨draw, h.1, by decide⟩

theorem node_command_two : ∃ nodes node,
    launch .ascii (List.map Char.toLower) twoPeers (fun _ => ⟨1, by decide, by decide⟩)
        = .ok nodes ∧
      nodes[1]? = some (node, Node.fresh.presetSkew (uniform (-6 / 2) (6 / 2)
        ⟨1, by decide, by decide⟩)) ∧
      nodeMain .ascii (List.map Char.toLower)
        (nodeCommand twoPeersOptions ⟨1, by decide⟩ "1.0".toList "15e-1".toList)
          = .ok (node, .fresh) :=
  node_command (by decide) launchOptions_twoPeers _ ⟨1, by decide⟩ (by decide) (by decide)
    (by decide +kernel) (by decide +kernel)

end Peers
