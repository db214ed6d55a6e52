import DistWorkshops.Peers.PeerList
import DistWorkshops.Peers.Wire

/-!
# The command line of a node

`parse_options` of `peer_node.py` and `parse_options_run` of `run_peers.py` are one loop over the
arguments with different keys (`parse_options`). What they return is read by `validate_number`, in
the constructor of a node and in the launcher.

`lower` is `str.lower`. A number is read as an exact rational, and an argument that is a number
stands for its text, which reads as the number again.
-/

set_option autoImplicit false

namespace Peers

open Text Decimal

/-! ## Options -/

inductive OptionError where
  | malformed (item : List Char)
  | unknown (key : List Char)
  | givenTwice (key : List Char)
  deriving DecidableEq

/-- A dictionary of options, in the order of the arguments. -/
abbrev Options := List (List Char × List Char)

def optionValue (item : List Char) : List Char := strip (partition ['='] item).2

section Parsing

variable (lower : List Char → List Char) (allowed : List (List Char))

def optionKey (item : List Char) : List Char := lower (strip (partition ['='] item).1)

/-- One pass of the loop, on the options so far. -/
def optionStep (options : Options) (item : List Char) : Except OptionError Options :=
  if '=' ∉ item then .error (.malformed item)
  else if !allowed.contains (optionKey lower item) then .error (.unknown (optionKey lower item))
  else if (options.map Prod.fst).contains (optionKey lower item) then
    .error (.givenTwice (optionKey lower item))
  else .ok (options ++ [(optionKey lower item, optionValue item)])

def parseOptions (argv : List (List Char)) : Except OptionError Options :=
  argv.foldlM (optionStep lower allowed) []

/-- Arguments that give allowed keys a value each, at most one. -/
structure Accepted (argv : List (List Char)) : Prop where
  items : ∀ item ∈ argv, '=' ∈ item ∧ optionKey lower item ∈ allowed
  nodup : (argv.map (optionKey lower)).Nodup

/-- The options of the arguments. -/
def optionsOf (argv : List (List Char)) : Options :=
  argv.map fun item => (optionKey lower item, optionValue item)

/-- What is wrong with an argument that is not accepted after others. -/
def refusal (item : List Char) : OptionError :=
  if '=' ∉ item then .malformed item
  else if !allowed.contains (optionKey lower item) then .unknown (optionKey lower item)
  else .givenTwice (optionKey lower item)

variable {lower allowed}

theorem optionsOf_keys (argv : List (List Char)) :
    (optionsOf lower argv).map Prod.fst = argv.map (optionKey lower) := by
  rw [optionsOf, List.map_map]
  rfl

theorem accepted_concat_iff {done : List (List Char)} {item : List Char}
    (hdone : Accepted lower allowed done) : Accepted lower allowed (done ++ [item]) ↔
      ('=' ∈ item ∧ optionKey lower item ∈ allowed) ∧
        optionKey lower item ∉ done.map (optionKey lower) := by
  constructor
  · rintro ⟨hitems, hnodup⟩
    refine ⟨hitems item (List.mem_append_right _ List.mem_cons_self), fun hmem => ?_⟩
    rw [List.map_append] at hnodup
    exact (List.nodup_append.mp hnodup).2.2 _ hmem _ List.mem_cons_self rfl
  · rintro ⟨hitem, hfresh⟩
    constructor
    · intro other hother
      rcases List.mem_append.mp hother with h | h
      · exact hdone.items other h
      · rwa [List.mem_singleton.mp h]
    · rw [List.map_append]
      refine List.nodup_append.mpr ⟨hdone.nodup, List.nodup_singleton _, ?_⟩
      rintro a ha b hb rfl
      rw [List.map_singleton, List.mem_singleton] at hb
      exact hfresh (hb ▸ ha)

theorem Accepted.left {argv more : List (List Char)}
    (h : Accepted lower allowed (argv ++ more)) : Accepted lower allowed argv where
  items item hitem := h.items item (List.mem_append_left _ hitem)
  nodup := by
    have hnodup := h.nodup
    rw [List.map_append] at hnodup
    exact (List.nodup_append.mp hnodup).1

theorem optionStep_ok {done : List (List Char)} {item : List Char}
    (h : Accepted lower allowed (done ++ [item])) :
    optionStep lower allowed (optionsOf lower done) item
      = .ok (optionsOf lower (done ++ [item])) := by
  obtain ⟨⟨heq, hallowed⟩, hfresh⟩ := (accepted_concat_iff h.left).mp h
  have hcontains : allowed.contains (optionKey lower item) = true :=
    List.contains_iff_mem.mpr hallowed
  rw [optionStep, if_neg (not_not.mpr heq), hcontains, optionsOf_keys, if_neg (by decide),
    if_neg fun hmem => hfresh (List.contains_iff_mem.mp hmem)]
  rw [optionsOf, optionsOf, List.map_append]
  rfl

theorem optionStep_error {done : List (List Char)} {item : List Char}
    (hdone : Accepted lower allowed done) (h : ¬ Accepted lower allowed (done ++ [item])) :
    optionStep lower allowed (optionsOf lower done) item = .error (refusal lower allowed item) := by
  rw [accepted_concat_iff hdone] at h
  rw [optionStep, refusal, optionsOf_keys]
  by_cases heq : '=' ∉ item
  · rw [if_pos heq, if_pos heq]
  rw [if_neg heq, if_neg heq]
  by_cases hallowed : optionKey lower item ∈ allowed
  · have htwice : optionKey lower item ∈ done.map (optionKey lower) := by
      by_contra hfresh
      exact h ⟨⟨not_not.mp heq, hallowed⟩, hfresh⟩
    rw [List.contains_iff_mem.mpr hallowed, List.contains_iff_mem.mpr htwice]
    rfl
  · have hcontains : allowed.contains (optionKey lower item) = false := by
      rw [Bool.eq_false_iff]
      exact fun hmem => hallowed (List.contains_iff_mem.mp hmem)
    rw [hcontains]
    rfl

theorem parseOptions_append (argv more : List (List Char)) :
    parseOptions lower allowed (argv ++ more)
      = (parseOptions lower allowed argv).bind fun options =>
          more.foldlM (optionStep lower allowed) options :=
  List.foldlM_append

theorem parseOptions_of_accepted {argv : List (List Char)} (h : Accepted lower allowed argv) :
    parseOptions lower allowed argv = .ok (optionsOf lower argv) := by
  induction argv using List.reverseRecOn with
  | nil => rfl
  | append_singleton argv item ih =>
      rw [parseOptions_append, ih h.left]
      show (optionStep lower allowed (optionsOf lower argv) item).bind pure = _
      rw [optionStep_ok h]
      rfl

/-- The first argument that is not accepted after those before it. -/
structure FirstRefused (lower : List Char → List Char) (allowed : List (List Char))
    (argv done : List (List Char)) (item : List Char) : Prop where
  split : ∃ rest, argv = done ++ item :: rest
  before : Accepted lower allowed done
  refused : ¬ Accepted lower allowed (done ++ [item])

theorem FirstRefused.parseOptions {argv done : List (List Char)} {item : List Char}
    (h : FirstRefused lower allowed argv done item) :
    parseOptions lower allowed argv = .error (refusal lower allowed item) := by
  obtain ⟨rest, rfl⟩ := h.split
  rw [parseOptions_append, parseOptions_of_accepted h.before]
  show (optionStep lower allowed (optionsOf lower done) item).bind _ = _
  rw [optionStep_error h.before h.refused]
  rfl

theorem exists_firstRefused {argv : List (List Char)} (h : ¬ Accepted lower allowed argv) :
    ∃ done item, FirstRefused lower allowed argv done item := by
  induction argv using List.reverseRecOn with
  | nil => exact absurd ⟨List.forall_mem_nil _, List.nodup_nil⟩ h
  | append_singleton argv item ih =>
      by_cases hargv : Accepted lower allowed argv
      · exact ⟨argv, item, ⟨[], rfl⟩, hargv, h⟩
      · obtain ⟨done, first, ⟨rest, rfl⟩, hbefore, hrefused⟩ := ih hargv
        exact ⟨done, first, ⟨rest ++ [item], by rw [List.append_assoc]; rfl⟩, hbefore, hrefused⟩

/-- **What the arguments come to.** The options are read exactly if every argument gives an allowed
key a value and no key comes twice; else the error is that of the first argument that breaks this
rule. -/
theorem parse_options (lower : List Char → List Char) (allowed argv : List (List Char)) :
    (∀ options, parseOptions lower allowed argv = .ok options ↔
        Accepted lower allowed argv ∧ options = optionsOf lower argv) ∧
      ∀ e, parseOptions lower allowed argv = .error e ↔
        ∃ done item, FirstRefused lower allowed argv done item ∧
          e = refusal lower allowed item := by
  by_cases h : Accepted lower allowed argv
  · have hparse := parseOptions_of_accepted h
    constructor
    · intro options
      rw [hparse, Except.ok.injEq]
      exact ⟨fun heq => ⟨h, heq.symm⟩, fun hand => hand.2.symm⟩
    · intro e
      rw [hparse]
      refine ⟨fun heq => (by cases heq), ?_⟩
      rintro ⟨done, item, hfirst, -⟩
      rw [hfirst.parseOptions] at hparse
      cases hparse
  · obtain ⟨done, item, hfirst⟩ := exists_firstRefused h
    have hparse := hfirst.parseOptions
    constructor
    · intro options
      rw [hparse]
      exact ⟨fun heq => (by cases heq), fun hand => absurd hand.1 h⟩
    · intro e
      constructor
      · intro heq
        rw [hparse] at heq
        exact ⟨done, item, hfirst, (Except.error.inj heq).symm⟩
      · rintro ⟨done', item', hfirst', rfl⟩
        exact hfirst'.parseOptions

end Parsing

/-! ## Numbers -/

/-- An argument of the constructor: a text of the command line, or a number. -/
inductive Value where
  | text (s : List Char)
  | int (z : ℤ)
  | float (q : ℚ)
  deriving DecidableEq

inductive NumberError where
  | notANumber (name : List Char) (value : Value)
  | outOfRange (name : List Char) (minimum maximum : ℚ) (number : PyFloat)
  deriving DecidableEq

section Numbers

variable (unicode : Unicode)

/-- `int(str(value).strip())`. The text of a float has a point or an exponent, or is no number. -/
def castInt : Value → Option PyFloat
  | .text s => (int? unicode (strip s)).map fun z : ℤ => .num z
  | .int z => some (.num z)
  | .float _ => none

/-- `float(str(value).strip())`. -/
def castFloat : Value → Option PyFloat
  | .text s => PyFloat.float? unicode (strip s)
  | .int z => some (.num z)
  | .float q => some (.num q)

/-- `int(value)`. -/
def toInt : Value → Option ℤ
  | .text s => int? unicode s
  | .int z => some z
  | .float q => some (q.num.tdiv q.den)

/-- `validate_number`; the range has finite ends, so a number in it is finite. -/
def validateNumber (cast : Value → Option PyFloat) (name : String) (minimum maximum : ℚ)
    (value : Value) : Except NumberError ℚ :=
  match cast value with
  | none => .error (.notANumber name.toList value)
  | some (.num q) =>
      if minimum ≤ q ∧ q ≤ maximum then .ok q
      else .error (.outOfRange name.toList minimum maximum (.num q))
  | some x => .error (.outOfRange name.toList minimum maximum x)

variable {unicode}

theorem validateNumber_ok_iff {cast : Value → Option PyFloat} {name : String}
    {minimum maximum q : ℚ} {value : Value} :
    validateNumber cast name minimum maximum value = .ok q ↔
      cast value = some (.num q) ∧ minimum ≤ q ∧ q ≤ maximum := by
  unfold validateNumber
  cases hcast : cast value with
  | none => simp
  | some x =>
      cases x with
      | num p =>
          by_cases hrange : minimum ≤ p ∧ p ≤ maximum
          · simp only [if_pos hrange, Except.ok.injEq, Option.some.injEq, PyFloat.num.injEq]
            constructor
            · rintro rfl
              exact ⟨rfl, hrange⟩
            · exact fun h => h.1
          · simp only [if_neg hrange, reduceCtorEq, false_iff, Option.some.injEq,
              PyFloat.num.injEq]
            rintro ⟨rfl, hq⟩
            exact hrange hq
      | infinity negative => simp
      | nan => simp

end Numbers

/-! ## The constructor of a node -/

inductive LaunchError where
  | missing
  | option (error : OptionError)
  | name (error : NameError)
  | port (error : PortError)
  | peers (error : PeersError)
  | number (error : NumberError)
  /-- `int(seed)` raises. -/
  | seed (value : Value)
  | indexError
  deriving DecidableEq

structure PeerNode where
  name : List Char
  port : ℤ
  peers : List (List Char)
  cycles : ℕ
  interval : ℚ
  k : ℕ
  driftMax : ℚ
  seed : Option ℤ
  deriving DecidableEq

/-- The arguments of the constructor behind the peers. -/
structure NodeValues where
  cycles : Value
  interval : Value
  k : Value
  drift : Value
  seed : Option Value

section Constructor

variable (unicode : Unicode)

/-- `int(validate_number(value, name, minimum, maximum, int))`, for a range from 0 on. -/
def validateInt (name : String) (minimum maximum : ℚ) (value : Value) : Except LaunchError ℕ :=
  ((validateNumber (castInt unicode) name minimum maximum value).mapError .number).map fun q =>
    q.num.toNat

def validateFloat (name : String) (minimum maximum : ℚ) (value : Value) : Except LaunchError ℚ :=
  (validateNumber (castFloat unicode) name minimum maximum value).mapError .number

def validateSeed : Option Value → Except LaunchError (Option ℤ)
  | none => .ok none
  | some value => match toInt unicode value with
      | none => .error (.seed value)
      | some z => .ok (some z)

/-- `PeerNode(name, port, peers, ...)`. A port is given by its text. -/
def PeerNode.new (name : List Char) (port peers : List Char) (values : NodeValues) :
    Except LaunchError PeerNode := do
  let name ← (validateName (some name)).mapError .name
  let port ← (validatePort unicode port).mapError .port
  let peers ← (validatePeers unicode (some port) (some peers)).mapError .peers
  let cycles ← validateInt unicode "cycles" 0 10000 values.cycles
  let interval ← validateFloat unicode "interval" (1 / 10) 600 values.interval
  let k ← validateInt unicode "k" 1 1000 values.k
  let driftMax ← validateFloat unicode "drift" 0 3600 values.drift
  let seed ← validateSeed unicode values.seed
  return ⟨name, port, peers, cycles, interval, k, driftMax, seed⟩

variable {unicode}

theorem mapError_eq_ok_iff {ε ε' α : Type} {x : Except ε α} {f : ε → ε'} {a : α} :
    x.mapError f = .ok a ↔ x = .ok a := by
  cases x with
  | error e => exact ⟨fun h => (by cases h), fun h => (by cases h)⟩
  | ok b => exact ⟨fun h => congrArg _ (Except.ok.inj h), fun h => congrArg _ (Except.ok.inj h)⟩

theorem bind_eq_ok_iff {ε α β : Type} {x : Except ε α} {f : α → Except ε β} {b : β} :
    x >>= f = .ok b ↔ ∃ a, x = .ok a ∧ f a = .ok b := by
  cases x with
  | error e =>
      refine ⟨fun h => (by cases h), ?_⟩
      rintro ⟨a, ha, -⟩
      cases ha
  | ok a =>
      refine ⟨fun h => ⟨a, rfl, h⟩, ?_⟩
      rintro ⟨a', ha, h⟩
      obtain rfl := Except.ok.inj ha
      exact h

theorem map_eq_ok_iff {ε α β : Type} {x : Except ε α} {f : α → β} {b : β} :
    x.map f = .ok b ↔ ∃ a, x = .ok a ∧ f a = b := by
  cases x with
  | error e =>
      refine ⟨fun h => (by cases h), ?_⟩
      rintro ⟨a, ha, -⟩
      cases ha
  | ok a =>
      refine ⟨fun h => ⟨a, rfl, Except.ok.inj h⟩, ?_⟩
      rintro ⟨a', ha, h⟩
      obtain rfl := Except.ok.inj ha
      exact congrArg _ h

theorem castInt_integer {value : Value} {q : ℚ} (h : castInt unicode value = some (.num q)) :
    ∃ z : ℤ, q = z := by
  cases value with
  | text s =>
      obtain ⟨z, -, hz⟩ := Option.map_eq_some_iff.mp h
      exact ⟨z, (PyFloat.num.inj hz).symm⟩
  | int z => exact ⟨z, (PyFloat.num.inj (Option.some.inj h)).symm⟩
  | float p => cases h

/-- An integer option lies in its range. -/
theorem validateInt_range {name : String} {minimum maximum : ℚ} {value : Value} {n : ℕ}
    (hmin : 0 ≤ minimum) (h : validateInt unicode name minimum maximum value = .ok n) :
    minimum ≤ n ∧ (n : ℚ) ≤ maximum := by
  obtain ⟨q, hq, rfl⟩ := map_eq_ok_iff.mp h
  obtain ⟨hcast, hge, hle⟩ := validateNumber_ok_iff.mp (mapError_eq_ok_iff.mp hq)
  obtain ⟨z, rfl⟩ := castInt_integer hcast
  have hz : 0 ≤ z := by exact_mod_cast hmin.trans hge
  have hnat : ((z : ℚ).num.toNat : ℚ) = z := by
    rw [Rat.num_intCast]
    exact_mod_cast Int.toNat_of_nonneg hz
  rw [hnat]
  exact ⟨hge, hle⟩

theorem validateFloat_ok_iff {name : String} {minimum maximum q : ℚ} {value : Value} :
    validateFloat unicode name minimum maximum value = .ok q ↔
      castFloat unicode value = some (.num q) ∧ minimum ≤ q ∧ q ≤ maximum :=
  mapError_eq_ok_iff.trans validateNumber_ok_iff

theorem validateInt_of_cast {name : String} {minimum maximum : ℚ} {value : Value} {n : ℕ}
    (hcast : castInt unicode value = some (.num n)) (hge : minimum ≤ n) (hle : (n : ℚ) ≤ maximum) :
    validateInt unicode name minimum maximum value = .ok n := by
  have hnumber : validateNumber (castInt unicode) name minimum maximum value = .ok (n : ℚ) :=
    validateNumber_ok_iff.mpr ⟨hcast, hge, hle⟩
  rw [validateInt, hnumber]
  rfl

/-! ## The main function of a node -/

variable (unicode)

/-- `options.get(key, default)`. -/
def optionOr (options : Options) (key : String) (value : Value) : Value :=
  (options.lookup key.toList).elim value .text

def nodeKeys : List (List Char) := ["cycles", "interval", "k", "drift", "seed"].map String.toList

/-- `main` of `peer_node.py` up to the run, for the arguments behind the name of the program: the
node and its clock. -/
def nodeMain (lower : List Char → List Char) :
    List (List Char) → Except LaunchError (PeerNode × Node)
  | name :: port :: peers :: argv => do
      let options ← (parseOptions lower nodeKeys argv).mapError .option
      let node ← PeerNode.new unicode name port peers
        ⟨optionOr options "cycles" (.int 10), optionOr options "interval" (.float 2),
          optionOr options "k" (.int 3), optionOr options "drift" (.float (3 / 2)),
          (options.lookup "seed".toList).map .text⟩
      return (node, .fresh)
  | _ => .error .missing

end Constructor

end Peers
