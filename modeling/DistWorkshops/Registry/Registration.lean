import DistWorkshops.Lib.Decimal
import DistWorkshops.Lib.Run
import DistWorkshops.Lib.Utf8
import Mathlib.Logic.Function.Basic

/-!
# Registering a service in the directory

`registrar_servicio` of the publishers and `resolver_servicio` of the subscriber, on a directory
that maps names to attributes and whose operations are atomic. Any number of calls run
interleaved, each one operation at a time: it adds the entry; when there is one, it deletes it and
adds its own.

A step is disturbed when it deletes an entry that is gone, or one that a call has returned for, or
when it adds an entry again where another call was faster. `stays_registered_iff` says that a
registered service stays, and that no call raises, in exactly the runs without a disturbed step.
-/

set_option autoImplicit false

namespace Registry

open Text Decimal

abbrev Bytes := List UInt8

abbrev Name := List Char

/-! ## The directory -/

/-- The attributes of an entry; each has a list of values. -/
structure Attrs where
  objectClass : List Bytes
  cn : List Bytes
  ipHostNumber : List Bytes
  description : List Bytes
  deriving DecidableEq

abbrev Directory := Name → Option Attrs

inductive LdapError where
  | alreadyExists
  | noSuchObject
  deriving DecidableEq

def addS (directory : Directory) (name : Name) (attrs : Attrs) : Except LdapError Directory :=
  match directory name with
  | some _ => .error .alreadyExists
  | none => .ok (Function.update directory name (some attrs))

def deleteS (directory : Directory) (name : Name) : Except LdapError Directory :=
  match directory name with
  | some _ => .ok (Function.update directory name none)
  | none => .error .noSuchObject

/-! ## Calls -/

/-- The arguments of a call of `registrar_servicio`. -/
structure Call where
  nombre : Name
  ip : List Char
  puerto : ℤ

/-- The port is kept in the description. -/
def Call.attrs (call : Call) : Attrs where
  objectClass := ["top", "applicationProcess", "ipHost"].map fun c => Utf8.encode c.toList
  cn := [Utf8.encode call.nombre]
  ipHostNumber := [Utf8.encode call.ip]
  description := [Utf8.encode (intText call.puerto)]

/-- The next operation of a call, or how it ended. -/
inductive Phase where
  | adding
  | deleting
  | readding
  | returned
  | raised (error : LdapError)
  deriving DecidableEq

structure State (ι : Type) where
  directory : Directory
  phase : ι → Phase

section Steps

variable {ι : Type} [DecidableEq ι] (calls : ι → Call)

def start (directory : Directory) : State ι := ⟨directory, fun _ => .adding⟩

def State.enter (s : State ι) (i : ι) (phase : Phase) : State ι :=
  { s with phase := Function.update s.phase i phase }

/-- The next operation of a call. -/
def step (s : State ι) (i : ι) : State ι :=
  let name := (calls i).nombre
  let attrs := (calls i).attrs
  match s.phase i with
  | .adding => match addS s.directory name attrs with
      | .ok directory => State.enter ⟨directory, s.phase⟩ i .returned
      -- the handler covers this `add_s` only
      | .error .alreadyExists => s.enter i .deleting
      | .error error => s.enter i (.raised error)
  | .deleting => match deleteS s.directory name with
      | .ok directory => State.enter ⟨directory, s.phase⟩ i .readding
      | .error error => s.enter i (.raised error)
  | .readding => match addS s.directory name attrs with
      | .ok directory => State.enter ⟨directory, s.phase⟩ i .returned
      | .error error => s.enter i (.raised error)
  | .returned => s
  | .raised _ => s

/-- What a step can do. -/
inductive Step (s : State ι) (i : ι) : State ι → Prop
  | ended (hphase : s.phase i = .returned ∨ ∃ error, s.phase i = .raised error) : Step s i s
  | added (hphase : s.phase i = .adding ∨ s.phase i = .readding)
      (hfree : s.directory (calls i).nombre = none) :
      Step s i (State.enter ⟨Function.update s.directory (calls i).nombre (some (calls i).attrs),
        s.phase⟩ i .returned)
  | found (hphase : s.phase i = .adding) (hentry : s.directory (calls i).nombre ≠ none) :
      Step s i (s.enter i .deleting)
  | deleted (hphase : s.phase i = .deleting) (hentry : s.directory (calls i).nombre ≠ none) :
      Step s i (State.enter ⟨Function.update s.directory (calls i).nombre none, s.phase⟩ i
        .readding)
  | gone (hphase : s.phase i = .deleting) (hfree : s.directory (calls i).nombre = none) :
      Step s i (s.enter i (.raised .noSuchObject))
  | taken (hphase : s.phase i = .readding) (hentry : s.directory (calls i).nombre ≠ none) :
      Step s i (s.enter i (.raised .alreadyExists))

theorem step_spec (s : State ι) (i : ι) : Step calls s i (step calls s i) := by
  unfold step
  cases hphase : s.phase i with
  | adding =>
      cases hentry : s.directory (calls i).nombre with
      | none =>
          simp only [addS, hentry]
          exact .added (Or.inl hphase) hentry
      | some attrs =>
          simp only [addS, hentry]
          exact .found hphase (by rw [hentry]; simp)
  | deleting =>
      cases hentry : s.directory (calls i).nombre with
      | none =>
          simp only [deleteS, hentry]
          exact .gone hphase hentry
      | some attrs =>
          simp only [deleteS, hentry]
          exact .deleted hphase (by rw [hentry]; simp)
  | readding =>
      cases hentry : s.directory (calls i).nombre with
      | none =>
          simp only [addS, hentry]
          exact .added (Or.inr hphase) hentry
      | some attrs =>
          simp only [addS, hentry]
          exact .taken hphase (by rw [hentry]; simp)
  | returned => exact .ended (Or.inl hphase)
  | raised error => exact .ended (Or.inr ⟨error, hphase⟩)

end Steps

/-! ## Resolving -/

inductive ResolveError where
  /-- The search itself raises. -/
  | ldapError
  | lookupError
  | keyError
  | unicodeDecodeError
  | valueError
  deriving DecidableEq

def resolverServicio (unicode : Unicode) (directory : Directory) (nombre : Name) :
    Except ResolveError (List Char × ℤ) :=
  match directory nombre with
  | none => .error .lookupError
  | some attrs => match attrs.ipHostNumber, attrs.description with
      | ip :: _, description :: _ => match Utf8.decode ip, Utf8.decode description with
          | some ip, some description => match int? unicode description with
              | some puerto => .ok (ip, puerto)
              | none => .error .valueError
          | _, _ => .error .unicodeDecodeError
      | _, _ => .error .keyError

/-- An entry of a call resolves to the address of the call. -/
theorem resolverServicio_of_call (unicode : Unicode) {directory : Directory} {name : Name}
    {call : Call} (h : directory name = some call.attrs) :
    resolverServicio unicode directory name = .ok (call.ip, call.puerto) := by
  simp only [resolverServicio, h, Call.attrs, Utf8.decode_encode, int?_intText]

/-! ## Registered services -/

section Registered

variable {ι : Type} (unicode : Unicode) (calls : ι → Call) (name : Name)

/-- A call for the name has returned. -/
def Announced (s : State ι) : Prop := ∃ i, (calls i).nombre = name ∧ s.phase i = .returned

/-- No call for the name has raised, and when one has returned, the name resolves to the address
of one of the calls. -/
structure Registered (s : State ι) : Prop where
  no_raise : ∀ i error, (calls i).nombre = name → s.phase i ≠ .raised error
  resolves : Announced calls name s → ∃ j, (calls j).nombre = name ∧
    resolverServicio unicode s.directory name = .ok ((calls j).ip, (calls j).puerto)

/-- The step does not delete an entry of the name that is gone or that a call has returned for,
and does not add one again where there is one. -/
def Undisturbed (s : State ι) (i : ι) : Prop :=
  (calls i).nombre = name →
    (s.phase i = .deleting → s.directory name ≠ none ∧ ¬ Announced calls name s) ∧
      (s.phase i = .readding → s.directory name = none)

theorem undisturbed_of_phase {s : State ι} {i : ι} (hdeleting : s.phase i ≠ .deleting)
    (hreadding : s.phase i ≠ .readding) : Undisturbed calls name s i :=
  fun _ => ⟨fun h => absurd h hdeleting, fun h => absurd h hreadding⟩

variable [DecidableEq ι]

@[simp] theorem enter_self (s : State ι) (i : ι) (phase : Phase) :
    (s.enter i phase).phase i = phase := Function.update_self _ _ _

theorem enter_of_ne (s : State ι) {i j : ι} (phase : Phase) (h : j ≠ i) :
    (s.enter i phase).phase j = s.phase j := Function.update_of_ne h _ _

/-- A call in a phase that is not its last. -/
theorem no_raise_enter {s : State ι} (hs : Registered unicode calls name s) (directory : Directory)
    (i : ι) {phase : Phase} (hphase : ∀ error, phase ≠ .raised error) (j : ι) (error : LdapError)
    (hj : (calls j).nombre = name) :
    (State.enter ⟨directory, s.phase⟩ i phase).phase j ≠ .raised error := by
  by_cases hji : j = i
  · subst hji
    rw [enter_self]
    exact hphase error
  · rw [enter_of_ne _ _ hji]
    exact hs.no_raise j error hj

theorem announced_enter {s : State ι} (directory : Directory) {i : ι} {phase : Phase}
    (hphase : phase ≠ .returned) (hi : s.phase i ≠ .returned) :
    Announced calls name (State.enter ⟨directory, s.phase⟩ i phase) ↔ Announced calls name s := by
  refine exists_congr fun j => and_congr_right fun _ => ?_
  by_cases hji : j = i
  · subst hji
    rw [enter_self]
    exact iff_of_false hphase hi
  · rw [enter_of_ne _ _ hji]

/-- A step of a call for another name changes nothing of this one. -/
theorem Step.registered_of_other {s s' : State ι} {i : ι} (h : Step calls s i s')
    (hother : (calls i).nombre ≠ name) (hs : Registered unicode calls name s) :
    Registered unicode calls name s' := by
  have hframe : s'.directory name = s.directory name ∧
      ∀ j, (calls j).nombre = name → s'.phase j = s.phase j := by
    have hne : ∀ j, (calls j).nombre = name → j ≠ i := by
      rintro j hj rfl
      exact hother hj
    cases h with
    | ended hphase => exact ⟨rfl, fun _ _ => rfl⟩
    | added hphase hfree =>
        exact ⟨Function.update_of_ne (Ne.symm hother) _ _, fun j hj => enter_of_ne _ _ (hne j hj)⟩
    | found hphase hentry => exact ⟨rfl, fun j hj => enter_of_ne _ _ (hne j hj)⟩
    | deleted hphase hentry =>
        exact ⟨Function.update_of_ne (Ne.symm hother) _ _, fun j hj => enter_of_ne _ _ (hne j hj)⟩
    | gone hphase hfree => exact ⟨rfl, fun j hj => enter_of_ne _ _ (hne j hj)⟩
    | taken hphase hentry => exact ⟨rfl, fun j hj => enter_of_ne _ _ (hne j hj)⟩
  obtain ⟨hdirectory, hphases⟩ := hframe
  constructor
  · intro j error hj
    rw [hphases j hj]
    exact hs.no_raise j error hj
  · rintro ⟨j, hj, hreturned⟩
    rw [hphases j hj] at hreturned
    obtain ⟨k, hk, hresolves⟩ := hs.resolves ⟨j, hj, hreturned⟩
    refine ⟨k, hk, ?_⟩
    rw [← hresolves, resolverServicio, resolverServicio, hdirectory]

/-- **One step**: the name stays registered exactly when the step is undisturbed. -/
theorem Step.registered_iff {s s' : State ι} {i : ι} (h : Step calls s i s')
    (hs : Registered unicode calls name s) :
    Registered unicode calls name s' ↔ Undisturbed calls name s i := by
  by_cases hname : (calls i).nombre = name
  swap
  · exact iff_of_true (h.registered_of_other unicode calls name hname hs)
      fun hi => absurd hi hname
  subst hname
  cases h with
  | ended hphase =>
      refine iff_of_true hs (undisturbed_of_phase calls _ ?_ ?_)
      · rcases hphase with h | ⟨error, h⟩ <;> rw [h] <;> simp
      · rcases hphase with h | ⟨error, h⟩ <;> rw [h] <;> simp
  | added hphase hfree =>
      refine iff_of_true ⟨?_, fun _ => ⟨i, rfl, ?_⟩⟩ fun _ => ⟨fun h => ?_, fun _ => hfree⟩
      · exact no_raise_enter unicode calls _ hs _ i (by simp)
      · exact resolverServicio_of_call unicode (Function.update_self _ _ _)
      · rw [h] at hphase
        simp at hphase
  | found hphase hentry =>
      refine iff_of_true ⟨?_, fun hannounced => ?_⟩ (undisturbed_of_phase calls _ ?_ ?_)
      · exact no_raise_enter unicode calls _ hs s.directory i (by simp)
      · exact hs.resolves ((announced_enter calls _ s.directory (by simp)
          (by rw [hphase]; simp)).mp hannounced)
      · rw [hphase]
        simp
      · rw [hphase]
        simp
  | deleted hphase hentry =>
      have hannounced : Announced calls (calls i).nombre (State.enter
          ⟨Function.update s.directory (calls i).nombre none, s.phase⟩ i .readding) ↔
            Announced calls (calls i).nombre s :=
        announced_enter calls _ _ (by simp) (by rw [hphase]; simp)
      constructor
      · intro hs' _
        refine ⟨fun _ => ⟨hentry, fun hbefore => ?_⟩, fun h => ?_⟩
        · -- the entry is gone, but the name was announced
          obtain ⟨j, -, hresolves⟩ := hs'.resolves (hannounced.mpr hbefore)
          simp [resolverServicio, State.enter] at hresolves
        · rw [hphase] at h
          cases h
      · intro hstep
        refine ⟨no_raise_enter unicode calls _ hs _ i (by simp), fun hafter => ?_⟩
        exact absurd (hannounced.mp hafter) ((hstep rfl).1 hphase).2
  | gone hphase hfree =>
      refine iff_of_false (fun hs' => hs'.no_raise i .noSuchObject rfl (enter_self s i _)) ?_
      exact fun hstep => ((hstep rfl).1 hphase).1 hfree
  | taken hphase hentry =>
      refine iff_of_false (fun hs' => hs'.no_raise i .alreadyExists rfl (enter_self s i _)) ?_
      exact fun hstep => hentry ((hstep rfl).2 hphase)

/-- **When a registered service stays**: along a run no call for the name raises and, once one has
returned, the name resolves to one of them in every state, exactly when no step is disturbed. -/
theorem stays_registered_iff (directory : Directory) (acts : List ι) :
    Run.States (step calls) (start directory) (Registered unicode calls name) acts ↔
      Run.Steps (step calls) (start directory) (Undisturbed calls name) acts := by
  apply Run.states_iff_steps (Registered unicode calls name)
  · -- nothing has happened yet
    constructor
    · intro i error _ h
      cases h
    · rintro ⟨i, -, h⟩
      cases h
  · exact fun s hs => hs
  · intro s i hs
    exact (step_spec calls s i).registered_iff unicode calls name hs
  · exact fun s i _ hs' => hs'

end Registered

/-- Three publishers of one service. -/
def publishers (i : Fin 3) : Call :=
  ⟨"WEATHER".toList, ("10.0.0." ++ toString i.val).toList, 15000⟩

/-- The state after some steps of the publishers, from an empty directory. -/
def publishersAfter (acts : List (Fin 3)) : State (Fin 3) :=
  Run.after (step publishers) (start fun _ => none) acts

/-- The first call has returned. Then the second one deletes its entry to put its own there, and
the name does not resolve; or the third one finds the entry already deleted, and raises. -/
theorem registration_lost :
    (publishersAfter [0, 1, 1]).phase 0 = .returned ∧
      resolverServicio .ascii (publishersAfter [0, 1, 1]).directory "WEATHER".toList
        = .error .lookupError ∧
      (publishersAfter [0, 1, 2, 1, 2]).phase 2 = .raised .noSuchObject ∧
      ¬ Run.States (step publishers) (start fun _ => none)
        (Registered .ascii publishers "WEATHER".toList) [0, 1, 1] := by
  have hreturned : (publishersAfter [0, 1, 1]).phase 0 = .returned := by decide
  have hlost : resolverServicio .ascii (publishersAfter [0, 1, 1]).directory "WEATHER".toList
      = .error .lookupError := rfl
  refine ⟨hreturned, hlost, by decide, ?_⟩
  intro hstates
  obtain ⟨j, -, hresolves⟩ := (hstates [0, 1, 1] [] rfl).resolves ⟨0, rfl, hreturned⟩
  rw [publishersAfter] at hlost
  rw [hlost] at hresolves
  cases hresolves

end Registry
