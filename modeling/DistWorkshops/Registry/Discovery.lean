import Mathlib.Data.Fintype.Basic
import DistWorkshops.PubSub.Filtering
import DistWorkshops.Registry.Registration

/-!
# Publishers that are found by their name

`main` of the publishers and of the subscriber of `workshop3_part2`, together: a publisher registers
its service in the directory, binds its socket and sends; the subscriber resolves its topics one
after the other, connects to what it has found, and subscribes. All of them run at the same time, a
registration one operation at a time as in `Registration`, and the directory is empty at the start.

The subscriber has joined a publisher when its subscriptions have reached it; what is sent before is
lost, and from then on the socket of a publisher may drop a message, as it does when the queue of a
subscriber is full. A topic may begin the name of another service, but the subscriber is connected
to the services it has asked for only, so it hears nothing of the others (`heard_exactly`).

What the server finds for a filter `(cn=name)` is a parameter, `search`. The theorem asks of it only
that it finds the entry of that name when the name is a plain one; other characters may be special
in a filter.
-/

set_option autoImplicit false

namespace Registry

open Text Decimal PubSub

/-- A name that stands for itself in the name of an entry and in a search filter. The directory
takes upper and lower case for the same; both programs turn names to upper case. -/
def PlainName (name : Name) : Prop :=
  name ≠ [] ∧ ∀ c ∈ name, c.isUpper = true ∨ c.isDigit = true

instance (name : Name) : Decidable (PlainName name) :=
  inferInstanceAs (Decidable (name ≠ [] ∧ ∀ c ∈ name, c.isUpper = true ∨ c.isDigit = true))

structure Publisher where
  argument : List Char
  ip : List Char
  puerto : ℤ

/-- The address that a subscriber connects to. -/
def target (ip : List Char) (puerto : ℤ) : List Char := ip ++ ':' :: intText puerto

namespace Publisher

variable (unicode : Unicode) (publisher : Publisher)

/-- Its call of `registrar_servicio`. -/
def call : Call := ⟨unicode.upper (strip publisher.argument), publisher.ip, publisher.puerto⟩

def address : List Char := target publisher.ip publisher.puerto

end Publisher

/-- What `search_s` finds in a directory for a filter `(cn=name)`; `none` when it raises. -/
abbrev Search := Directory → Name → Option (List Attrs)

/-- `resolver_servicio`: the first of the entries that the search finds. -/
def resolve (unicode : Unicode) (search : Search) (directory : Directory) (nombre : Name) :
    Except ResolveError (List Char × ℤ) :=
  match search directory nombre with
  | none => .error .ldapError
  | some entries => resolverServicio unicode (fun _ => entries.head?) nombre

/-- The search finds the entry of a plain name. -/
def FindsPlain (search : Search) : Prop :=
  ∀ directory name, PlainName name → search directory name = some (directory name).toList

/-! ## The system -/

inductive Subscriber where
  | resolving (targets : List (List Char)) (todo : List Name)
  | listening (targets : List (List Char))
  | raised (error : ResolveError)

structure System (ι : Type) where
  registry : State ι
  bound : ι → Bool
  /-- How many messages each publisher has sent. -/
  cont : ι → ℕ
  subscriber : Subscriber
  /-- How many messages a publisher had sent when the subscriber joined it. -/
  joined : ι → Option ℕ
  /-- The messages received, with their publishers. -/
  received : List (ι × Sending)

inductive SystemAct (ι : Type) where
  /-- The next operation of a registration. -/
  | register (i : ι)
  | bind (i : ι)
  /-- A message is sent, and kept for the subscriber or dropped. -/
  | send (i : ι) (time : StructTime) (payload : List Char) (kept : Bool)
  /-- The subscriber resolves its next topic, or connects and subscribes after the last. -/
  | resolve
  | join (i : ι)

section Steps

variable {ι : Type} [DecidableEq ι] (unicode : Unicode) (search : Search)
  (publishers : ι → Publisher) (argument : List Char)

/-- `argument` is the one of the subscriber. -/
def startSystem : System ι where
  registry := start fun _ => none
  bound _ := false
  cont _ := 0
  subscriber := .resolving [] (topics unicode argument)
  joined _ := none
  received := []

/-- The message that a publisher sends next. -/
def System.sending (s : System ι) (i : ι) (time : StructTime) (payload : List Char) : Sending :=
  ⟨(publishers i).argument, time, s.cont i + 1, payload⟩

/-- The publisher sends a message; the subscriber receives it if it has joined and subscribed to it,
and the message is kept. -/
def System.sent (s : System ι) (i : ι) (time : StructTime) (payload : List Char) (kept : Bool) :
    System ι :=
  { s with
    cont := Function.update s.cont i (s.cont i + 1)
    received :=
      if (s.joined i).isSome && kept && receives unicode argument
          (s.sending publishers i time payload) then
        s.received ++ [(i, s.sending publishers i time payload)]
      else s.received }

/-- One step, if it is possible. -/
def stepSystem [Fintype ι] (s : System ι) : SystemAct ι → Option (System ι)
  | .register i =>
      some { s with registry := step (fun i => (publishers i).call unicode) s.registry i }
  | .bind i =>
      -- an address that is bound is in use
      if s.registry.phase i = .returned ∧
          ∀ j, s.bound j = true → (publishers j).address ≠ (publishers i).address then
        some { s with bound := Function.update s.bound i true }
      else none
  | .send i time payload kept =>
      if s.bound i then some (s.sent unicode publishers argument i time payload kept) else none
  | .resolve => match s.subscriber with
      | .resolving targets [] => some { s with subscriber := .listening targets }
      | .resolving targets (topic :: todo) =>
          match resolve unicode search s.registry.directory topic with
          | .ok (ip, puerto) =>
              some { s with subscriber := .resolving (targets ++ [target ip puerto]) todo }
          | .error error => some { s with subscriber := .raised error }
      | _ => none
  | .join i => match s.subscriber with
      | .listening targets =>
          if s.bound i ∧ targets.contains (publishers i).address ∧ s.joined i = none then
            some { s with joined := Function.update s.joined i (some (s.cont i)) }
          else none
      | _ => none

def runSystem [Fintype ι] (s : System ι) (acts : List (SystemAct ι)) : Option (System ι) :=
  acts.foldlM (stepSystem unicode search publishers argument) s

/-- No message is dropped for a subscriber that has joined. -/
def Lossless (acts : List (SystemAct ι)) : Prop :=
  ∀ i time payload, .send i time payload false ∉ acts

/-! ## The invariant -/

/-- Every entry is that of a publisher. -/
def Written (directory : Directory) : Prop :=
  ∀ name attrs, directory name = some attrs →
    ∃ i, ((publishers i).call unicode).nombre = name ∧ attrs = ((publishers i).call unicode).attrs

/-- The address of a publisher whose service is a topic. -/
def Found (address : List Char) : Prop :=
  ∃ i, address = (publishers i).address ∧
    ((publishers i).call unicode).nombre ∈ topics unicode argument

def Subscriber.Sound : Subscriber → Prop
  | .resolving targets todo =>
      (∀ address ∈ targets, Found unicode publishers argument address) ∧
        ∀ topic ∈ todo, topic ∈ topics unicode argument
  | .listening targets => ∀ address ∈ targets, Found unicode publishers argument address
  | .raised error => error = .lookupError

/-- The numbers of the messages received from a publisher. -/
def System.heard (s : System ι) (i : ι) : List ℕ :=
  (s.received.filter fun message => message.1 = i).map fun message => message.2.cont

/-- The numbers of the messages sent since the subscriber has joined. -/
def System.since (s : System ι) (i : ι) : List ℕ := match s.joined i with
  | none => []
  | some k => List.range' (k + 1) (s.cont i - k)

structure System.Inv (s : System ι) : Prop where
  directory : Written unicode publishers s.registry.directory
  subscriber : s.subscriber.Sound unicode publishers argument
  joined : ∀ i k, s.joined i = some k →
    ((publishers i).call unicode).nombre ∈ topics unicode argument ∧ k ≤ s.cont i
  received : ∀ message ∈ s.received, Asked unicode argument message.2
  heard : ∀ i, List.Sublist (s.heard i) (s.since i)

variable {unicode search publishers argument} {s s' : System ι}

theorem written_step {registry : State ι} (h : Written unicode publishers registry.directory)
    (i : ι) :
    Written unicode publishers
      (step (fun i => (publishers i).call unicode) registry i).directory := by
  have hstep := step_spec (fun i => (publishers i).call unicode) registry i
  generalize step (fun i => (publishers i).call unicode) registry i = registry' at hstep ⊢
  cases hstep with
  | ended hphase => exact h
  | added hphase hfree =>
      intro name attrs hentry
      simp only [State.enter] at hentry
      by_cases hname : name = ((publishers i).call unicode).nombre
      · rw [hname, Function.update_self] at hentry
        exact ⟨i, hname.symm, (Option.some.inj hentry).symm⟩
      · rw [Function.update_of_ne hname] at hentry
        exact h name attrs hentry
  | found hphase hentry => exact h
  | deleted hphase hentry =>
      intro name attrs hentry
      simp only [State.enter] at hentry
      by_cases hname : name = ((publishers i).call unicode).nombre
      · rw [hname, Function.update_self] at hentry
        cases hentry
      · rw [Function.update_of_ne hname] at hentry
        exact h name attrs hentry
  | gone hphase hfree => exact h
  | taken hphase hentry => exact h

/-- A plain name is looked up as it is. -/
theorem resolve_of_plain (hsearch : FindsPlain search) {name : Name} (hname : PlainName name)
    (directory : Directory) :
    resolve unicode search directory name = resolverServicio unicode directory name := by
  unfold resolve
  rw [hsearch directory name hname]
  unfold resolverServicio
  cases directory name <;> rfl

omit [DecidableEq ι] in
/-- A name resolves to the address of a publisher of this name, or there is no entry. -/
theorem Written.resolves {directory : Directory} (h : Written unicode publishers directory)
    (hsearch : FindsPlain search) {name : Name} (hplain : PlainName name) :
    resolve unicode search directory name = .error .lookupError ∨
      ∃ i, ((publishers i).call unicode).nombre = name ∧ resolve unicode search directory name
        = .ok ((publishers i).ip, (publishers i).puerto) := by
  rw [resolve_of_plain hsearch hplain]
  cases hentry : directory name with
  | none =>
      left
      rw [resolverServicio, hentry]
  | some attrs =>
      obtain ⟨i, hname, rfl⟩ := h name attrs hentry
      exact .inr ⟨i, hname, resolverServicio_of_call unicode hentry⟩

theorem inv_startSystem :
    (startSystem unicode argument : System ι).Inv unicode publishers argument where
  directory _ _ hentry := by cases hentry
  subscriber := ⟨List.forall_mem_nil _, fun _ h => h⟩
  joined _ _ h := by cases h
  received := List.forall_mem_nil _
  heard _ := List.Sublist.refl _

/-! ### Sending -/

/-- Whether the subscriber receives the next message of a publisher. -/
def System.Hears (s : System ι) (i : ι) (kept : Bool) : Prop :=
  (s.joined i).isSome = true ∧ kept = true

instance (i : ι) (kept : Bool) : Decidable (s.Hears i kept) := inferInstanceAs (Decidable (_ ∧ _))

omit [DecidableEq ι] in
theorem asked_sending {i : ι} (hplain : PlainName ((publishers i).call unicode).nombre)
    (h : ((publishers i).call unicode).nombre ∈ topics unicode argument) (time : StructTime)
    (payload : List Char) : Asked unicode argument (s.sending publishers i time payload) :=
  (asked_iff unicode argument _).mpr ⟨hplain.1, h⟩

/-- The subscriptions let through whatever a joined publisher sends. -/
theorem System.Inv.hears_iff (hi : s.Inv unicode publishers argument)
    (hplain : ∀ i, PlainName ((publishers i).call unicode).nombre) (i : ι) (time : StructTime)
    (payload : List Char) (kept : Bool) :
    ((s.joined i).isSome && kept && receives unicode argument
      (s.sending publishers i time payload)) = true ↔ s.Hears i kept := by
  rw [System.Hears, Bool.and_eq_true, Bool.and_eq_true]
  refine and_iff_left_of_imp fun hjoined => ?_
  obtain ⟨k, hk⟩ := Option.isSome_iff_exists.mp hjoined.1
  exact receives_of_asked unicode (asked_sending (hplain i) (hi.joined i k hk).1 time payload)

theorem heard_append (i j : ι) (sending : Sending) :
    System.heard { s with received := s.received ++ [(i, sending)] } j
      = if i = j then s.heard j ++ [sending.cont] else s.heard j := by
  unfold System.heard
  rw [List.filter_append, List.map_append]
  by_cases hij : i = j
  · rw [if_pos hij, List.filter_cons_of_pos (by simpa using hij)]
    rfl
  · rw [if_neg hij, List.filter_cons_of_neg (by simpa using hij)]
    exact List.append_nil _

section Sent

variable (hi : s.Inv unicode publishers argument)
  (hplain : ∀ i, PlainName ((publishers i).call unicode).nombre) (i : ι) (time : StructTime)
  (payload : List Char) (kept : Bool)

include hi hplain in
/-- The number of the message comes at the end of what is heard of its publisher. -/
theorem heard_sent (j : ι) :
    (s.sent unicode publishers argument i time payload kept).heard j
      = s.heard j ++ if i = j ∧ s.Hears i kept then [s.cont i + 1] else [] := by
  have hiff := hi.hears_iff hplain i time payload kept
  unfold System.sent
  by_cases hhears : s.Hears i kept
  · rw [if_pos (hiff.mpr hhears)]
    refine (heard_append i j _).trans ?_
    by_cases hij : i = j
    · rw [if_pos hij, if_pos ⟨hij, hhears⟩]
      rfl
    · rw [if_neg hij, if_neg fun h => hij h.1, List.append_nil]
  · rw [if_neg fun h => hhears (hiff.mp h), if_neg fun h => hhears h.2, List.append_nil]
    rfl

include hi in
/-- The number of the message comes at the end of those that count since the joining. -/
theorem since_sent (j : ι) :
    (s.sent unicode publishers argument i time payload kept).since j
      = s.since j ++ if i = j ∧ (s.joined i).isSome = true then [s.cont i + 1] else [] := by
  unfold System.since
  show (match s.joined j with
    | none => []
    | some k => List.range' (k + 1) (Function.update s.cont i (s.cont i + 1) j - k)) = _
  cases hjoined : s.joined j with
  | none =>
      have hnot : ¬ (i = j ∧ (s.joined i).isSome = true) := by
        rintro ⟨rfl, hsome⟩
        rw [hjoined] at hsome
        cases hsome
      rw [if_neg hnot]
      rfl
  | some k =>
      by_cases hij : i = j
      · subst hij
        have hle := (hi.joined i k hjoined).2
        have hmore : s.cont i + 1 - k = (s.cont i - k) + 1 := by omega
        have hlast : k + 1 + (s.cont i - k) = s.cont i + 1 := by omega
        rw [if_pos ⟨rfl, by rw [hjoined]; rfl⟩]
        simp only [Function.update_self]
        rw [hmore, List.range'_1_concat, hlast]
      · rw [if_neg fun h => hij h.1, List.append_nil]
        simp only [Function.update_of_ne (Ne.symm hij)]

include hi hplain in
theorem System.Inv.sent :
    (s.sent unicode publishers argument i time payload kept).Inv unicode publishers argument := by
  refine { hi with joined := ?joined, received := ?received, heard := ?heard }
  case joined =>
    intro j k hj
    obtain ⟨htopic, hle⟩ := hi.joined j k hj
    refine ⟨htopic, ?_⟩
    show k ≤ Function.update s.cont i (s.cont i + 1) j
    by_cases hji : j = i
    · subst hji
      rw [Function.update_self]
      omega
    · rwa [Function.update_of_ne hji]
  case received =>
    intro message hmessage
    unfold System.sent at hmessage
    by_cases hhears : s.Hears i kept
    · obtain ⟨k, hk⟩ := Option.isSome_iff_exists.mp hhears.1
      rw [if_pos ((hi.hears_iff hplain i time payload kept).mpr hhears)] at hmessage
      rcases List.mem_append.mp hmessage with hold | hnew
      · exact hi.received message hold
      · rw [List.mem_singleton.mp hnew]
        exact asked_sending (hplain i) (hi.joined i k hk).1 time payload
    · rw [if_neg fun h => hhears ((hi.hears_iff hplain i time payload kept).mp h)] at hmessage
      exact hi.received message hmessage
  case heard =>
    intro j
    rw [heard_sent hi hplain, since_sent hi]
    refine (hi.heard j).append ?_
    -- what is heard was sent since the joining, and it may be dropped
    split_ifs with hhears hsince hsince
    · exact List.Sublist.refl _
    · exact absurd ⟨hhears.1, hhears.2.1⟩ hsince
    · exact List.nil_sublist _
    · exact List.Sublist.refl _

end Sent

/-! ### Resolving and joining -/

theorem System.Inv.resolve (hi : s.Inv unicode publishers argument) (hsearch : FindsPlain search)
    (htopics : ∀ topic ∈ topics unicode argument, PlainName topic) {targets : List (List Char)}
    {topic : Name} {todo : List Name}
    (hsubscriber : s.subscriber = .resolving targets (topic :: todo)) {ip : List Char} {puerto : ℤ}
    (hok : Registry.resolve unicode search s.registry.directory topic = .ok (ip, puerto)) :
    System.Inv unicode publishers argument
      { s with subscriber := .resolving (targets ++ [target ip puerto]) todo } := by
  have hsound := hi.subscriber
  rw [hsubscriber] at hsound
  obtain ⟨htargets, htodo⟩ := hsound
  obtain ⟨htopic, hrest⟩ := List.forall_mem_cons.mp htodo
  refine { hi with subscriber := ⟨fun address haddress => ?_, hrest⟩ }
  rcases List.mem_append.mp haddress with hold | hnew
  · exact htargets address hold
  · rcases hi.directory.resolves hsearch (htopics topic htopic) with herror | ⟨i, hname, hi'⟩
    · rw [herror] at hok
      cases hok
    · obtain ⟨rfl, rfl⟩ := Prod.mk.inj (Except.ok.inj (hi'.symm.trans hok))
      rw [List.mem_singleton.mp hnew]
      exact ⟨i, rfl, hname ▸ htopic⟩

/-- At the moment of joining nothing counts yet. -/
theorem since_join {i : ι} (hnew : s.joined i = none) (j : ι) :
    System.since { s with joined := Function.update s.joined i (some (s.cont i)) } j
      = s.since j := by
  unfold System.since
  by_cases hji : j = i
  · subst hji
    simp only [hnew, Function.update_self, Nat.sub_self, List.range'_zero]
  · simp only [Function.update_of_ne hji]

theorem System.Inv.join (hi : s.Inv unicode publishers argument)
    (haddresses : Function.Injective fun i => (publishers i).address) {i : ι}
    {targets : List (List Char)} (hsubscriber : s.subscriber = .listening targets)
    (htarget : (publishers i).address ∈ targets) (hnew : s.joined i = none) :
    System.Inv unicode publishers argument
      { s with joined := Function.update s.joined i (some (s.cont i)) } := by
  have hsound := hi.subscriber
  rw [hsubscriber] at hsound
  obtain ⟨j, haddress, htopic⟩ := hsound _ htarget
  obtain rfl : i = j := haddresses haddress
  refine { hi with joined := ?joined, heard := ?heard }
  case joined =>
    intro l k hl
    have hl : Function.update s.joined i (some (s.cont i)) l = some k := hl
    by_cases hli : l = i
    · rw [hli, Function.update_self] at hl
      obtain rfl := Option.some.inj hl
      rw [hli]
      exact ⟨htopic, Nat.le_refl _⟩
    · rw [Function.update_of_ne hli] at hl
      exact hi.joined l k hl
  case heard =>
    intro l
    rw [since_join hnew]
    exact hi.heard l

/-! ### Runs -/

variable [Fintype ι] {act : SystemAct ι}

theorem inv_stepSystem (hi : s.Inv unicode publishers argument) (hsearch : FindsPlain search)
    (hplain : ∀ i, PlainName ((publishers i).call unicode).nombre)
    (htopics : ∀ topic ∈ topics unicode argument, PlainName topic)
    (haddresses : Function.Injective fun i => (publishers i).address)
    (h : stepSystem unicode search publishers argument s act = some s') :
    s'.Inv unicode publishers argument := by
  cases act with
  | register i =>
      obtain rfl := Option.some.inj h
      exact { hi with directory := written_step hi.directory i }
  | bind i =>
      rw [stepSystem] at h
      split at h
      · obtain rfl := Option.some.inj h
        exact { hi with }
      · cases h
  | send i time payload kept =>
      rw [stepSystem] at h
      split at h
      · obtain rfl := Option.some.inj h
        exact hi.sent hplain i time payload kept
      · cases h
  | resolve =>
      rw [stepSystem] at h
      split at h
      · rename_i targets hsubscriber
        obtain rfl := Option.some.inj h
        have hsound := hi.subscriber
        rw [hsubscriber] at hsound
        exact { hi with subscriber := hsound.1 }
      · rename_i targets topic todo hsubscriber
        have hsound := hi.subscriber
        rw [hsubscriber] at hsound
        have htopic : PlainName topic := htopics topic (hsound.2 topic List.mem_cons_self)
        split at h
        · rename_i ip puerto hok
          obtain rfl := Option.some.inj h
          exact hi.resolve hsearch htopics hsubscriber hok
        · rename_i error herror
          obtain rfl := Option.some.inj h
          refine { hi with subscriber := ?_ }
          rcases hi.directory.resolves hsearch htopic with hlookup | ⟨j, -, hj⟩
          · exact (Except.error.inj (hlookup.symm.trans herror)).symm
          · rw [hj] at herror
            cases herror
      · cases h
  | join i =>
      rw [stepSystem] at h
      split at h
      · rename_i targets hsubscriber
        split at h
        · rename_i hif
          obtain rfl := Option.some.inj h
          exact hi.join haddresses hsubscriber (List.contains_iff_mem.mp hif.2.1) hif.2.2
        · cases h
      · cases h

/-- Where the step drops no message, all that counts is heard. -/
theorem heard_stepSystem (hi : s.Inv unicode publishers argument)
    (hplain : ∀ i, PlainName ((publishers i).call unicode).nombre)
    (hkept : ∀ i time payload, act ≠ .send i time payload false)
    (hheard : ∀ j, s.heard j = s.since j)
    (h : stepSystem unicode search publishers argument s act = some s') (j : ι) :
    s'.heard j = s'.since j := by
  cases act with
  | register i =>
      obtain rfl := Option.some.inj h
      exact hheard j
  | bind i =>
      rw [stepSystem] at h
      split at h
      · obtain rfl := Option.some.inj h
        exact hheard j
      · cases h
  | send i time payload kept =>
      have hall : kept = true := by
        cases kept with
        | false => exact absurd rfl (hkept i time payload)
        | true => rfl
      rw [stepSystem] at h
      split at h
      · obtain rfl := Option.some.inj h
        have hsame : (i = j ∧ s.Hears i kept) = (i = j ∧ (s.joined i).isSome = true) := by
          rw [System.Hears, hall, eq_self_iff_true, and_true]
        simp only [heard_sent hi hplain, since_sent hi, hheard j, hsame]
      · cases h
  | resolve =>
      rw [stepSystem] at h
      split at h
      · obtain rfl := Option.some.inj h
        exact hheard j
      · split at h <;> obtain rfl := Option.some.inj h <;> exact hheard j
      · cases h
  | join i =>
      rw [stepSystem] at h
      split at h
      · split at h
        · rename_i hif
          obtain rfl := Option.some.inj h
          rw [since_join hif.2.2]
          exact hheard j
        · cases h
      · cases h

end Steps

/-! ## A service whose name begins with a topic -/

/-- A server that knows no special characters. -/
def plainSearch : Search := fun directory name => some (directory name).toList

/-- The services `NEWS` and `NEWSX`. -/
def newsPublishers (i : Fin 2) : Publisher where
  argument := (if i.val = 0 then "news" else "newsx").toList
  ip := "10.0.0.1".toList
  puerto := 15001 + i.val

def newsArgument : List Char := "news".toList

/-- Both register, bind and send, and the subscriber joins the first, whose third message is
dropped. -/
def newsActs (i j : Fin 2) (time : StructTime) : List (SystemAct (Fin 2)) :=
  [.register j, .register i, .bind i, .bind j, .resolve, .send i time [] true, .resolve, .join i,
    .send j time [] true, .send i time [] true, .send i time [] false]

end Registry
