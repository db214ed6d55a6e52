import DistWorkshops.Location.Service

/-!
# The pointers of the location service are exact

The purpose of the service is a `Directory`: where each entity is stored, and at which address.
A state represents a directory when `entities` has its entries and `pointers` has, for each
entity, exactly the path from the root down to its domain. `register` adds such a path and
`unregister` removes it, so a move of the service is a move of the directory, and the
maintained pointers are those that a registration from scratch makes.
-/

set_option autoImplicit false

namespace Location

open ParentMap

/-- For each entity, its domain and its address. -/
abbrev Directory := String → Option (String × String)

/-- A move changes the domain of an entity that is where the move says; any other move raises
and changes nothing. -/
def Directory.move (directory : Directory) (move : Move) : Directory :=
  match directory move.entity with
  | none => directory
  | some (domain, address) =>
      if domain = move.oldDomain then
        Function.update directory move.entity (some (move.newDomain, address))
      else directory

/-- The entries of `entities` are those of the directory, all in the tree. -/
structure Stores (h : Hierarchy) (directory : Directory) (entities : Entities) : Prop where
  stored : ∀ d e address, entities.getIn d e = some address ↔ directory e = some (d, address)
  inTree : ∀ d e address, directory e = some (d, address) → d ∈ h.names

/-- The pointers for each entity are the path down to its domain. -/
def PointsTo (h : Hierarchy) (directory : Directory) (pointers : Pointers) : Prop :=
  ∀ a e c, pointers.getIn a e = some c ↔
    ∃ d address, directory e = some (d, address) ∧ OnPath h.parent d a c

structure Represents (h : Hierarchy) (directory : Directory) (service : Service) : Prop where
  stores : Stores h directory service.entities
  pointsTo : PointsTo h directory service.pointers

/-! ## One path -/

section Path

variable {h : Hierarchy} {d : String} {l : List String}

/-- **`register`** points down the path to the domain at every ancestor of it. -/
theorem register_spec (hchain : Chain h.parent d l) {fuel : ℕ} (hfuel : l.length < fuel)
    (pointers : Pointers) (entity : String) :
    ∃ pointers', register h.parentOf fuel pointers entity d = some pointers' ∧
      ∀ a e c, pointers'.getIn a e = some c ↔
        (e = entity ∧ OnPath h.parent d a c) ∨
          (pointers.getIn a e = some c ∧ ¬ (e = entity ∧ Ancestor h.parent a d)) := by
  induction hchain generalizing fuel pointers with
  | @top d htop =>
      obtain ⟨fuel, rfl⟩ : ∃ k, fuel = k + 1 := ⟨fuel - 1, by omega⟩
      have hstep : registerStep h.parentOf entity (pointers, d) = .done pointers := by
        have hparent : h.parentOf.parent d = none := htop
        simp only [registerStep, hparent]
      refine ⟨pointers, Loop.run_done fuel hstep, ?_⟩
      intro a e c
      have hno : ¬ Ancestor h.parent a d := fun ha => by
        obtain ⟨c, hc⟩ := exists_onPath_iff.mpr ha
        exact not_onPath_of_top htop hc
      simp only [hno, and_false, not_false_eq_true, and_true, not_onPath_of_top htop, false_or]
  | @up d p l hup rest ih =>
      obtain ⟨fuel, rfl⟩ : ∃ k, fuel = k + 1 := ⟨fuel - 1, by omega⟩
      have hstep : registerStep h.parentOf entity (pointers, d)
          = .again (pointers.setIn p entity d, p) := by
        have hparent : h.parentOf.parent d = some p := hup
        simp only [registerStep, hparent]
      have hlt : l.length < fuel := Nat.lt_of_succ_lt_succ hfuel
      obtain ⟨pointers', hrun, hspec⟩ := ih hlt (pointers.setIn p entity d)
      refine ⟨pointers', (Loop.run_again fuel hstep).trans hrun, ?_⟩
      intro a e c
      -- the ancestors of `d` are its parent and the ancestors of that
      have hanc : Ancestor h.parent a d ↔ a = p ∨ Ancestor h.parent a p := by
        rw [← (Chain.up hup rest).mem_iff, ← rest.mem_iff, List.mem_cons]
      rw [hspec a e c, Dict.getIn_setIn, onPath_up hup, hanc]
      by_cases he : e = entity
      · by_cases ha : a = p
        · -- the pointer written in this pass, which no later pass overwrites
          subst ha
          have hself : ¬ OnPath h.parent a a c := rest.not_onPath_self
          have hself' : ¬ Ancestor h.parent a a := fun hanc =>
            rest.not_mem (rest.mem_iff.mpr hanc)
          simp only [he, hself, hself', and_self, if_true, or_false, and_false,
            not_false_eq_true, and_true, false_or, true_and, Option.some.injEq, not_true_eq_false]
          exact eq_comm
        · simp only [ha, he, false_and, if_false, false_or, true_and]
      · simp only [he, and_false, if_false, false_and, false_or]

/-- One pass removes the pointer at the parent if it leads to the domain below, and no other. -/
theorem getIn_erase_if (pointers : Pointers) (p d entity a e c : String) :
    (if pointers.getIn p entity = some d then pointers.eraseIn p entity
        else pointers).getIn a e = some c ↔
      pointers.getIn a e = some c ∧ ¬ (e = entity ∧ a = p ∧ c = d) := by
  by_cases hd : pointers.getIn p entity = some d
  · rw [if_pos hd, Dict.getIn_eraseIn]
    by_cases hae : a = p ∧ e = entity
    · obtain ⟨rfl, rfl⟩ := hae
      simp only [and_self, if_true, true_and, hd, Option.some.injEq, reduceCtorEq, false_iff]
      rintro ⟨rfl, hne⟩
      exact hne rfl
    · rw [if_neg hae]
      simp only [iff_self_and]
      rintro - ⟨he, ha, -⟩
      exact hae ⟨ha, he⟩
  · rw [if_neg hd]
    simp only [iff_self_and]
    rintro hget ⟨rfl, rfl, rfl⟩
    exact hd hget

/-- **`unregister`** removes exactly the pointers down the path to the domain. -/
theorem unregister_spec (hchain : Chain h.parent d l) {fuel : ℕ} (hfuel : l.length < fuel)
    (pointers : Pointers) (entity : String) :
    ∃ pointers', unregister h.parentOf fuel pointers entity d = some pointers' ∧
      ∀ a e c, pointers'.getIn a e = some c ↔
        pointers.getIn a e = some c ∧ ¬ (e = entity ∧ OnPath h.parent d a c) := by
  induction hchain generalizing fuel pointers with
  | @top d htop =>
      obtain ⟨fuel, rfl⟩ : ∃ k, fuel = k + 1 := ⟨fuel - 1, by omega⟩
      have hstep : unregisterStep h.parentOf entity (pointers, d) = .done pointers := by
        have hparent : h.parentOf.parent d = none := htop
        simp only [unregisterStep, hparent]
      refine ⟨pointers, Loop.run_done fuel hstep, ?_⟩
      intro a e c
      simp only [not_onPath_of_top htop, and_false, not_false_eq_true, and_true]
  | @up d p l hup rest ih =>
      obtain ⟨fuel, rfl⟩ : ∃ k, fuel = k + 1 := ⟨fuel - 1, by omega⟩
      have hstep : unregisterStep h.parentOf entity (pointers, d)
          = .again (if pointers.getIn p entity = some d then pointers.eraseIn p entity
              else pointers, p) := by
        have hparent : h.parentOf.parent d = some p := hup
        simp only [unregisterStep, hparent]
      have hlt : l.length < fuel := Nat.lt_of_succ_lt_succ hfuel
      obtain ⟨pointers', hrun, hspec⟩ := ih hlt
        (if pointers.getIn p entity = some d then pointers.eraseIn p entity else pointers)
      refine ⟨pointers', (Loop.run_again fuel hstep).trans hrun, ?_⟩
      intro a e c
      rw [hspec a e c, onPath_up hup]
      rw [getIn_erase_if]
      constructor
      · rintro ⟨⟨hget, hnot⟩, hnot'⟩
        refine ⟨hget, ?_⟩
        rintro ⟨he, (⟨ha, hc⟩ | hon)⟩
        · exact hnot ⟨he, ha, hc⟩
        · exact hnot' ⟨he, hon⟩
      · rintro ⟨hget, hnot⟩
        exact ⟨⟨hget, fun ⟨he, ha, hc⟩ => hnot ⟨he, Or.inl ⟨ha, hc⟩⟩⟩,
          fun ⟨he, hon⟩ => hnot ⟨he, Or.inr hon⟩⟩

end Path

/-! ## Registration from scratch -/

/-- The pairs of an entity and its domain, in the order of the loops that register them. -/
def registrations (entities : Entities) : List (String × String) :=
  entities.entries.flatMap fun item => item.2.entries.map fun entry => (entry.1, item.1)

theorem mem_registrations (entities : Entities) (e d : String) :
    (e, d) ∈ registrations entities ↔ ∃ address, entities.getIn d e = some address := by
  simp only [registrations, List.mem_flatMap, List.mem_map, Prod.mk.injEq, Dict.getIn_eq_some_iff]
  constructor
  · rintro ⟨⟨d', inner⟩, hitem, ⟨e', address⟩, hentry, rfl, rfl⟩
    exact ⟨address, inner, hitem, hentry⟩
  · rintro ⟨address, inner, hitem, hentry⟩
    exact ⟨(d, inner), hitem, (e, address), hentry, rfl, rfl⟩

theorem registerAll_eq (parentOf : ParentOf) (fuel : ℕ) (entities : Entities) :
    registerAll parentOf fuel entities = (registrations entities).foldlM
      (fun pointers pair => register parentOf fuel pointers pair.1 pair.2) Dict.empty := by
  have hloop : ∀ (items : List (String × Dict String String)) (pointers : Pointers),
      items.foldlM (fun pointers item => item.2.entries.foldlM
          (fun pointers entry => register parentOf fuel pointers entry.1 item.1) pointers) pointers
        = (items.flatMap fun item => item.2.entries.map fun entry => (entry.1, item.1)).foldlM
          (fun pointers pair => register parentOf fuel pointers pair.1 pair.2) pointers := by
    intro items
    induction items with
    | nil => intro pointers; rfl
    | cons item rest ih =>
        intro pointers
        rw [List.foldlM_cons, List.flatMap_cons, List.foldlM_append, List.foldlM_map]
        exact bind_congr fun pointers' => ih pointers'
  exact hloop entities.entries Dict.empty

/-- The pointers for the registered pairs `done` are their paths, and there are no others. -/
def PointsToAll (h : Hierarchy) (done : List (String × String)) (pointers : Pointers) : Prop :=
  ∀ a e c, pointers.getIn a e = some c ↔ ∃ d, (e, d) ∈ done ∧ OnPath h.parent d a c

theorem Stores.mem_registrations_iff {h : Hierarchy} {directory : Directory}
    {entities : Entities} (hstores : Stores h directory entities) (e d : String) :
    (e, d) ∈ registrations entities ↔ ∃ address, directory e = some (d, address) := by
  rw [mem_registrations]
  exact exists_congr fun address => hstores.stored d e address

theorem Stores.register_pass {h : Hierarchy} {directory : Directory} {entities : Entities}
    (hstores : Stores h directory entities) {fuel : ℕ} (hfuel : h.names.length ≤ fuel)
    (done : List (String × String)) (pair : String × String) (pointers : Pointers)
    (hpre : done ++ [pair] <+: registrations entities) (hinv : PointsToAll h done pointers) :
    ∃ pointers', register h.parentOf fuel pointers pair.1 pair.2 = some pointers' ∧
      PointsToAll h (done ++ [pair]) pointers' := by
  obtain ⟨entity, domain⟩ := pair
  have hnow : (entity, domain) ∈ registrations entities := hpre.subset (by simp)
  obtain ⟨address, hdir⟩ := (hstores.mem_registrations_iff entity domain).mp hnow
  obtain ⟨l, hchain, hlen⟩ := h.exists_chain (hstores.inTree _ _ _ hdir)
  obtain ⟨pointers', hreg, hspec⟩ :=
    register_spec hchain (Nat.lt_of_lt_of_le hlen hfuel) pointers entity
  refine ⟨pointers', hreg, ?_⟩
  intro a e c
  rw [hspec a e c, hinv a e c]
  constructor
  · rintro (⟨rfl, hon⟩ | ⟨⟨d, hmem, hon⟩, -⟩)
    · exact ⟨domain, by simp, hon⟩
    · exact ⟨d, List.mem_append_left _ hmem, hon⟩
  · rintro ⟨d, hmem, hon⟩
    rcases List.mem_append.mp hmem with hold | hlast
    · by_cases he : e = entity
      · -- the same entity cannot have been registered at another domain
        subst he
        have hin : (e, d) ∈ registrations entities := hpre.subset (List.mem_append_left _ hold)
        obtain ⟨address', hdir'⟩ := (hstores.mem_registrations_iff e d).mp hin
        rw [hdir] at hdir'
        cases hdir'
        exact Or.inl ⟨rfl, hon⟩
      · exact Or.inr ⟨⟨d, hold, hon⟩, fun hboth => he hboth.1⟩
    · rw [List.mem_singleton] at hlast
      cases hlast
      exact Or.inl ⟨rfl, hon⟩

/-- **Registration from scratch** makes the pointers of what is stored. -/
theorem Stores.registerAll_spec {h : Hierarchy} {directory : Directory} {entities : Entities}
    (hstores : Stores h directory entities) {fuel : ℕ} (hfuel : h.names.length ≤ fuel) :
    ∃ pointers, registerAll h.parentOf fuel entities = some pointers ∧
      PointsTo h directory pointers := by
  have hnone : PointsToAll h [] Dict.empty := by
    intro a e c
    simp
  obtain ⟨pointers, hrun, hinv⟩ :=
    Loop.for_total (PointsToAll h) (hstores.register_pass hfuel) hnone
  refine ⟨pointers, (registerAll_eq _ _ _).trans hrun, ?_⟩
  intro a e c
  rw [hinv a e c]
  constructor
  · rintro ⟨d, hmem, hon⟩
    obtain ⟨address, hdir⟩ := (hstores.mem_registrations_iff e d).mp hmem
    exact ⟨d, address, hdir, hon⟩
  · rintro ⟨d, address, hdir, hon⟩
    exact ⟨d, (hstores.mem_registrations_iff e d).mpr ⟨address, hdir⟩, hon⟩

/-! ## Moves refine moves of the directory -/

theorem Stores.move {h : Hierarchy} {directory : Directory} {entities : Entities}
    (hstores : Stores h directory entities) {move : Move} {address : String}
    (hold : directory move.entity = some (move.oldDomain, address))
    (hnew : move.newDomain ∈ h.names) :
    Stores h (Function.update directory move.entity (some (move.newDomain, address)))
      ((entities.eraseIn move.oldDomain move.entity).setIn move.newDomain move.entity
        address) := by
  refine ⟨?_, ?_⟩
  · intro d e address'
    rw [Dict.getIn_setIn, Dict.getIn_eraseIn]
    by_cases he : e = move.entity
    · subst he
      rw [Function.update_self]
      by_cases hd : d = move.newDomain
      · simp [hd]
      · rw [if_neg (fun hboth => hd hboth.1)]
        have hnot : some (move.newDomain, address) ≠ some (d, address') := fun heq =>
          hd (congrArg Prod.fst (Option.some.inj heq)).symm
        simp only [hnot, iff_false]
        by_cases hd' : d = move.oldDomain
        · simp [hd']
        · -- the entity was stored at the old domain only
          rw [if_neg (fun hboth => hd' hboth.1), hstores.stored, hold]
          intro heq
          exact hd' (congrArg Prod.fst (Option.some.inj heq)).symm
    · rw [Function.update_of_ne he, if_neg (fun hboth => he hboth.2),
        if_neg (fun hboth => he hboth.2), hstores.stored]
  · intro d e address' hdir
    by_cases he : e = move.entity
    · subst he
      rw [Function.update_self] at hdir
      cases hdir
      exact hnew
    · rw [Function.update_of_ne he] at hdir
      exact hstores.inTree d e address' hdir

theorem PointsTo.move {h : Hierarchy} {directory : Directory} {pointers pointers' : Pointers}
    (hpoints : PointsTo h directory pointers) {move : Move} {address : String}
    (hold : directory move.entity = some (move.oldDomain, address))
    (hspec : ∀ a e c, pointers'.getIn a e = some c ↔
      (e = move.entity ∧ OnPath h.parent move.newDomain a c) ∨
        ((pointers.getIn a e = some c ∧
            ¬ (e = move.entity ∧ OnPath h.parent move.oldDomain a c)) ∧
          ¬ (e = move.entity ∧ Ancestor h.parent a move.newDomain))) :
    PointsTo h (Function.update directory move.entity (some (move.newDomain, address)))
      pointers' := by
  intro a e c
  rw [hspec a e c, hpoints a e c]
  by_cases he : e = move.entity
  · subst he
    rw [Function.update_self, hold]
    constructor
    · rintro (⟨-, hon⟩ | ⟨⟨⟨d, address', hdir, hon⟩, hnot⟩, -⟩)
      · exact ⟨move.newDomain, address, rfl, hon⟩
      · -- every old pointer for the entity was on the old path
        cases hdir
        exact absurd ⟨rfl, hon⟩ hnot
    · rintro ⟨d, address', hdir, hon⟩
      cases hdir
      exact Or.inl ⟨rfl, hon⟩
  · rw [Function.update_of_ne he]
    simp only [he, false_and, not_false_eq_true, and_true, false_or]

/-- **A move of the service is a move of the directory.** -/
theorem Represents.moveEntity {h : Hierarchy} {directory : Directory} {service : Service}
    (hrep : Represents h directory service) {move : Move} (hnew : move.newDomain ∈ h.names)
    {fuel : ℕ} (hfuel : h.names.length ≤ fuel) :
    ∃ service' result, moveEntity h.parentOf fuel service move = some (service', result) ∧
      Represents h (directory.move move) service' := by
  cases hget : service.entities.getIn move.oldDomain move.entity with
  | none =>
      -- the `KeyError`: the directory does not have the entity at the old domain either
      have hsame : directory.move move = directory := by
        unfold Directory.move
        cases hdir : directory move.entity with
        | none => rfl
        | some place =>
            obtain ⟨domain, address⟩ := place
            have hne : domain ≠ move.oldDomain := by
              rintro rfl
              rw [(hrep.stores.stored _ _ _).mpr hdir] at hget
              cases hget
            simp only [if_neg hne]
      refine ⟨service, .error .keyError, ?_, ?_⟩
      · simp only [Location.moveEntity, hget]
      · rw [hsame]
        exact hrep
  | some address =>
      have hold : directory move.entity = some (move.oldDomain, address) :=
        (hrep.stores.stored _ _ _).mp hget
      have hmove : directory.move move =
          Function.update directory move.entity (some (move.newDomain, address)) := by
        simp only [Directory.move, hold, if_true]
      obtain ⟨l, hchain, hlen⟩ := h.exists_chain (hrep.stores.inTree _ _ _ hold)
      obtain ⟨pointers₁, hun, hspec₁⟩ := unregister_spec hchain
        (Nat.lt_of_lt_of_le hlen hfuel) service.pointers move.entity
      obtain ⟨l', hchain', hlen'⟩ := h.exists_chain hnew
      obtain ⟨pointers₂, hreg, hspec₂⟩ := register_spec hchain'
        (Nat.lt_of_lt_of_le hlen' hfuel) pointers₁ move.entity
      refine ⟨⟨(service.entities.eraseIn move.oldDomain move.entity).setIn move.newDomain
        move.entity address, pointers₂⟩, .ok (), ?_, ?_⟩
      · simp only [Location.moveEntity, hget, hun, hreg, Option.bind_eq_bind, Option.bind_some]
      · rw [hmove]
        refine ⟨hrep.stores.move hold hnew, hrep.pointsTo.move hold ?_⟩
        intro a e c
        rw [hspec₂, hspec₁]

/-! ## Runs -/

/-- The directory that a placement describes. -/
def Entities.directory (entities : Entities) : Directory := fun e =>
  entities.entries.findSome? fun item =>
    (item.2.get? e).map fun address => (item.1, address)

theorem Placement.stores {h : Hierarchy} (placement : Placement h) :
    Stores h placement.entities.directory placement.entities := by
  have hsome : ∀ d e address, placement.entities.directory e = some (d, address) →
      placement.entities.getIn d e = some address := by
    intro d e address hdir
    obtain ⟨item, hitem, hfound⟩ := List.exists_of_findSome?_eq_some hdir
    obtain ⟨address', haddress, heq⟩ := Option.map_eq_some_iff.mp hfound
    cases heq
    exact (Dict.getIn_eq_some_iff _ _ _ _).mpr
      ⟨item.2, hitem, (Dict.get?_eq_some_iff _ _ _).mp haddress⟩
  refine ⟨?_, fun d e address hdir => placement.inTree d e address (hsome d e address hdir)⟩
  intro d e address
  refine ⟨?_, hsome d e address⟩
  intro hget
  cases hdir : placement.entities.directory e with
  | none =>
      obtain ⟨inner, hitem, hentry⟩ := (Dict.getIn_eq_some_iff _ _ _ _).mp hget
      have hnone := List.findSome?_eq_none_iff.mp hdir (d, inner) hitem
      rw [(Dict.get?_eq_some_iff _ _ _).mpr hentry] at hnone
      cases hnone
  | some place =>
      obtain ⟨d', address'⟩ := place
      have hget' := hsome d' e address' hdir
      have hd : d = d' := placement.single d d' e address address' hget hget'
      subst hd
      rw [hget] at hget'
      cases hget'
      rfl

theorem moveEntity_run {h : Hierarchy} {directory : Directory} {fuel : ℕ}
    (hfuel : h.names.length ≤ fuel) {moves : List Move}
    (hmoves : ∀ move ∈ moves, move.newDomain ∈ h.names) {service : Service}
    (hrep : Represents h directory service) :
    ∃ service', moves.foldlM
        (fun service move => (moveEntity h.parentOf fuel service move).map Prod.fst) service
        = some service' ∧
      Represents h (moves.foldl Directory.move directory) service' := by
  refine Loop.for_total
    (fun done service => Represents h (done.foldl Directory.move directory) service) ?_ hrep
  intro done move service hpre hdone
  obtain ⟨service', result, hmove, hrep'⟩ :=
    hdone.moveEntity (hmoves move (hpre.subset (by simp))) hfuel
  refine ⟨service', by rw [hmove]; rfl, ?_⟩
  rw [List.foldl_append]
  exact hrep'

/-- **The service refines the directory**: a run ends, in a state that represents the directory
after the same moves. -/
theorem run_represents {h : Hierarchy} (placement : Placement h) {moves : List Move}
    (hmoves : ∀ move ∈ moves, move.newDomain ∈ h.names) {fuel : ℕ}
    (hfuel : h.names.length ≤ fuel) :
    ∃ service, run h.parentOf fuel placement.entities moves = some service ∧
      Represents h (moves.foldl Directory.move placement.entities.directory) service := by
  obtain ⟨pointers, hreg, hpoints⟩ := placement.stores.registerAll_spec hfuel
  have hstart : Represents h placement.entities.directory ⟨placement.entities, pointers⟩ :=
    ⟨placement.stores, hpoints⟩
  obtain ⟨service, hrun, hrep⟩ := moveEntity_run hfuel hmoves hstart
  refine ⟨service, ?_, hrep⟩
  rw [run, hreg]
  exact hrun

theorem Directory.move_address (directory : Directory) (move : Move) (e : String) :
    (directory.move move e).map Prod.snd = (directory e).map Prod.snd := by
  unfold Directory.move
  cases hdir : directory move.entity with
  | none => rfl
  | some place =>
      obtain ⟨domain, address⟩ := place
      by_cases hd : domain = move.oldDomain
      · by_cases he : e = move.entity
        · subst he
          simp only [if_pos hd, Function.update_self, hdir, Option.map_some]
        · simp only [if_pos hd, Function.update_of_ne he]
      · simp only [if_neg hd]

/-- Moves change no address. -/
theorem Directory.moves_address (directory : Directory) (moves : List Move) (e : String) :
    (moves.foldl Directory.move directory e).map Prod.snd = (directory e).map Prod.snd := by
  induction moves generalizing directory with
  | nil => rfl
  | cons move moves ih => rw [List.foldl_cons, ih, Directory.move_address]

/-! ## Every reachable state -/

/-- Each entity is stored in exactly one domain of the tree, under its original address, and
nothing else is stored. -/
def KeepsEntities (h : Hierarchy) (initial final : Entities) : Prop :=
  (∀ e d address, initial.getIn d e = some address → ∃ d' ∈ h.names,
      ∀ x address', final.getIn x e = some address' ↔ x = d' ∧ address' = address) ∧
    ∀ e, (∀ d, initial.getIn d e = none) → ∀ d, final.getIn d e = none

def Service.StoredAt (service : Service) (e d : String) : Prop :=
  ∃ address, service.entities.getIn d e = some address

/-- A domain has an entry for an entity exactly when it lies strictly above the domain that
stores it, and the entry is the child on the path down. -/
def Service.PointersExact (h : Hierarchy) (service : Service) : Prop :=
  ∀ a e, ((∃ c, service.pointers.getIn a e = some c) ↔
      ∃ d, service.StoredAt e d ∧ h.StrictAncestor a d) ∧
    ∀ c d, service.pointers.getIn a e = some c → service.StoredAt e d → h.ChildOnPath a d c

/-- A registration of what is stored, from no pointers, makes the same pointers. -/
def Service.Rebuilt (h : Hierarchy) (fuel : ℕ) (service : Service) : Prop :=
  ∃ rebuilt, registerAll h.parentOf fuel service.entities = some rebuilt ∧
    ∀ a e, rebuilt.getIn a e = service.pointers.getIn a e

section Represented

variable {h : Hierarchy} {directory : Directory} {service : Service}

theorem Represents.storedAt_iff (hrep : Represents h directory service) (e d : String) :
    service.StoredAt e d ↔ ∃ address, directory e = some (d, address) :=
  exists_congr fun address => hrep.stores.stored d e address

theorem Represents.pointersExact (hrep : Represents h directory service) :
    service.PointersExact h := by
  intro a e
  constructor
  · constructor
    · rintro ⟨c, hc⟩
      obtain ⟨d, address, hdir, hon⟩ := (hrep.pointsTo a e c).mp hc
      exact ⟨d, (hrep.storedAt_iff e d).mpr ⟨address, hdir⟩,
        (h.ancestor_iff a d).mp hon.ancestor⟩
    · rintro ⟨d, hstored, hanc⟩
      obtain ⟨address, hdir⟩ := (hrep.storedAt_iff e d).mp hstored
      obtain ⟨c, hon⟩ := exists_onPath_iff.mpr ((h.ancestor_iff a d).mpr hanc)
      exact ⟨c, (hrep.pointsTo a e c).mpr ⟨d, address, hdir, hon⟩⟩
  · intro c d hc hstored
    obtain ⟨address, hdir⟩ := (hrep.storedAt_iff e d).mp hstored
    obtain ⟨d', address', hdir', hon⟩ := (hrep.pointsTo a e c).mp hc
    rw [hdir] at hdir'
    cases hdir'
    exact (h.onPath_iff d a c).mp hon

theorem Represents.rebuilt (hrep : Represents h directory service) {fuel : ℕ}
    (hfuel : h.names.length ≤ fuel) : service.Rebuilt h fuel := by
  obtain ⟨rebuilt, hreg, hpoints⟩ := hrep.stores.registerAll_spec hfuel
  refine ⟨rebuilt, hreg, ?_⟩
  intro a e
  apply Option.ext
  intro c
  rw [hpoints a e c, hrep.pointsTo a e c]

theorem Represents.keepsEntities {initial : Directory} {entities : Entities}
    (hinit : Stores h initial entities) (hrep : Represents h directory service)
    (haddress : ∀ e, (directory e).map Prod.snd = (initial e).map Prod.snd) :
    KeepsEntities h entities service.entities := by
  constructor
  · intro e d address hget
    have hkept := haddress e
    rw [(hinit.stored d e address).mp hget, Option.map_some] at hkept
    obtain ⟨⟨d', address'⟩, hdir, rfl⟩ := Option.map_eq_some_iff.mp hkept
    refine ⟨d', hrep.stores.inTree d' e address' hdir, ?_⟩
    intro x address''
    rw [hrep.stores.stored, hdir, Option.some.injEq, Prod.mk.injEq]
    exact and_congr eq_comm eq_comm
  · intro e hnone d
    cases hget : service.entities.getIn d e with
    | none => rfl
    | some address =>
        have hkept := haddress e
        rw [(hrep.stores.stored d e address).mp hget, Option.map_some] at hkept
        obtain ⟨⟨d', address'⟩, hdir, -⟩ := Option.map_eq_some_iff.mp hkept.symm
        rw [← hinit.stored, hnone d'] at hdir
        cases hdir

end Represented

/-- **The pointers are exact in every reachable state.** From any placement of the entities in a
tree with distinct names, after any moves to domains of the tree: every entity is stored in
exactly one domain under its original address, the pointers are exactly the paths down to the
entities, and they are those of a registration from scratch. -/
theorem pointers_exact (h : Hierarchy) (placement : Placement h) (moves : List Move)
    (hmoves : ∀ move ∈ moves, move.newDomain ∈ h.names) (fuel : ℕ)
    (hfuel : h.names.length ≤ fuel) :
    ∃ service, run h.parentOf fuel placement.entities moves = some service ∧
      KeepsEntities h placement.entities service.entities ∧
      service.PointersExact h ∧ service.Rebuilt h fuel := by
  obtain ⟨service, hrun, hrep⟩ := run_represents placement hmoves hfuel
  refine ⟨service, hrun, ?_, hrep.pointersExact, hrep.rebuilt hfuel⟩
  exact hrep.keepsEntities placement.stores fun e => Directory.moves_address _ moves e

theorem pointers_exact_workshop :
    (∀ move ∈ [Move.mk "server01" "IBARRA" "QUITO", Move.mk "server02" "USA" "ROOT",
        Move.mk "server02" "QUITO" "AMERICA"], move.newDomain ∈ workshop.names) ∧
      ∃ service, run workshop.parentOf 7 workshopEntities.entities
          [Move.mk "server01" "IBARRA" "QUITO", Move.mk "server02" "USA" "ROOT",
            Move.mk "server02" "QUITO" "AMERICA"] = some service ∧
        KeepsEntities workshop workshopEntities.entities service.entities ∧
        service.PointersExact workshop ∧ service.Rebuilt workshop 7 :=
  ⟨by decide, pointers_exact workshop workshopEntities _ (by decide) 7 (by decide)⟩

end Location
