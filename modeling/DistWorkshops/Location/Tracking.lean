import DistWorkshops.Location.Pointers
import Mathlib.Data.Set.Insert

/-!
# Pointers after arbitrary registrations and moves

Nothing here keeps an entity in one domain: the initial `entities` may store it in several, moves
may go to any name and onto another copy. Then the pointers are not exact, but they stay
`Tracked`: each pointer lies on the path down to some copy, and the path to one of the copies, the
last one registered, is there in full. So where only one copy is left, the pointers are exactly
the path to it, and the state represents a directory again (`Tracked.represents`).
-/

set_option autoImplicit false

namespace Location

open ParentMap

/-- The pointers for one entity, a map from a domain to the next one, track a set of places. -/
structure Tracks (h : Hierarchy) (places : Set String) (pointer : String → Option String) :
    Prop where
  sound : ∀ a c, pointer a = some c → ∃ d ∈ places, OnPath h.parent d a c
  complete : places.Nonempty → ∃ d ∈ places, ∀ a c, OnPath h.parent d a c → pointer a = some c

/-- The pointers of every entity track the domains that store it. -/
def Service.Tracked (h : Hierarchy) (service : Service) : Prop :=
  ∀ e, Tracks h {d | service.StoredAt e d} fun a => service.pointers.getIn a e

/-! ## One entity -/

section Entity

variable {h : Hierarchy} {places : Set String} {pointer pointer' : String → Option String}

/-- `unregister` of a domain leaves no pointer that only this domain accounts for. -/
theorem sound_unregister (hsound : ∀ a c, pointer a = some c → ∃ d ∈ places, OnPath h.parent d a c)
    {domain : String} (hspec : ∀ a c, pointer' a = some c ↔
      pointer a = some c ∧ ¬ OnPath h.parent domain a c) (a c : String)
    (hget : pointer' a = some c) : ∃ d ∈ places \ {domain}, OnPath h.parent d a c := by
  obtain ⟨hold, hnot⟩ := (hspec a c).mp hget
  obtain ⟨d, hd, hon⟩ := hsound a c hold
  refine ⟨d, ⟨hd, ?_⟩, hon⟩
  rintro rfl
  exact hnot hon

/-- **After `register` of a domain** the pointers track the places and this domain. -/
theorem tracks_register (hsound : ∀ a c, pointer a = some c → ∃ d ∈ places, OnPath h.parent d a c)
    {domain : String} (hspec : ∀ a c, pointer' a = some c ↔ OnPath h.parent domain a c ∨
      (pointer a = some c ∧ ¬ Ancestor h.parent a domain)) :
    Tracks h (insert domain places) pointer' := by
  constructor
  · intro a c hget
    rcases (hspec a c).mp hget with hon | ⟨hold, -⟩
    · exact ⟨domain, Set.mem_insert domain places, hon⟩
    · obtain ⟨d, hd, hon⟩ := hsound a c hold
      exact ⟨d, Set.mem_insert_of_mem domain hd, hon⟩
  · intro _
    refine ⟨domain, Set.mem_insert domain places, ?_⟩
    intro a c hon
    exact (hspec a c).mpr (Or.inl hon)

/-- With one place the pointers are the path to it. -/
theorem Tracks.of_singleton {d : String} (htracks : Tracks h places pointer)
    (hd : d ∈ places) (hsingle : ∀ x ∈ places, x = d) (a c : String) :
    pointer a = some c ↔ OnPath h.parent d a c := by
  constructor
  · intro hget
    obtain ⟨x, hx, hon⟩ := htracks.sound a c hget
    rw [hsingle x hx] at hon
    exact hon
  · intro hon
    obtain ⟨x, hx, hfull⟩ := htracks.complete ⟨d, hd⟩
    rw [hsingle x hx] at hfull
    exact hfull a c hon

end Entity

/-! ## Registration -/

theorem register_total (h : Hierarchy) {fuel : ℕ} (hfuel : h.names.length ≤ fuel)
    (pointers : Pointers) (entity d : String) :
    ∃ pointers', register h.parentOf fuel pointers entity d = some pointers' ∧
      (∀ a c, pointers'.getIn a entity = some c ↔ OnPath h.parent d a c ∨
        (pointers.getIn a entity = some c ∧ ¬ Ancestor h.parent a d)) ∧
      ∀ a e, e ≠ entity → pointers'.getIn a e = pointers.getIn a e := by
  obtain ⟨l, hchain⟩ := h.chain_total d
  obtain ⟨pointers', hrun, hspec⟩ := register_spec hchain
    (Nat.lt_of_lt_of_le (h.chain_length_lt hchain) hfuel) pointers entity
  refine ⟨pointers', hrun, ?_, ?_⟩
  · intro a c
    rw [hspec a entity c]
    simp only [true_and]
  · intro a e he
    apply Option.ext
    intro c
    rw [hspec a e c]
    simp only [he, false_and, false_or, not_false_eq_true, and_true]

theorem unregister_total (h : Hierarchy) {fuel : ℕ} (hfuel : h.names.length ≤ fuel)
    (pointers : Pointers) (entity d : String) :
    ∃ pointers', unregister h.parentOf fuel pointers entity d = some pointers' ∧
      (∀ a c, pointers'.getIn a entity = some c ↔
        pointers.getIn a entity = some c ∧ ¬ OnPath h.parent d a c) ∧
      ∀ a e, e ≠ entity → pointers'.getIn a e = pointers.getIn a e := by
  obtain ⟨l, hchain⟩ := h.chain_total d
  obtain ⟨pointers', hrun, hspec⟩ := unregister_spec hchain
    (Nat.lt_of_lt_of_le (h.chain_length_lt hchain) hfuel) pointers entity
  refine ⟨pointers', hrun, ?_, ?_⟩
  · intro a c
    rw [hspec a entity c]
    simp only [true_and]
  · intro a e he
    apply Option.ext
    intro c
    rw [hspec a e c]
    simp only [he, false_and, not_false_eq_true, and_true]

/-- The pointers for the registered pairs `done` track their domains. -/
def TracksPairs (h : Hierarchy) (done : List (String × String)) (pointers : Pointers) : Prop :=
  ∀ e, Tracks h {d | (e, d) ∈ done} fun a => pointers.getIn a e

theorem register_tracks {h : Hierarchy} {fuel : ℕ} (hfuel : h.names.length ≤ fuel)
    (done : List (String × String)) (pair : String × String) (pointers : Pointers)
    (hinv : TracksPairs h done pointers) :
    ∃ pointers', register h.parentOf fuel pointers pair.1 pair.2 = some pointers' ∧
      TracksPairs h (done ++ [pair]) pointers' := by
  obtain ⟨entity, domain⟩ := pair
  obtain ⟨pointers', hrun, hspec, hframe⟩ := register_total h hfuel pointers entity domain
  refine ⟨pointers', hrun, ?_⟩
  intro e
  by_cases he : e = entity
  · subst he
    have hplaces : {d | (e, d) ∈ done ++ [(e, domain)]} = insert domain {d | (e, d) ∈ done} := by
      ext d
      simp [or_comm]
    rw [hplaces]
    exact tracks_register (hinv e).sound hspec
  · have hplaces : {d | (e, d) ∈ done ++ [(entity, domain)]} = {d | (e, d) ∈ done} := by
      ext d
      simp [he]
    rw [hplaces]
    simp only [hframe _ e he]
    exact hinv e

/-- **The initial registration** of any content of `entities`. -/
theorem registerAll_tracked (h : Hierarchy) {fuel : ℕ} (hfuel : h.names.length ≤ fuel)
    (entities : Entities) :
    ∃ pointers, registerAll h.parentOf fuel entities = some pointers ∧
      Service.Tracked h ⟨entities, pointers⟩ := by
  have hempty : TracksPairs h [] Dict.empty := by
    intro e
    constructor
    · intro a c hget
      cases hget
    · rintro ⟨d, hd⟩
      cases hd
  obtain ⟨pointers, hrun, hinv⟩ := Loop.for_total (TracksPairs h)
    (fun done pair pointers _ => register_tracks hfuel done pair pointers) hempty
  refine ⟨pointers, (registerAll_eq _ _ entities).trans hrun, ?_⟩
  intro e
  have hplaces : {d | (e, d) ∈ registrations entities}
      = {d | Service.StoredAt ⟨entities, pointers⟩ e d} := by
    ext d
    exact mem_registrations entities e d
  rw [← hplaces]
  exact hinv e

/-! ## Moves -/

theorem storedAt_move {entities : Entities} {move : Move} {address : String} {pointers : Pointers}
    (e d : String) :
    Service.StoredAt ⟨(entities.eraseIn move.oldDomain move.entity).setIn move.newDomain
        move.entity address, pointers⟩ e d ↔
      (e = move.entity ∧ d = move.newDomain) ∨
        (Service.StoredAt ⟨entities, pointers⟩ e d ∧
          ¬ (e = move.entity ∧ d = move.oldDomain)) := by
  unfold Service.StoredAt
  simp only [Dict.getIn_setIn, Dict.getIn_eraseIn]
  by_cases hnew : d = move.newDomain ∧ e = move.entity
  · rw [if_pos hnew]
    exact iff_of_true ⟨address, rfl⟩ (Or.inl hnew.symm)
  · rw [if_neg hnew, or_iff_right fun h => hnew h.symm]
    by_cases hold : d = move.oldDomain ∧ e = move.entity
    · rw [if_pos hold]
      refine iff_of_false ?_ fun h => h.2 hold.symm
      rintro ⟨address', haddress⟩
      cases haddress
    · rw [if_neg hold, and_iff_left fun h => hold h.symm]

/-- **A move**, of anything to anywhere, keeps the pointers tracked. -/
theorem Service.Tracked.moveEntity {h : Hierarchy} {fuel : ℕ} (hfuel : h.names.length ≤ fuel)
    {service : Service} (htracked : service.Tracked h) (move : Move) :
    ∃ service' result, moveEntity h.parentOf fuel service move = some (service', result) ∧
      service'.Tracked h := by
  cases hget : service.entities.getIn move.oldDomain move.entity with
  | none => exact ⟨service, .error .keyError, by simp only [Location.moveEntity, hget], htracked⟩
  | some address =>
      obtain ⟨pointers₁, hun, hspec₁, hframe₁⟩ :=
        unregister_total h hfuel service.pointers move.entity move.oldDomain
      obtain ⟨pointers₂, hreg, hspec₂, hframe₂⟩ :=
        register_total h hfuel pointers₁ move.entity move.newDomain
      refine ⟨⟨(service.entities.eraseIn move.oldDomain move.entity).setIn move.newDomain
        move.entity address, pointers₂⟩, .ok (), ?_, ?_⟩
      · simp only [Location.moveEntity, hget, hun, hreg, Option.bind_eq_bind, Option.bind_some]
      · intro e
        by_cases he : e = move.entity
        · subst he
          have hplaces : {d | Service.StoredAt ⟨(service.entities.eraseIn move.oldDomain
                move.entity).setIn move.newDomain move.entity address, pointers₂⟩ move.entity d}
              = insert move.newDomain
                ({d | service.StoredAt move.entity d} \ {move.oldDomain}) := by
            ext d
            simp only [Set.mem_ofPred_eq, storedAt_move, true_and, Set.mem_insert_iff,
              Set.mem_sdiff, Set.mem_singleton_iff]
            exact Iff.rfl
          rw [hplaces]
          exact tracks_register
            (sound_unregister (htracked move.entity).sound hspec₁) hspec₂
        · have hplaces : {d | Service.StoredAt ⟨(service.entities.eraseIn move.oldDomain
                move.entity).setIn move.newDomain move.entity address, pointers₂⟩ e d}
              = {d | service.StoredAt e d} := by
            ext d
            simp only [Set.mem_ofPred_eq, storedAt_move, he, false_and, false_or,
              not_false_eq_true, and_true]
            exact Iff.rfl
          rw [hplaces]
          simp only [hframe₂ _ e he, hframe₁ _ e he]
          exact htracked e

/-- **Every run**, from any content of `entities` and through any moves, ends with tracked
pointers. -/
theorem run_tracked (h : Hierarchy) {fuel : ℕ} (hfuel : h.names.length ≤ fuel)
    (entities : Entities) (moves : List Move) :
    ∃ service, run h.parentOf fuel entities moves = some service ∧ service.Tracked h := by
  obtain ⟨pointers, hreg, hstart⟩ := registerAll_tracked h hfuel entities
  have hmoves : ∃ service, moves.foldlM
      (fun service move => (moveEntity h.parentOf fuel service move).map Prod.fst)
      ⟨entities, pointers⟩ = some service ∧ service.Tracked h := by
    refine Loop.for_total (fun _ service => Service.Tracked h service) ?_ hstart
    intro done move service _ hinv
    obtain ⟨service', result, hmove, hinv'⟩ := hinv.moveEntity hfuel move
    exact ⟨service', by rw [hmove]; rfl, hinv'⟩
  obtain ⟨service, hrun, htracked⟩ := hmoves
  refine ⟨service, ?_, htracked⟩
  rw [run, hreg]
  exact hrun

/-! ## States with one copy of each entity -/

/-- Every entity is stored in one domain of the tree at most. -/
def Service.StoredOnce (h : Hierarchy) (service : Service) : Prop :=
  ∀ e d, service.StoredAt e d → d ∈ h.names ∧ ∀ d', service.StoredAt e d' → d' = d

/-- **A tracked state in which every entity is stored once represents a directory.** -/
theorem Service.Tracked.represents {h : Hierarchy} {service : Service}
    (htracked : service.Tracked h) (honce : service.StoredOnce h) :
    Represents h service.entities.directory service := by
  have hstores : Stores h service.entities.directory service.entities := by
    refine Placement.stores ⟨service.entities, ?_, ?_⟩
    · intro d e address hget
      exact (honce e d ⟨address, hget⟩).1
    · intro d d' e address address' hget hget'
      exact (honce e d' ⟨address', hget'⟩).2 d ⟨address, hget⟩
  refine ⟨hstores, ?_⟩
  intro a e c
  constructor
  · intro hget
    obtain ⟨d, ⟨address, haddress⟩, hon⟩ := (htracked e).sound a c hget
    exact ⟨d, address, (hstores.stored d e address).mp haddress, hon⟩
  · rintro ⟨d, address, hdir, hon⟩
    have hd : service.StoredAt e d := ⟨address, (hstores.stored d e address).mpr hdir⟩
    exact ((htracked e).of_singleton hd (fun x hx => (honce e d hd).2 x hx) a c).mpr hon

end Location
