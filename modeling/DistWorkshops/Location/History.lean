import DistWorkshops.Location.Lookup

/-!
# The state of the service has no history

The pointers of an entity follow from where it is, so two runs that put every entity into the same
domain under the same address leave the same entries and pointers, and every lookup takes the same
path after them (`history_independent`). Moving an entity away and back, or over any detour, is
moving it at once.
-/

set_option autoImplicit false

namespace Location

variable {h : Hierarchy} {directory : Directory} {service service' : Service}

/-- The two states have the same entries and pointers. Dictionaries that are left empty do not
count. -/
structure Service.Same (service service' : Service) : Prop where
  entities : ∀ d e, service.entities.getIn d e = service'.entities.getIn d e
  pointers : ∀ a e, service.pointers.getIn a e = service'.pointers.getIn a e

theorem Represents.same (hrep : Represents h directory service)
    (hrep' : Represents h directory service') : service.Same service' where
  entities d e := by
    apply Option.ext
    intro address
    rw [hrep.stores.stored d e address, hrep'.stores.stored d e address]
  pointers a e := by
    apply Option.ext
    intro c
    rw [hrep.pointsTo a e c, hrep'.pointsTo a e c]

/-- A lookup reads the state through its entries and pointers only. -/
theorem Service.Same.lookup_eq (hsame : service.Same service') (parentOf : ParentOf) (fuel : ℕ)
    (e start : String) : lookup parentOf fuel service e start
      = lookup parentOf fuel service' e start := by
  have hfollow : followStep service e = followStep service' e := by
    funext s
    simp only [followStep, hsame.pointers]
  have hclimb : climbStep parentOf fuel service e = climbStep parentOf fuel service' e := by
    funext s
    simp only [climbStep, hsame.pointers, hsame.entities, hfollow]
  simp only [lookup, hsame.entities, hclimb]

/-- The states represent one directory only if they are the same. -/
theorem Represents.directory_eq {directory' : Directory} (hrep : Represents h directory service)
    (hrep' : Represents h directory' service') (hsame : service.Same service') :
    directory = directory' := by
  funext e
  apply Option.ext
  rintro ⟨d, address⟩
  rw [← hrep.stores.stored d e address, ← hrep'.stores.stored d e address, hsame.entities]

theorem Directory.move_here {e d d' address : String} (hdir : directory e = some (d, address)) :
    directory.move ⟨e, d, d'⟩ = Function.update directory e (some (d', address)) := by
  simp only [Directory.move, hdir, if_true]

theorem Directory.move_elsewhere {move : Move}
    (hdir : ∀ address, directory move.entity ≠ some (move.oldDomain, address)) :
    directory.move move = directory := by
  unfold Directory.move
  cases hplace : directory move.entity with
  | none => rfl
  | some place =>
      obtain ⟨d, address⟩ := place
      have hd : d ≠ move.oldDomain := by
        rintro rfl
        exact hdir address hplace
      simp only [if_neg hd]

/-- A detour is the direct move. -/
theorem Directory.move_detour {e d address : String} (hdir : directory e = some (d, address))
    (via d' : String) :
    (directory.move ⟨e, d, via⟩).move ⟨e, via, d'⟩ = directory.move ⟨e, d, d'⟩ := by
  rw [Directory.move_here hdir, Directory.move_here hdir,
    Directory.move_here (Function.update_self e _ directory), Function.update_idem]

/-- **The state has no history.** Take any two runs of the module's functions over one tree, from
any placements and with any moves to domains of the tree, the ones that raise included. Their final
states have the same entries and pointers exactly if the moves leave the same directory, that is
every entity in the same domain under the same address; and then every lookup from every domain
gives the same answer along the same path. -/
theorem history_independent (h : Hierarchy) (placement placement' : Placement h)
    (moves moves' : List Move) (hmoves : ∀ move ∈ moves, move.newDomain ∈ h.names)
    (hmoves' : ∀ move ∈ moves', move.newDomain ∈ h.names) (fuel : ℕ)
    (hfuel : h.names.length ≤ fuel) :
    ∃ service service', run h.parentOf fuel placement.entities moves = some service ∧
      run h.parentOf fuel placement'.entities moves' = some service' ∧
      (service.Same service' ↔ moves.foldl Directory.move placement.entities.directory
        = moves'.foldl Directory.move placement'.entities.directory) ∧
      (service.Same service' → ∀ e start, lookup h.parentOf fuel service e start
        = lookup h.parentOf fuel service' e start) := by
  obtain ⟨service, hrun, hrep⟩ := run_represents placement hmoves hfuel
  obtain ⟨service', hrun', hrep'⟩ := run_represents placement' hmoves' hfuel
  refine ⟨service, service', hrun, hrun', ⟨fun hsame => ?_, fun hdirectory => ?_⟩,
    fun hsame => hsame.lookup_eq h.parentOf fuel⟩
  · exact hrep.directory_eq hrep' hsame
  · exact hrep.same (hdirectory ▸ hrep')

/-- A detour over `USA`, and a move that raises. -/
def detour : List Move :=
  [Move.mk "server01" "IBARRA" "USA", Move.mk "server01" "USA" "QUITO",
    Move.mk "server02" "USA" "ROOT"]

def direct : List Move := [Move.mk "server01" "IBARRA" "QUITO"]

theorem history_independent_workshop :
    ∃ service service', run workshop.parentOf 7 workshopEntities.entities detour = some service ∧
      run workshop.parentOf 7 workshopEntities.entities direct = some service' ∧
      service.Same service' ∧ ∀ e start, lookup workshop.parentOf 7 service e start
        = lookup workshop.parentOf 7 service' e start := by
  obtain ⟨service, service', hrun, hrun', hsame, hlookup⟩ := history_independent workshop
    workshopEntities workshopEntities detour direct (by decide) (by decide) 7 (by decide)
  have hdirectory : detour.foldl Directory.move workshopEntities.entities.directory
      = direct.foldl Directory.move workshopEntities.entities.directory := by
    have hone : workshopEntities.entities.directory "server01" = some ("IBARRA", "10.0.1.20") := rfl
    have htwo : workshopEntities.entities.directory "server02" = some ("QUITO", "10.0.2.30") := rfl
    simp only [detour, direct, List.foldl_cons, List.foldl_nil, Directory.move_detour hone]
    refine Directory.move_elsewhere fun address h => ?_
    rw [Directory.move_here hone, Function.update_of_ne (by decide), htwo] at h
    have hdomain : "QUITO" = "USA" := congrArg Prod.fst (Option.some.inj h)
    exact absurd hdomain (by decide)
  exact ⟨service, service', hrun, hrun', hsame.mpr hdirectory, hlookup (hsame.mpr hdirectory)⟩

end Location
