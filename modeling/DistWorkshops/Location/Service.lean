import DistWorkshops.Location.Domains
import DistWorkshops.Lib.Loop
import DistWorkshops.Python

/-!
# The hierarchical location service

The functions of `hls_moved.py` and `hls_original.py` over a parent map. The module's
dictionaries `entities` (domain, entity, address) and `pointers` (domain, entity, child domain to
follow) are the state. Each `while` loop is a `Loop` over the variables it changes; `none` means
that its fuel was used up.
-/

set_option autoImplicit false

namespace Location

abbrev Entities := Dict String (Dict String String)

abbrev Pointers := Dict String (Dict String String)

structure Service where
  entities : Entities
  pointers : Pointers

/-! ## Registration -/

section Registration

variable (parentOf : ParentOf) (fuel : ℕ)

def registerStep (entity : String) : Pointers × String → Loop.Step (Pointers × String) Pointers
  | (pointers, current) =>
      match parentOf.parent current with
      | some parent => .again (pointers.setIn parent entity current, parent)
      | none => .done pointers

def register (pointers : Pointers) (entity domain : String) : Option Pointers :=
  Loop.run (registerStep parentOf entity) fuel (pointers, domain)

def unregisterStep (entity : String) : Pointers × String → Loop.Step (Pointers × String) Pointers
  | (pointers, current) =>
      match parentOf.parent current with
      | some parent =>
          let pointers :=
            if pointers.getIn parent entity = some current then pointers.eraseIn parent entity
            else pointers
          .again (pointers, parent)
      | none => .done pointers

def unregister (pointers : Pointers) (entity domain : String) : Option Pointers :=
  Loop.run (unregisterStep parentOf entity) fuel (pointers, domain)

/-- The loops of the module that register every entity of `entities`, from no pointers. -/
def registerAll (entities : Entities) : Option Pointers :=
  entities.entries.foldlM (fun pointers item =>
    item.2.entries.foldlM (fun pointers entry => register parentOf fuel pointers entry.1 item.1)
      pointers) Dict.empty

end Registration

/-! ## Moves -/

structure Move where
  entity : String
  oldDomain : String
  newDomain : String

/-- The new state, and whether the call returned or raised. The `pop` raises `KeyError` when the
old domain is not a key or does not hold the entity, before anything is written. -/
def moveEntity (parentOf : ParentOf) (fuel : ℕ) (service : Service) (move : Move) :
    Option (Service × Except PyError Unit) :=
  match service.entities.getIn move.oldDomain move.entity with
  | none => some (service, .error .keyError)
  | some address => do
      let entities := service.entities.eraseIn move.oldDomain move.entity
      let pointers ← unregister parentOf fuel service.pointers move.entity move.oldDomain
      let entities := entities.setIn move.newDomain move.entity address
      let pointers ← register parentOf fuel pointers move.entity move.newDomain
      some (⟨entities, pointers⟩, .ok ())

/-- The registration of the initial entities, then the moves one after the other; a caller goes
on after a `KeyError`. -/
def run (parentOf : ParentOf) (fuel : ℕ) (entities : Entities) (moves : List Move) :
    Option Service := do
  let pointers ← registerAll parentOf fuel entities
  moves.foldlM (fun service move => (moveEntity parentOf fuel service move).map Prod.fst)
    ⟨entities, pointers⟩

/-! ## Lookup -/

section Lookup

variable (parentOf : ParentOf) (fuel : ℕ) (service : Service) (entity : String)

/-- One pass of the inner loop of `lookup`, on the path so far and the current domain. -/
def followStep : List String × String → Loop.Step (List String × String) (List String × String)
  | (path, current) =>
      match service.pointers.getIn current entity with
      | some child => .again (path ++ [child], child)
      | none => .done (path, current)

/-- The address, or `None`, and the path. -/
abbrev Answer := Except PyError (Option String × List String)

/-- One pass of the outer loop of `lookup`; `done none` passes on that the inner loop ran out of
fuel. -/
def climbStep : List String × String → Loop.Step (List String × String) (Option Answer)
  | (path, current) =>
      if current = "ROOT" then .done (some (.ok (none, path)))
      else
        match parentOf.get? current with
        -- a domain with the entry `None` becomes the key `None`, which the next pass misses
        | none | some none => .done (some (.error .keyError))
        | some (some parent) =>
            match service.pointers.getIn parent entity with
            | none => .again (path ++ [parent], parent)
            | some _ =>
                match Loop.run (followStep service entity) fuel (path ++ [parent], parent) with
                | none => .done none
                | some (path, current) =>
                    match service.entities.getIn current entity with
                    | some address => .done (some (.ok (some address, path ++ [entity])))
                    | none => .again (path, current)

def lookup (startingDomain : String) : Option Answer :=
  match service.entities.getIn startingDomain entity with
  | some address => some (.ok (some address, [startingDomain, entity]))
  | none =>
      (Loop.run (climbStep parentOf fuel service entity) fuel
        ([startingDomain], startingDomain)).join

end Lookup

/-! ## Placements -/

/-- A content of `entities` in which each entity is stored in exactly one domain of the tree. -/
structure Placement (h : Hierarchy) where
  entities : Entities
  inTree : ∀ d e address, entities.getIn d e = some address → d ∈ h.names
  single : ∀ d d' e address address', entities.getIn d e = some address →
    entities.getIn d' e = some address' → d = d'

/-! ## The data of the module -/

def workshop : Hierarchy where
  tree := .node
    [("AMERICA", .node
      [("ECUADOR", .node [("IBARRA", .node []), ("QUITO", .node [])]), ("USA", .node [])]),
      ("EUROPE", .node [])]
  distinct := by decide

def workshopEntities : Placement workshop where
  entities := ⟨[("IBARRA", ⟨[("server01", "10.0.1.20")], by decide⟩),
    ("QUITO", ⟨[("server02", "10.0.2.30")], by decide⟩)], by decide⟩
  inTree := by
    intro d e address hget
    obtain ⟨inner, hitem, -⟩ := (Dict.getIn_eq_some_iff _ _ _ _).mp hget
    simp only [List.mem_cons, Prod.mk.injEq, List.not_mem_nil, or_false] at hitem
    rcases hitem with ⟨rfl, -⟩ | ⟨rfl, -⟩ <;> decide
  single := by
    intro d d' e address address' hget hget'
    obtain ⟨inner, hitem, hentry⟩ := (Dict.getIn_eq_some_iff _ _ _ _).mp hget
    obtain ⟨inner', hitem', hentry'⟩ := (Dict.getIn_eq_some_iff _ _ _ _).mp hget'
    simp only [List.mem_cons, Prod.mk.injEq, List.not_mem_nil, or_false] at hitem hitem'
    rcases hitem with ⟨rfl, rfl⟩ | ⟨rfl, rfl⟩ <;> rcases hitem' with ⟨rfl, rfl⟩ | ⟨rfl, rfl⟩ <;>
      simp_all

end Location
