import DistWorkshops.Location.TreePath

/-!
# When a move is all or nothing

`move_entity` checks where the entity comes from, and nothing else: the `pop` raises before anything
is written, but `register` takes any name for the new domain. A name outside the tree has no
parent, so no pointer is written and the entity is lost. A name inside the tree gets its pointers,
and leaves find the entity there unless it is at the root, which no pointer leads to.
-/

set_option autoImplicit false

namespace Location

open ParentMap Relation

/-- The move raises and changes nothing, or the entity is then found from every leaf. -/
def Service.AllOrNothing (h : Hierarchy) (fuel : ℕ) (service : Service) (move : Move) : Prop :=
  ∃ service' result, moveEntity h.parentOf fuel service move = some (service', result) ∧
    ((∃ e, result = .error e) ∧ service' = service ∨
      result = .ok () ∧
        ∃ address, service.entities.getIn move.oldDomain move.entity = some address ∧
          ∀ leaf, h.Leaf leaf → service'.Finds h fuel move.entity leaf address)

section Move

variable {h : Hierarchy} {fuel : ℕ} {service : Service} {move : Move}

theorem moveEntity_raises (hget : service.entities.getIn move.oldDomain move.entity = none) :
    moveEntity h.parentOf fuel service move = some (service, .error .keyError) := by
  simp only [moveEntity, hget]

/-- **A move that returns**: where the entity is stored then, and that the pointers are tracked
again. -/
theorem moveEntity_returns (hfuel : h.names.length ≤ fuel) (htracked : service.Tracked h)
    {address : String} (hget : service.entities.getIn move.oldDomain move.entity = some address) :
    ∃ service', moveEntity h.parentOf fuel service move = some (service', .ok ()) ∧
      service'.Tracked h ∧ service'.entities = (service.entities.eraseIn move.oldDomain
        move.entity).setIn move.newDomain move.entity address := by
  obtain ⟨service', result, hmove, htracked'⟩ := htracked.moveEntity hfuel move
  obtain ⟨pointers₁, hun, -, -⟩ :=
    unregister_total h hfuel service.pointers move.entity move.oldDomain
  obtain ⟨pointers₂, hreg, -, -⟩ := register_total h hfuel pointers₁ move.entity move.newDomain
  have hdone := hmove
  simp only [moveEntity, hget, hun, hreg, Option.bind_eq_bind, Option.bind_some] at hdone
  obtain ⟨rfl, rfl⟩ := Prod.mk.inj (Option.some.inj hdone)
  exact ⟨_, hmove, htracked', rfl⟩

/-- After the move of an entity that was stored in one domain it is stored in the new one only. -/
theorem storedAt_moved {service' : Service} {address : String} (hone : service.InOneLeaf h)
    (hget : service.entities.getIn move.oldDomain move.entity = some address)
    (hentities : service'.entities = (service.entities.eraseIn move.oldDomain
      move.entity).setIn move.newDomain move.entity address) (e d : String) :
    service'.StoredAt e d ↔ (e = move.entity ∧ d = move.newDomain) ∨
      (e ≠ move.entity ∧ service.StoredAt e d) := by
  have hmoved : service'.StoredAt e d ↔ (e = move.entity ∧ d = move.newDomain) ∨
      (service.StoredAt e d ∧ ¬ (e = move.entity ∧ d = move.oldDomain)) := by
    unfold Service.StoredAt
    rw [hentities]
    exact @storedAt_move _ _ _ service.pointers e d
  have hold : service.StoredAt e d ∧ ¬ (e = move.entity ∧ d = move.oldDomain) ↔
      e ≠ move.entity ∧ service.StoredAt e d := by
    constructor
    · rintro ⟨hd, hnot⟩
      refine ⟨?_, hd⟩
      rintro rfl
      exact hnot ⟨rfl, ((hone _ d hd).2 move.oldDomain ⟨address, hget⟩).symm⟩
    · rintro ⟨hne, hd⟩
      exact ⟨hd, fun he => hne he.1⟩
  exact hmoved.trans (or_congr_right hold)

/-- Each entity is stored in one domain of the tree again, if the new domain is there. -/
theorem storedOnce_moved {service' : Service} (hone : service.InOneLeaf h)
    (hnew : move.newDomain ∈ h.names)
    (hstored : ∀ e d, service'.StoredAt e d ↔ (e = move.entity ∧ d = move.newDomain) ∨
      (e ≠ move.entity ∧ service.StoredAt e d)) : service'.StoredOnce h := by
  intro e d hd
  rcases (hstored e d).mp hd with ⟨rfl, rfl⟩ | ⟨hne, hd'⟩
  · refine ⟨hnew, fun d' hd' => ?_⟩
    rcases (hstored _ d').mp hd' with ⟨-, hd'⟩ | ⟨hne, -⟩
    · exact hd'
    · exact absurd rfl hne
  · refine ⟨(hone e d hd').1.1, fun x hx => ?_⟩
    rcases (hstored e x).mp hx with ⟨he, -⟩ | ⟨-, hx'⟩
    · exact absurd he hne
    · exact (hone e d hd').2 x hx'

/-- For a move that returns, what is left is where the entity is found. -/
theorem allOrNothing_iff_found {service' : Service} {address : String}
    (hget : service.entities.getIn move.oldDomain move.entity = some address)
    (hmove : moveEntity h.parentOf fuel service move = some (service', .ok ())) :
    service.AllOrNothing h fuel move ↔
      ∀ leaf, h.Leaf leaf → service'.Finds h fuel move.entity leaf address := by
  constructor
  · rintro ⟨service'', result, hmove', ⟨⟨e, rfl⟩, -⟩ | ⟨-, address', hget', hall⟩⟩
    · rw [hmove] at hmove'
      cases hmove'
    · rw [hmove] at hmove'
      cases hmove'
      obtain rfl := Option.some.inj (hget.symm.trans hget')
      exact hall
  · intro hall
    exact ⟨service', .ok (), hmove, Or.inr ⟨rfl, address, hget, hall⟩⟩

end Move

/-! ## Where the entity is found -/

section Found

variable {h : Hierarchy} {fuel : ℕ} {service : Service} {e d address : String}

/-- An entity in a domain of the tree, looked up from the leaves. -/
theorem Represents.found_from_leaves_iff {directory : Directory}
    (hrep : Represents h directory service) (hdir : directory e = some (d, address))
    (hfuel : h.names.length ≤ fuel) {leaf₀ : String} (hleaf₀ : h.Leaf leaf₀) :
    (∀ leaf, h.Leaf leaf → service.Finds h fuel e leaf address) ↔
      (d = "ROOT" → h.Leaf "ROOT") := by
  constructor
  · rintro hall rfl
    by_cases hroot : leaf₀ = "ROOT"
    · rw [← hroot]
      exact hleaf₀
    · obtain ⟨path, hmiss⟩ := hrep.misses hdir hleaf₀.1 hfuel hroot (Or.inr rfl)
      obtain ⟨path', hfound⟩ := hall leaf₀ hleaf₀
      rw [hmiss] at hfound
      cases hfound
  · intro hcond leaf hleaf
    have hmem : d ∈ h.names := hrep.stores.inTree d e address hdir
    apply hrep.finds hdir hleaf.1 hfuel
    by_cases hsame : leaf = d
    · exact Or.inl hsame
    · right
      refine ⟨hleaf.ne_root hmem hsame, ?_⟩
      intro hroot
      -- a root that is a leaf is the only domain
      have habove := (hcond hroot).eq_of_above (h.reach_of_mem hleaf.1)
      exact hsame (habove.symm.trans hroot.symm)

/-- An entity outside the tree is not found from inside. -/
theorem Service.Tracked.lost (htracked : service.Tracked h) (hfuel : h.names.length ≤ fuel)
    (hout : d ∉ h.names) (honly : ∀ x, service.StoredAt e x ↔ x = d) {start : String}
    (hstart : start ∈ h.names) : ¬ service.Finds h fuel e start address := by
  have htop : h.parent d = none := by
    apply Option.eq_none_iff_forall_ne_some.mpr
    intro p hup
    exact hout ((h.parent_eq_some_iff p d).mp hup).mem_names.2
  have hnone : ∀ a, service.pointers.getIn a e = none := by
    intro a
    apply Option.eq_none_iff_forall_ne_some.mpr
    intro c hget
    obtain ⟨x, hx, hon⟩ := (htracked e).sound a c hget
    obtain rfl := (honly x).mp hx
    exact not_onPath_of_top htop hon
  have hlocal : service.entities.getIn start e = none := by
    apply Option.eq_none_iff_forall_ne_some.mpr
    intro address' hget
    exact hout ((honly start).mp ⟨address', hget⟩ ▸ hstart)
  obtain ⟨ls, hchain, hlen⟩ := h.exists_chain hstart
  have hrun := climb_misses fuel hchain hstart (fun a _ => hnone a)
    (Nat.lt_of_lt_of_le hlen hfuel) [start]
  rintro ⟨path, hfound⟩
  rw [lookup_climbs hlocal, hrun] at hfound
  cases hfound

end Found

/-- **When a move is all or nothing.** In every state of a run in which each entity is stored in
one leaf, a move raises and changes nothing, or the entity is found from every leaf, exactly when
the entity is not at the old domain, or the new domain is in the tree and is not a root with
domains below it. -/
theorem moveEntity_allOrNothing_iff (h : Hierarchy) (entities : Entities) (moves : List Move)
    (fuel : ℕ) (hfuel : h.names.length ≤ fuel) (service : Service)
    (hrun : run h.parentOf fuel entities moves = some service) (hone : service.InOneLeaf h)
    (move : Move) :
    service.AllOrNothing h fuel move ↔
      service.entities.getIn move.oldDomain move.entity = none ∨
        (move.newDomain ∈ h.names ∧ (move.newDomain = "ROOT" → h.Leaf "ROOT")) := by
  obtain ⟨service₀, hrun₀, htracked⟩ := run_tracked h hfuel entities moves
  obtain rfl := Option.some.inj (hrun.symm.trans hrun₀)
  cases hget : service.entities.getIn move.oldDomain move.entity with
  | none =>
      refine iff_of_true ?_ (Or.inl rfl)
      exact ⟨service, .error .keyError, moveEntity_raises hget, Or.inl ⟨⟨_, rfl⟩, rfl⟩⟩
  | some address =>
      obtain ⟨service', hmove, htracked', hentities⟩ := moveEntity_returns hfuel htracked hget
      have hstored := storedAt_moved hone hget hentities
      have hold : h.Leaf move.oldDomain := (hone _ _ ⟨address, hget⟩).1
      have hnone : ¬ (some address : Option String) = none := nofun
      rw [allOrNothing_iff_found hget hmove, or_iff_right hnone]
      by_cases hnew : move.newDomain ∈ h.names
      · have hrep := htracked'.represents (storedOnce_moved hone hnew hstored)
        have hplace : service'.entities.getIn move.newDomain move.entity = some address := by
          rw [hentities, Dict.getIn_setIn, if_pos ⟨rfl, rfl⟩]
        have hdir := (hrep.stores.stored _ _ _).mp hplace
        rw [hrep.found_from_leaves_iff hdir hfuel hold]
        exact (and_iff_right hnew).symm
      · refine iff_of_false ?_ fun hcond => hnew hcond.1
        intro hall
        refine htracked'.lost hfuel hnew (fun x => ?_) hold.1 (hall move.oldDomain hold)
        rw [hstored]
        simp

theorem moveEntity_allOrNothing_iff_workshop :
    run workshop.parentOf 7 workshopEntities.entities
        [Move.mk "server01" "IBARRA" "ROOT", Move.mk "server01" "ROOT" "EUROPE"]
      = some movedService ∧
    (movedService.AllOrNothing workshop 7 ⟨"server01", "EUROPE", "USA"⟩ ↔
      movedService.entities.getIn "EUROPE" "server01" = none ∨
        ("USA" ∈ workshop.names ∧ ("USA" = "ROOT" → workshop.Leaf "ROOT"))) :=
  ⟨rfl, moveEntity_allOrNothing_iff workshop workshopEntities.entities
    [Move.mk "server01" "IBARRA" "ROOT", Move.mk "server01" "ROOT" "EUROPE"] 7 (by decide)
    movedService rfl movedService_inOneLeaf ⟨"server01", "EUROPE", "USA"⟩⟩

/-- `move_entity("server01", "EUROPE", "MARS")` returns, and no leaf finds the entity any more. -/
theorem moveEntity_loses :
    run workshop.parentOf 7 workshopEntities.entities
        [Move.mk "server01" "IBARRA" "ROOT", Move.mk "server01" "ROOT" "EUROPE"]
      = some movedService ∧
    movedService.InOneLeaf workshop ∧
    ¬ movedService.AllOrNothing workshop 7 ⟨"server01", "EUROPE", "MARS"⟩ := by
  refine ⟨rfl, movedService_inOneLeaf, ?_⟩
  have hleaf : workshop.Leaf "QUITO" := Hierarchy.leaf_of_parent_ne (by decide) (by decide)
  rintro ⟨service', result, hmove, ⟨⟨e, rfl⟩, -⟩ | ⟨-, address, -, hall⟩⟩
  · cases hmove
  · obtain ⟨path, hfound⟩ := hall "QUITO" hleaf
    cases hmove
    cases hfound

end Location
