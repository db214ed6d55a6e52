import DistWorkshops.Location.Pointers

/-!
# From where a stored entity is found

A lookup that does not find the entity at its starting domain climbs before it reads any
pointer, and after the climb it looks for the entity only where pointers lead. So it never reads
the pointers of a start at the root, and it never finds an entity that the root itself stores.
These are the only lookups of a stored entity that fail (`lookup_finds_iff`).
-/

set_option autoImplicit false

namespace Location

open ParentMap Relation

/-- The lookup ends and returns the address. -/
def Service.Finds (h : Hierarchy) (fuel : ℕ) (service : Service) (e start address : String) :
    Prop :=
  ∃ path, lookup h.parentOf fuel service e start = some (.ok (some address, path))

/-- Every stored entity is found from every domain of the tree. -/
def Service.FoundFromEverywhere (h : Hierarchy) (fuel : ℕ) (service : Service) : Prop :=
  ∀ e d address start, service.entities.getIn d e = some address → start ∈ h.names →
    service.Finds h fuel e start address

theorem Hierarchy.eq_root_of_top (h : Hierarchy) {d : String} (hd : d ∈ h.names)
    (htop : h.parent d = none) : d = "ROOT" := by
  have hreach := h.reach_of_mem hd
  rw [← h.edge_eq_child] at hreach
  rcases ReflTransGen.cases_tail hreach with heq | ⟨p, -, hp⟩
  · exact heq
  · rw [Edge, htop] at hp
    cases hp

theorem Hierarchy.mem_names_of_parent (h : Hierarchy) {p d : String} (hup : h.parent d = some p) :
    p ∈ h.names :=
  ((h.parent_eq_some_iff p d).mp hup).mem_names.1

/-! ## One pass of the outer loop -/

section Pass

variable {h : Hierarchy} {service : Service} {e current p : String} (fuel : ℕ)
  (path : List String)

theorem climbStep_root :
    climbStep h.parentOf fuel service e (path, "ROOT") = .done (some (.ok (none, path))) := by
  simp only [climbStep, if_true]

theorem climbStep_again (hne : current ≠ "ROOT") (hup : h.parent current = some p)
    (hnone : service.pointers.getIn p e = none) :
    climbStep h.parentOf fuel service e (path, current) = .again (path ++ [p], p) := by
  have hget : h.parentOf.get? current = some (some p) := Option.join_eq_some_iff.mp hup
  simp only [climbStep, if_neg hne, hget, hnone]

theorem climbStep_found {c d address : String} {path' : List String} (hne : current ≠ "ROOT")
    (hup : h.parent current = some p) (hsome : service.pointers.getIn p e = some c)
    (hfollow : Loop.run (followStep service e) fuel (path ++ [p], p) = some (path', d))
    (hget : service.entities.getIn d e = some address) :
    climbStep h.parentOf fuel service e (path, current)
      = .done (some (.ok (some address, path' ++ [e]))) := by
  have hparent : h.parentOf.get? current = some (some p) := Option.join_eq_some_iff.mp hup
  simp only [climbStep, if_neg hne, hparent, hsome, hfollow, hget]

theorem climbStep_stale {c d : String} {path' : List String} (hne : current ≠ "ROOT")
    (hup : h.parent current = some p) (hsome : service.pointers.getIn p e = some c)
    (hfollow : Loop.run (followStep service e) fuel (path ++ [p], p) = some (path', d))
    (hget : service.entities.getIn d e = none) :
    climbStep h.parentOf fuel service e (path, current) = .again (path', d) := by
  have hparent : h.parentOf.get? current = some (some p) := Option.join_eq_some_iff.mp hup
  simp only [climbStep, if_neg hne, hparent, hsome, hfollow, hget]

/-- The pass ends without a result when the inner loop does. -/
theorem climbStep_outOfFuel {c : String} (hne : current ≠ "ROOT")
    (hup : h.parent current = some p) (hsome : service.pointers.getIn p e = some c)
    (hfollow : Loop.run (followStep service e) fuel (path ++ [p], p) = none) :
    climbStep h.parentOf fuel service e (path, current) = .done none := by
  have hparent : h.parentOf.get? current = some (some p) := Option.join_eq_some_iff.mp hup
  simp only [climbStep, if_neg hne, hparent, hsome, hfollow]

end Pass

/-! ## The two loops -/

/-- The pointers for one entity, as a map from a domain to the next one. -/
def Service.pointer (service : Service) (e a : String) : Option String :=
  service.pointers.getIn a e

theorem Hierarchy.ne_root_of_parent (h : Hierarchy) {d p : String} (hup : h.parent d = some p) :
    d ≠ "ROOT" := by
  rintro rfl
  rw [h.parent_root] at hup
  cases hup

section Loops

variable {h : Hierarchy} {service : Service} {e : String}

/-- **The inner loop** follows the pointers to their end. -/
theorem follow_run {c : String} {l : List String} (hl : Chain (service.pointer e) c l)
    {fuel : ℕ} (hfuel : l.length < fuel) (path : List String) :
    Loop.run (followStep service e) fuel (path, c) = some (path ++ l, endOf c l) := by
  induction hl generalizing fuel path with
  | @top c htop =>
      obtain ⟨fuel, rfl⟩ : ∃ k, fuel = k + 1 := ⟨fuel - 1, by omega⟩
      have hnone : service.pointers.getIn c e = none := htop
      rw [List.append_nil, endOf_nil]
      apply Loop.run_done fuel
      simp only [followStep, hnone]
  | @up c c' l hup _ ih =>
      obtain ⟨fuel, rfl⟩ : ∃ k, fuel = k + 1 := ⟨fuel - 1, by omega⟩
      have hsome : service.pointers.getIn c e = some c' := hup
      have hstep : followStep service e (path, c) = .again (path ++ [c'], c') := by
        simp only [followStep, hsome]
      rw [Loop.run_again fuel hstep, ih (Nat.lt_of_succ_lt_succ hfuel), endOf_cons,
        List.append_assoc, List.singleton_append]

/-- Either no domain above has a pointer to the entity, or there is a nearest one that has. -/
theorem nearest_pointer (service : Service) (e : String) (ls : List String) :
    (∀ a ∈ ls, service.pointers.getIn a e = none) ∨ ∃ up p rest c, ls = up ++ p :: rest ∧
      (∀ a ∈ up, service.pointers.getIn a e = none) ∧ service.pointers.getIn p e = some c := by
  induction ls with
  | nil =>
      left
      intro a ha
      cases ha
  | cons p rest ih =>
      cases hp : service.pointers.getIn p e with
      | some c =>
          right
          refine ⟨[], p, rest, c, rfl, ?_, hp⟩
          intro a ha
          cases ha
      | none =>
          rcases ih with hnone | ⟨up, q, rest', c, rfl, hup, hq⟩
          · left
            intro a ha
            rcases List.mem_cons.mp ha with rfl | ha
            · exact hp
            · exact hnone a ha
          · right
            refine ⟨p :: up, q, rest', c, rfl, ?_, hq⟩
            intro a ha
            rcases List.mem_cons.mp ha with rfl | ha
            · exact hp
            · exact hup a ha

/-- **The outer loop** climbs past domains without a pointer to the entity. -/
theorem climb_up (fuel : ℕ) {start p : String} {up rest : List String}
    (hs : Chain h.parent start (up ++ p :: rest))
    (hnone : ∀ a ∈ up, service.pointers.getIn a e = none) (k : ℕ) (path : List String) :
    Loop.run (climbStep h.parentOf fuel service e) (up.length + k) (path, start)
      = Loop.run (climbStep h.parentOf fuel service e) k (path ++ up, endOf start up) := by
  induction up generalizing start path with
  | nil => rw [List.length_nil, Nat.zero_add, List.append_nil, endOf_nil]
  | cons a up ih =>
      cases hs with
      | up hup hrest =>
          have hstep := climbStep_again fuel path (h.ne_root_of_parent hup) hup
            (hnone a List.mem_cons_self)
          rw [List.length_cons, Nat.add_right_comm, Loop.run_again _ hstep,
            ih hrest fun b hb => hnone b (List.mem_cons_of_mem a hb), endOf_cons,
            List.append_assoc, List.singleton_append]

/-- The climb to the nearest pointer, when the pointers lead to the entity from there. -/
theorem climb_finds {fuel k : ℕ} {start p address : String} {up rest l : List String}
    (hs : Chain h.parent start (up ++ p :: rest))
    (hnone : ∀ a ∈ up, service.pointers.getIn a e = none) {c : String}
    (hsome : service.pointers.getIn p e = some c) (hl : Chain (service.pointer e) p l)
    (hget : service.entities.getIn (endOf p l) e = some address) (hfuel : l.length < fuel)
    (hk : up.length < k) (path : List String) :
    Loop.run (climbStep h.parentOf fuel service e) k (path, start)
      = some (some (.ok (some address, path ++ (up ++ p :: l) ++ [e]))) := by
  obtain ⟨k, rfl⟩ : ∃ j, k = up.length + (j + 1) := ⟨k - up.length - 1, by omega⟩
  obtain ⟨hup, -⟩ := hs.split
  have hfollow := follow_run hl hfuel (path ++ up ++ [p])
  have hstep := climbStep_found fuel (path ++ up) (h.ne_root_of_parent hup) hup hsome hfollow hget
  rw [climb_up fuel hs hnone, Loop.run_done k hstep]
  simp only [List.append_assoc, List.singleton_append]

/-- The climb without a pointer to the entity ends at the root. -/
theorem climb_misses (fuel : ℕ) {start : String} {ls : List String}
    (hs : Chain h.parent start ls) (hmem : start ∈ h.names)
    (hnone : ∀ a ∈ ls, service.pointers.getIn a e = none) {k : ℕ} (hk : ls.length < k)
    (path : List String) :
    Loop.run (climbStep h.parentOf fuel service e) k (path, start)
      = some (some (.ok (none, path ++ ls))) := by
  induction hs generalizing k path with
  | top htop =>
      obtain ⟨k, rfl⟩ : ∃ j, k = j + 1 := ⟨k - 1, by omega⟩
      rw [h.eq_root_of_top hmem htop, List.append_nil]
      exact Loop.run_done k (climbStep_root fuel path)
  | @up start p ls hup _ ih =>
      obtain ⟨k, rfl⟩ : ∃ j, k = j + 1 := ⟨k - 1, by omega⟩
      have hstep := climbStep_again fuel path (h.ne_root_of_parent hup) hup
        (hnone p List.mem_cons_self)
      rw [Loop.run_again k hstep, ih (h.mem_names_of_parent hup)
        (fun a ha => hnone a (List.mem_cons_of_mem p ha)) (Nat.lt_of_succ_lt_succ hk),
        List.append_assoc, List.singleton_append]

end Loops

/-! ## The lookup -/

section Represented

variable {h : Hierarchy} {directory : Directory} {service : Service} {e d address start : String}
  {fuel : ℕ}

theorem lookup_local (hget : service.entities.getIn start e = some address) :
    lookup h.parentOf fuel service e start = some (.ok (some address, [start, e])) := by
  simp only [lookup, hget]

theorem lookup_climbs (hget : service.entities.getIn start e = none) :
    lookup h.parentOf fuel service e start =
      (Loop.run (climbStep h.parentOf fuel service e) fuel ([start], start)).join := by
  simp only [lookup, hget]

theorem Represents.stored_once (hrep : Represents h directory service)
    (hdir : directory e = some (d, address)) (hne : start ≠ d) :
    service.entities.getIn start e = none := by
  cases hget : service.entities.getIn start e with
  | none => rfl
  | some address' =>
      rw [hrep.stores.stored, hdir] at hget
      exact absurd (congrArg Prod.fst (Option.some.inj hget)).symm hne

/-- The pointers lead from every domain above the entity, or its own, down to its domain. -/
theorem Represents.chain_down (hrep : Represents h directory service)
    (hdir : directory e = some (d, address)) {c : String}
    (hreach : ReflTransGen (Edge h.parent) c d) :
    ∃ l, Chain (service.pointer e) c l ∧ endOf c l = d := by
  induction hreach using ReflTransGen.head_induction_on with
  | refl =>
      refine ⟨[], .top ?_, rfl⟩
      apply Option.eq_none_iff_forall_ne_some.mpr
      intro c hget
      obtain ⟨d', address', hdir', hon⟩ := (hrep.pointsTo d e c).mp hget
      rw [hdir] at hdir'
      cases hdir'
      obtain ⟨l, hchain⟩ := h.chain_total d
      exact hchain.not_onPath_self hon
  | @head c c' hedge hrest ih =>
      obtain ⟨l, hl, hend⟩ := ih
      refine ⟨c' :: l, .up ?_ hl, ?_⟩
      · exact (hrep.pointsTo c e c').mpr ⟨d, address, hdir, hedge, hrest⟩
      · rw [endOf_cons]
        exact hend

/-- Pointers lead only to domains of the tree, so a way along them is shorter than its list of
names. -/
theorem pointer_chain_length_lt (hptr : ∀ a c, service.pointers.getIn a e = some c → h.Child a c)
    {c : String} (hc : c ∈ h.names) {l : List String} (hl : Chain (service.pointer e) c l) :
    l.length < h.names.length :=
  hl.length_lt hc fun p a hup => (hptr a p hup).mem_names.2

theorem Represents.pointer_child (hrep : Represents h directory service) (a c : String)
    (hget : service.pointers.getIn a e = some c) : h.Child a c := by
  obtain ⟨d, address, -, hon⟩ := (hrep.pointsTo a e c).mp hget
  exact (h.parent_eq_some_iff a c).mp hon.1

/-- Away from the root some domain above the start has a pointer to the entity: the root. -/
theorem Represents.exists_nearest (hrep : Represents h directory service)
    (hdir : directory e = some (d, address)) (hs : start ≠ "ROOT") (hd : d ≠ "ROOT")
    (hmem : start ∈ h.names) {ls : List String} (hchain : Chain h.parent start ls) :
    ∃ up p rest c, ls = up ++ p :: rest ∧ (∀ a ∈ up, service.pointers.getIn a e = none) ∧
      service.pointers.getIn p e = some c := by
  have hroot : ∀ {x}, x ∈ h.names → x ≠ "ROOT" → Ancestor h.parent "ROOT" x := by
    intro x hx hne
    have hreach := h.reach_of_mem hx
    rw [← h.edge_eq_child] at hreach
    exact root_ancestor hreach hne
  rcases nearest_pointer service e ls with hnone | hsome
  · obtain ⟨c, hon⟩ := exists_onPath_iff.mpr (hroot (hrep.stores.inTree d e address hdir) hd)
    have hsome := (hrep.pointsTo "ROOT" e c).mpr ⟨d, address, hdir, hon⟩
    rw [hnone "ROOT" (hchain.mem_iff.mpr (hroot hmem hs))] at hsome
    cases hsome
  · exact hsome

/-- The climb to the nearest pointer and the way down from there. -/
theorem Represents.climb_to (hrep : Represents h directory service)
    (hdir : directory e = some (d, address)) (hfuel : h.names.length ≤ fuel)
    {up rest : List String} {p c : String} (hchain : Chain h.parent start (up ++ p :: rest))
    (hnone : ∀ a ∈ up, service.pointers.getIn a e = none)
    (hsome : service.pointers.getIn p e = some c) :
    ∃ l, Chain (service.pointer e) p l ∧ endOf p l = d ∧
      Loop.run (climbStep h.parentOf fuel service e) fuel ([start], start)
        = some (some (.ok (some address, [start] ++ (up ++ p :: l) ++ [e]))) := by
  obtain ⟨d', address', hdir', hon⟩ := (hrep.pointsTo p e c).mp hsome
  rw [hdir] at hdir'
  cases hdir'
  obtain ⟨l, hl, hend⟩ := hrep.chain_down hdir (ReflTransGen.head hon.1 hon.2)
  have hget := (hrep.stores.stored d e address).mpr hdir
  rw [← hend] at hget
  have hlength := pointer_chain_length_lt hrep.pointer_child
    (h.mem_names_of_parent hchain.split.1) hl
  have hup : up.length < fuel := by
    have hlen := h.chain_length_lt hchain
    rw [List.length_append, List.length_cons] at hlen
    omega
  exact ⟨l, hl, hend, climb_finds hchain hnone hsome hl hget
    (Nat.lt_of_lt_of_le hlength hfuel) hup [start]⟩

/-- Away from the root every stored entity is found. -/
theorem Represents.finds (hrep : Represents h directory service)
    (hdir : directory e = some (d, address)) (hmem : start ∈ h.names)
    (hfuel : h.names.length ≤ fuel) (hcond : start = d ∨ (start ≠ "ROOT" ∧ d ≠ "ROOT")) :
    service.Finds h fuel e start address := by
  by_cases hsd : start = d
  · subst hsd
    exact ⟨_, lookup_local ((hrep.stores.stored start e address).mpr hdir)⟩
  · obtain ⟨hs, hd⟩ := hcond.resolve_left hsd
    obtain ⟨ls, hchain⟩ := h.chain_total start
    obtain ⟨up, p, rest, c, rfl, hnone, hsome⟩ :=
      hrep.exists_nearest hdir hs hd hmem hchain
    obtain ⟨l, -, -, hrun⟩ := hrep.climb_to hdir hfuel hchain hnone hsome
    refine ⟨[start] ++ (up ++ p :: l) ++ [e], ?_⟩
    rw [lookup_climbs (hrep.stored_once hdir hsd), hrun, Option.join_some]

/-- Between the root and another domain no stored entity is found, either way. -/
theorem Represents.misses (hrep : Represents h directory service)
    (hdir : directory e = some (d, address)) (hmem : start ∈ h.names)
    (hfuel : h.names.length ≤ fuel) (hne : start ≠ d) (hroot : start = "ROOT" ∨ d = "ROOT") :
    ∃ path, lookup h.parentOf fuel service e start = some (.ok (none, path)) := by
  rw [lookup_climbs (hrep.stored_once hdir hne)]
  obtain ⟨ls, hchain, hlen⟩ := h.exists_chain hmem
  -- the climb from the root meets nothing, and no domain has a pointer to an entity of the root
  have hnone : ∀ a ∈ ls, service.pointers.getIn a e = none := by
    intro a ha
    rcases hroot with rfl | rfl
    · rw [hchain.unique (.top h.parent_root)] at ha
      cases ha
    · apply Option.eq_none_iff_forall_ne_some.mpr
      intro c hget
      obtain ⟨d', address', hdir', hon⟩ := (hrep.pointsTo a e c).mp hget
      rw [hdir] at hdir'
      cases hdir'
      exact not_onPath_of_top h.parent_root hon
  have hrun := climb_misses fuel hchain hmem hnone (Nat.lt_of_lt_of_le hlen hfuel) [start]
  exact ⟨[start] ++ ls, by rw [hrun, Option.join_some]⟩

end Represented

/-- **Which stored entities are found.** In every reachable state, a lookup of a stored entity
from a domain of the tree ends without an error, and it returns the address exactly when the
starting domain stores the entity or neither of the two is the root. -/
theorem lookup_finds_iff (h : Hierarchy) (placement : Placement h) (moves : List Move)
    (hmoves : ∀ move ∈ moves, move.newDomain ∈ h.names) (fuel : ℕ)
    (hfuel : h.names.length ≤ fuel) :
    ∃ service, run h.parentOf fuel placement.entities moves = some service ∧
      ∀ e d address start, service.entities.getIn d e = some address → start ∈ h.names →
        (∃ answer, lookup h.parentOf fuel service e start = some (.ok answer)) ∧
          (service.Finds h fuel e start address ↔
            start = d ∨ (start ≠ "ROOT" ∧ d ≠ "ROOT")) := by
  obtain ⟨service, hrun, hrep⟩ := run_represents placement hmoves hfuel
  refine ⟨service, hrun, ?_⟩
  intro e d address start hget hmem
  have hdir := (hrep.stores.stored d e address).mp hget
  by_cases hcond : start = d ∨ (start ≠ "ROOT" ∧ d ≠ "ROOT")
  · have hfinds := hrep.finds hdir hmem hfuel hcond
    obtain ⟨path, hlookup⟩ := hfinds
    exact ⟨⟨_, hlookup⟩, iff_of_true ⟨path, hlookup⟩ hcond⟩
  · rw [not_or, not_and_or, not_not, not_not] at hcond
    obtain ⟨path, hlookup⟩ := hrep.misses hdir hmem hfuel hcond.1 hcond.2
    refine ⟨⟨_, hlookup⟩, iff_of_false ?_ ?_⟩
    · rintro ⟨path', hfound⟩
      rw [hlookup] at hfound
      cases hfound
    · rintro (heq | ⟨hs, hd⟩)
      · exact hcond.1 heq
      · exact hcond.2.elim hs hd

theorem lookup_finds_iff_workshop :
    (∀ move ∈ [Move.mk "server01" "IBARRA" "QUITO"], move.newDomain ∈ workshop.names) ∧
      ∃ service, run workshop.parentOf 7 workshopEntities.entities
          [Move.mk "server01" "IBARRA" "QUITO"] = some service ∧
        ∀ e d address start, service.entities.getIn d e = some address →
          start ∈ workshop.names →
          (∃ answer, lookup workshop.parentOf 7 service e start = some (.ok answer)) ∧
            (service.Finds workshop 7 e start address ↔
              start = d ∨ (start ≠ "ROOT" ∧ d ≠ "ROOT")) :=
  ⟨by decide, lookup_finds_iff workshop workshopEntities _ (by decide) 7 (by decide)⟩

/-- `lookup("server01", "ROOT")` answers `None` before any move, though `IBARRA` stores the
entity and `ROOT` has a pointer to it. -/
theorem not_found_from_root :
    ∃ service, run workshop.parentOf 7 workshopEntities.entities [] = some service ∧
      service.entities.getIn "IBARRA" "server01" = some "10.0.1.20" ∧
      service.pointers.getIn "ROOT" "server01" = some "AMERICA" ∧
      lookup workshop.parentOf 7 service "server01" "ROOT" = some (.ok (none, ["ROOT"])) ∧
      ¬ service.FoundFromEverywhere workshop 7 := by
  refine ⟨_, rfl, rfl, rfl, rfl, ?_⟩
  intro hfound
  obtain ⟨path, hlookup⟩ := hfound "server01" "IBARRA" "10.0.1.20" "ROOT" rfl (by decide)
  cases hlookup

end Location
