import DistWorkshops.Location.Lookup
import DistWorkshops.Location.Tracking
import Mathlib.Data.List.Chain

/-!
# A lookup follows the path of the tree

Between two leaves of the tree there is one path without a detour: up to the lowest common
ancestor and down again. In a state in which every entity is stored in one leaf, the pointers are
the paths down to the entities. So the first domain with a pointer on the way up from another leaf
is the lowest common ancestor, and from there the pointers lead straight to the entity.
-/

set_option autoImplicit false

namespace Location

open ParentMap Relation

namespace Hierarchy

variable (h : Hierarchy)

def Leaf (d : String) : Prop := d ∈ h.names ∧ ∀ c, ¬ h.Child d c

def AtOrAbove (a d : String) : Prop := ReflTransGen h.Child a d

def LowestCommonAncestor (s d a : String) : Prop :=
  h.AtOrAbove a s ∧ h.AtOrAbove a d ∧
    ∀ b, h.AtOrAbove b s → h.AtOrAbove b d → h.AtOrAbove b a

/-- From each domain of the list to the one above it. -/
def GoesUp (path : List String) : Prop := path.IsChain fun c p => h.Child p c

/-- From each domain of the list to one below it. -/
def GoesDown (path : List String) : Prop := path.IsChain h.Child

/-- The path from `s` up to the lowest common ancestor of `s` and `d` and down to `d`. -/
def TreePath (s d : String) (path : List String) : Prop :=
  ∃ up a down, path = up ++ a :: down ∧ h.LowestCommonAncestor s d a ∧
    h.GoesUp (up ++ [a]) ∧ (up ++ [a]).head? = some s ∧
    h.GoesDown (a :: down) ∧ (a :: down).getLast? = some d

/-- The path from `s` up to the root. -/
def RootPath (s : String) (path : List String) : Prop :=
  h.GoesUp path ∧ path.head? = some s ∧ path.getLast? = some "ROOT"

end Hierarchy

/-- Every entity is stored in one domain at most, and that is a leaf. -/
def Service.InOneLeaf (h : Hierarchy) (service : Service) : Prop :=
  ∀ e d, service.StoredAt e d → h.Leaf d ∧ ∀ d', service.StoredAt e d' → d' = d

/-! ## Paths visit no domain twice -/

namespace Hierarchy

variable {h : Hierarchy} {path : List String} {s d : String}

theorem not_strictAncestor_self (h : Hierarchy) (a : String) : ¬ h.StrictAncestor a a := by
  intro hcycle
  obtain ⟨l, hl⟩ := h.chain_total a
  exact hl.not_mem (hl.mem_iff.mpr ((h.ancestor_iff a a).mpr hcycle))

/-- On the way down every domain is strictly above all later ones. -/
theorem GoesDown.pairwise (hdown : h.GoesDown path) : path.Pairwise h.StrictAncestor := by
  have htrans : path.IsChain (TransGen h.Child) :=
    List.IsChain.imp (fun _ _ hchild => TransGen.single hchild) hdown
  exact htrans.pairwise

theorem GoesUp.reverse (hup : h.GoesUp path) : h.GoesDown path.reverse :=
  List.isChain_reverse.mpr hup

theorem GoesUp.pairwise (hup : h.GoesUp path) :
    path.Pairwise fun c a => h.StrictAncestor a c :=
  List.pairwise_reverse.mp hup.reverse.pairwise

theorem GoesDown.nodup (hdown : h.GoesDown path) : path.Nodup := by
  refine hdown.pairwise.imp ?_
  rintro a b hab rfl
  exact h.not_strictAncestor_self a hab

theorem GoesUp.above (hup : h.GoesUp path) (hhead : path.head? = some s) {x : String}
    (hx : x ∈ path) : h.AtOrAbove x s := by
  cases path with
  | nil => cases hx
  | cons y rest =>
      cases hhead
      rcases List.mem_cons.mp hx with rfl | hx
      · exact ReflTransGen.refl
      · exact ((List.pairwise_cons.mp hup.pairwise).1 x hx).to_reflTransGen

theorem GoesDown.above (hdown : h.GoesDown path) (hlast : path.getLast? = some d) {x : String}
    (hx : x ∈ path) : h.AtOrAbove x d := by
  have hup : h.GoesUp path.reverse := List.isChain_reverse.mpr hdown
  have hhead : path.reverse.head? = some d := by
    rw [List.head?_reverse]
    exact hlast
  exact hup.above hhead (List.mem_reverse.mpr hx)

/-- **The path between two domains of the tree visits none twice.** -/
theorem TreePath.nodup (hpath : h.TreePath s d path) : path.Nodup := by
  obtain ⟨up, a, down, rfl, hlca, hup, hhead, hdown, hlast⟩ := hpath
  have hupNodup : (up ++ [a]).Nodup := by
    have hreverse := hup.reverse.nodup
    rwa [List.nodup_reverse] at hreverse
  apply List.nodup_append'.mpr
  refine ⟨List.Nodup.of_append_left hupNodup, hdown.nodup, ?_⟩
  intro x hxup hxdown
  -- a domain on both parts would be a common ancestor below the lowest one
  have habove : h.AtOrAbove x a := hlca.2.2 x
    (hup.above hhead (List.mem_append_left [a] hxup)) (hdown.above hlast hxdown)
  have hbelow : h.StrictAncestor a x :=
    (List.pairwise_append.mp hup.pairwise).2.2 x hxup a List.mem_cons_self
  exact h.not_strictAncestor_self a (TransGen.trans_left hbelow habove)

/-! ## Chains as paths -/

theorem goesUp_of_chain {l : List String} (hl : Chain h.parent s l) : h.GoesUp (s :: l) := by
  induction hl with
  | top _ => exact List.isChain_singleton _
  | @up d p l hup _ ih =>
      exact List.isChain_cons_cons.mpr ⟨(h.parent_eq_some_iff p d).mp hup, ih⟩

theorem getLast?_eq_endOf (s : String) (l : List String) :
    (s :: l).getLast? = some (endOf s l) := by
  rw [List.getLast?_cons, endOf, List.getLastD_eq_getLast?]

theorem rootPath_of_chain {l : List String} (hl : Chain h.parent s l) (hs : s ∈ h.names) :
    h.RootPath s (s :: l) := by
  refine ⟨goesUp_of_chain hl, rfl, ?_⟩
  rw [getLast?_eq_endOf, Option.some.injEq]
  induction hl with
  | top htop => exact h.eq_root_of_top hs htop
  | up hup _ ih =>
      rw [endOf_cons]
      exact ih (h.mem_names_of_parent hup)

/-- A leaf is above nothing. -/
theorem Leaf.eq_of_above (hleaf : h.Leaf s) (habove : h.AtOrAbove s d) : s = d := by
  rcases ReflTransGen.cases_head habove with heq | ⟨c, hchild, -⟩
  · exact heq
  · exact absurd hchild (hleaf.2 c)

/-- A leaf is a name that is the parent of none. -/
theorem leaf_of_parent_ne (hd : d ∈ h.names) (hne : ∀ c ∈ h.names, h.parent c ≠ some d) :
    h.Leaf d :=
  ⟨hd, fun c hchild => hne c hchild.mem_names.2 ((h.parent_eq_some_iff d c).mpr hchild)⟩

/-- Of two leaves neither is the root. -/
theorem Leaf.ne_root (hs : h.Leaf s) (hd : d ∈ h.names) (hne : s ≠ d) : s ≠ "ROOT" := by
  rintro rfl
  exact hne (hs.eq_of_above (h.reach_of_mem hd))

end Hierarchy

/-! ## The lookup -/

section Represented

variable {h : Hierarchy} {directory : Directory} {service : Service} {e s d address : String}
  {fuel : ℕ}

theorem goesDown_of_chain (hrep : Represents h directory service) {p : String} {l : List String}
    (hl : Chain (service.pointer e) p l) : h.GoesDown (p :: l) := by
  induction hl with
  | top _ => exact List.isChain_singleton _
  | @up a c l hup _ ih =>
      exact List.isChain_cons_cons.mpr ⟨hrep.pointer_child a c hup, ih⟩

/-- **The first domain with a pointer is the lowest common ancestor.** -/
theorem Represents.lowestCommonAncestor (hrep : Represents h directory service)
    (hdir : directory e = some (d, address)) (hs : h.Leaf s) (hd : h.Leaf d) (hne : s ≠ d)
    {up rest : List String} {p c : String} (hchain : Chain h.parent s (up ++ p :: rest))
    (hnone : ∀ a ∈ up, service.pointers.getIn a e = none) (hon : OnPath h.parent d p c) :
    h.LowestCommonAncestor s d p := by
  have hstrict : ∀ {a x}, Ancestor h.parent a x → h.AtOrAbove a x := fun ha =>
    TransGen.to_reflTransGen ((h.ancestor_iff _ _).mp ha)
  refine ⟨hstrict (hchain.mem_iff.mp (by simp)), hstrict hon.ancestor, ?_⟩
  intro b hbs hbd
  rcases reflTransGen_iff_eq_or_transGen.mp hbs with rfl | hbs
  · exact absurd (hs.eq_of_above hbd) hne
  · rw [← Hierarchy.StrictAncestor, ← h.ancestor_iff] at hbs
    rcases List.mem_append.mp (hchain.mem_iff.mpr hbs) with hb | hb
    · -- below the first pointer there is no domain above the entity
      rcases reflTransGen_iff_eq_or_transGen.mp hbd with rfl | hbd
      · have hchild := (exists_onPath_iff.mpr hbs).choose_spec.1
        exact absurd ((h.parent_eq_some_iff _ _).mp hchild) (hd.2 _)
      · obtain ⟨c', hon'⟩ := exists_onPath_iff.mpr ((h.ancestor_iff b d).mpr hbd)
        have hsome := (hrep.pointsTo b e c').mpr ⟨d, address, hdir, hon'⟩
        rw [hnone b hb] at hsome
        cases hsome
    · rcases List.mem_cons.mp hb with rfl | hb
      · exact ReflTransGen.refl
      · exact hstrict (hchain.split.2.mem_iff.mp hb)

/-- **A stored entity**: the address, and the path of the tree. -/
theorem Represents.lookup_stored (hrep : Represents h directory service)
    (hdir : directory e = some (d, address)) (hs : h.Leaf s) (hd : h.Leaf d)
    (hfuel : h.names.length ≤ fuel) :
    ∃ path, lookup h.parentOf fuel service e s = some (.ok (some address, path ++ [e])) ∧
      h.TreePath s d path := by
  by_cases hsd : s = d
  · subst hsd
    refine ⟨[s], lookup_local ((hrep.stores.stored s e address).mpr hdir), ?_⟩
    exact ⟨[], s, [], rfl, ⟨ReflTransGen.refl, ReflTransGen.refl, fun b hb _ => hb⟩,
      List.isChain_singleton s, rfl, List.isChain_singleton s, rfl⟩
  · obtain ⟨ls, hchain⟩ := h.chain_total s
    obtain ⟨up, p, rest, c, rfl, hnone, hsome⟩ := hrep.exists_nearest hdir
      (hs.ne_root hd.1 hsd) (hd.ne_root hs.1 (fun heq => hsd heq.symm)) hs.1 hchain
    obtain ⟨l, hl, hend, hrun⟩ := hrep.climb_to hdir hfuel hchain hnone hsome
    refine ⟨[s] ++ (up ++ p :: l), ?_, s :: up, p, l, rfl, ?_, ?_, rfl,
      goesDown_of_chain hrep hl, ?_⟩
    · rw [lookup_climbs (hrep.stored_once hdir hsd), hrun, Option.join_some]
    · obtain ⟨d', address', hdir', hon⟩ := (hrep.pointsTo p e c).mp hsome
      rw [hdir] at hdir'
      cases hdir'
      exact hrep.lowestCommonAncestor hdir hs hd hsd hchain hnone hon
    · have hup : h.GoesUp ((s :: up ++ [p]) ++ rest) := by
        have hwhole := Hierarchy.goesUp_of_chain hchain
        rwa [List.append_cons, ← List.cons_append, ← List.cons_append] at hwhole
      exact List.IsChain.left_of_append hup
    · rw [Hierarchy.getLast?_eq_endOf, hend]

/-- **An entity that is stored nowhere**: `None`, and the path to the root. -/
theorem Represents.lookup_missing (hrep : Represents h directory service)
    (hdir : directory e = none) (hs : s ∈ h.names) (hfuel : h.names.length ≤ fuel) :
    ∃ path, lookup h.parentOf fuel service e s = some (.ok (none, path)) ∧
      h.RootPath s path := by
  obtain ⟨ls, hchain⟩ := h.chain_total s
  have hnone : ∀ a ∈ ls, service.pointers.getIn a e = none := by
    intro a _
    apply Option.eq_none_iff_forall_ne_some.mpr
    intro c hget
    obtain ⟨d, address, hdir', -⟩ := (hrep.pointsTo a e c).mp hget
    rw [hdir] at hdir'
    cases hdir'
  have hlocal : service.entities.getIn s e = none := by
    apply Option.eq_none_iff_forall_ne_some.mpr
    intro address hget
    rw [hrep.stores.stored, hdir] at hget
    cases hget
  have hrun := climb_misses fuel hchain hs hnone
    (Nat.lt_of_lt_of_le (h.chain_length_lt hchain) hfuel) [s]
  refine ⟨[s] ++ ls, ?_, Hierarchy.rootPath_of_chain hchain hs⟩
  rw [lookup_climbs hlocal, hrun, Option.join_some]

end Represented

theorem Service.InOneLeaf.storedOnce {h : Hierarchy} {service : Service}
    (hleaf : service.InOneLeaf h) : service.StoredOnce h := fun e d hd =>
  ⟨(hleaf e d hd).1.1, (hleaf e d hd).2⟩

/-- **A lookup between leaves follows the path of the tree.** From any initial registration and
after any moves, in a state in which every entity is stored in one leaf: the lookup of a stored
entity from a leaf returns its address and the path up to the lowest common ancestor and down to
the entity, without a domain twice; the lookup of any other entity returns `None` and the path to
the root. -/
theorem lookup_tree_path (h : Hierarchy) (entities : Entities) (moves : List Move) (fuel : ℕ)
    (hfuel : h.names.length ≤ fuel) (service : Service)
    (hrun : run h.parentOf fuel entities moves = some service) (hone : service.InOneLeaf h)
    (s : String) (hs : h.Leaf s) (e : String) :
    (∀ d address, service.entities.getIn d e = some address →
      ∃ path, lookup h.parentOf fuel service e s = some (.ok (some address, path ++ [e])) ∧
        h.TreePath s d path ∧ path.Nodup) ∧
      ((∀ d, service.entities.getIn d e = none) →
        ∃ path, lookup h.parentOf fuel service e s = some (.ok (none, path)) ∧
          h.RootPath s path) := by
  obtain ⟨service', hrun', htracked⟩ := run_tracked h hfuel entities moves
  rw [hrun] at hrun'
  cases hrun'
  have hrep := htracked.represents hone.storedOnce
  constructor
  · intro d address hget
    have hdir := (hrep.stores.stored d e address).mp hget
    obtain ⟨path, hlookup, hpath⟩ :=
      hrep.lookup_stored hdir hs (hone e d ⟨address, hget⟩).1 hfuel
    exact ⟨path, hlookup, hpath, hpath.nodup⟩
  · intro hnowhere
    have hdir : service.entities.directory e = none := by
      apply Option.eq_none_iff_forall_ne_some.mpr
      intro place hdir
      have hsome := (hrep.stores.stored place.1 e place.2).mpr hdir
      rw [hnowhere place.1] at hsome
      cases hsome
    exact hrep.lookup_missing hdir hs.1 hfuel

/-- The state after `server01` has moved from `IBARRA` to `ROOT` and on to `EUROPE`. -/
def movedService : Service where
  entities := ⟨[("IBARRA", Dict.empty), ("QUITO", Dict.empty.set "server02" "10.0.2.30"),
    ("ROOT", Dict.empty), ("EUROPE", Dict.empty.set "server01" "10.0.1.20")], by decide⟩
  pointers := ⟨[("ECUADOR", ⟨[("server02", "QUITO")], by decide⟩),
    ("AMERICA", ⟨[("server02", "ECUADOR")], by decide⟩),
    ("ROOT", ⟨[("server02", "AMERICA"), ("server01", "EUROPE")], by decide⟩)], by decide⟩

theorem movedService_inOneLeaf : movedService.InOneLeaf workshop := by
  have hstored : ∀ e d, movedService.StoredAt e d →
      (e = "server02" ∧ d = "QUITO") ∨ (e = "server01" ∧ d = "EUROPE") := by
    rintro e d ⟨address, hget⟩
    obtain ⟨inner, hitem, hentry⟩ := (Dict.getIn_eq_some_iff _ _ _ _).mp hget
    simp only [movedService, List.mem_cons, Prod.mk.injEq, List.not_mem_nil, or_false] at hitem
    rcases hitem with ⟨rfl, rfl⟩ | ⟨rfl, rfl⟩ | ⟨rfl, rfl⟩ | ⟨rfl, rfl⟩
    · cases hentry
    · cases List.mem_singleton.mp hentry
      exact Or.inl ⟨rfl, rfl⟩
    · cases hentry
    · cases List.mem_singleton.mp hentry
      exact Or.inr ⟨rfl, rfl⟩
  intro e d hd
  rcases hstored e d hd with ⟨rfl, rfl⟩ | ⟨rfl, rfl⟩
  · refine ⟨Hierarchy.leaf_of_parent_ne (by decide) (by decide), fun d' hd' => ?_⟩
    rcases hstored _ d' hd' with ⟨-, rfl⟩ | ⟨he, -⟩
    · rfl
    · exact absurd he (by decide)
  · refine ⟨Hierarchy.leaf_of_parent_ne (by decide) (by decide), fun d' hd' => ?_⟩
    rcases hstored _ d' hd' with ⟨he, -⟩ | ⟨-, rfl⟩
    · exact absurd he (by decide)
    · rfl

/-- The lookups of `server01` from `QUITO` after the two moves. -/
theorem lookup_tree_path_workshop :
    run workshop.parentOf 7 workshopEntities.entities
        [Move.mk "server01" "IBARRA" "ROOT", Move.mk "server01" "ROOT" "EUROPE"]
      = some movedService ∧
    (∀ d address, movedService.entities.getIn d "server01" = some address →
      ∃ path, lookup workshop.parentOf 7 movedService "server01" "QUITO"
          = some (.ok (some address, path ++ ["server01"])) ∧
        workshop.TreePath "QUITO" d path ∧ path.Nodup) ∧
      ((∀ d, movedService.entities.getIn d "server01" = none) →
        ∃ path, lookup workshop.parentOf 7 movedService "server01" "QUITO"
            = some (.ok (none, path)) ∧ workshop.RootPath "QUITO" path) :=
  ⟨rfl, lookup_tree_path workshop workshopEntities.entities
    [Move.mk "server01" "IBARRA" "ROOT", Move.mk "server01" "ROOT" "EUROPE"] 7 (by decide)
    movedService rfl movedService_inOneLeaf "QUITO"
    (Hierarchy.leaf_of_parent_ne (by decide) (by decide)) "server01"⟩

example : lookup workshop.parentOf 7 movedService "server01" "QUITO" = some (.ok
    (some "10.0.1.20", ["QUITO", "ECUADOR", "AMERICA", "ROOT", "EUROPE", "server01"])) := by
  rfl

end Location
