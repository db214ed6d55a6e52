import DistWorkshops.Lib.Walk
import DistWorkshops.Location.TreePath

/-!
# Climbing the parent map

The loops of `register` and `unregister` climb from a domain by `parent_of`, which knows nothing of
the depth of the tree it was built from. On the tree, `Hierarchy.depth` is the number of levels
between a domain and the root. The climb from a domain goes through exactly its ancestors, so both
loops make as many passes as the domain is deep.
-/

set_option autoImplicit false

namespace Location

open ParentMap Relation

mutual

/-- How many levels below the top of a subtree the name `target` is. -/
def depthIn (target name : String) : Domain → Option ℕ
  | .node children =>
      if name = target then some 0 else (depthInChildren target children).map (· + 1)

def depthInChildren (target : String) : List (String × Domain) → Option ℕ
  | [] => none
  | (childName, childNode) :: rest =>
      (depthIn target childName childNode).or (depthInChildren target rest)

end

def Hierarchy.depth (h : Hierarchy) (d : String) : Option ℕ := depthIn d "ROOT" h.tree

/-! ## Depth and paths -/

/-- A path of `k` levels up from `target` to the top `name` of a subtree. -/
def PathUp (target name : String) (node : Domain) (k : ℕ) : Prop :=
  ∃ up : List String, up.length = k ∧ (target :: up).IsChain (fun c p => Child name node p c) ∧
    (target :: up).getLast? = some name

/-- A path up in the subtree of a child goes on to the parent. -/
theorem PathUp.inside {target name c : String} {sub : Domain} {children : List (String × Domain)}
    {k : ℕ} (hmem : (c, sub) ∈ children) (h : PathUp target c sub k) :
    PathUp target name (.node children) (k + 1) := by
  obtain ⟨up, hlen, hchain, hlast⟩ := h
  refine ⟨up ++ [name], ?_, ?_, ?_⟩
  · rw [List.length_append, List.length_singleton, hlen]
  · rw [← List.cons_append, List.isChain_append]
    refine ⟨hchain.imp fun _ _ hchild => .inside hmem hchild, List.isChain_singleton name, ?_⟩
    intro x hx y hy
    -- the path in the subtree ends at the child
    rw [hlast, Option.mem_some_iff] at hx
    rw [List.head?_cons, Option.mem_some_iff] at hy
    subst hx hy
    exact .here hmem
  · rw [← List.cons_append, List.getLast?_concat]

mutual

theorem pathUp_of_depthIn (target name : String) (node : Domain) {k : ℕ}
    (h : depthIn target name node = some k) : PathUp target name node k := by
  obtain ⟨children⟩ := node
  rw [depthIn] at h
  by_cases hname : name = target
  · rw [if_pos hname, Option.some.injEq] at h
    subst h hname
    exact ⟨[], rfl, List.isChain_singleton name, rfl⟩
  · rw [if_neg hname] at h
    obtain ⟨j, hj, rfl⟩ := Option.map_eq_some_iff.mp h
    obtain ⟨c, sub, hmem, hpath⟩ := pathUp_of_depthInChildren target children hj
    exact hpath.inside hmem

theorem pathUp_of_depthInChildren (target : String) (children : List (String × Domain)) {k : ℕ}
    (h : depthInChildren target children = some k) :
    ∃ c sub, (c, sub) ∈ children ∧ PathUp target c sub k := by
  match children with
  | [] => cases h
  | (childName, childNode) :: rest =>
      rw [depthInChildren] at h
      rcases Option.or_eq_some_iff.mp h with hchild | ⟨-, hrest⟩
      · exact ⟨childName, childNode, List.mem_cons_self,
          pathUp_of_depthIn target childName childNode hchild⟩
      · obtain ⟨c, sub, hmem, hpath⟩ := pathUp_of_depthInChildren target rest hrest
        exact ⟨c, sub, List.mem_cons_of_mem _ hmem, hpath⟩

end

mutual

/-- Every name of a subtree has a depth. -/
theorem depthIn_isSome (target name : String) (node : Domain) (h : target ∈ names name node) :
    (depthIn target name node).isSome := by
  obtain ⟨children⟩ := node
  rw [depthIn]
  by_cases hname : name = target
  · rw [if_pos hname]
    rfl
  · rw [if_neg hname, Option.isSome_map]
    rcases List.mem_cons.mp h with heq | hmem
    · exact absurd heq.symm hname
    · exact depthInChildren_isSome target children hmem

theorem depthInChildren_isSome (target : String) (children : List (String × Domain))
    (h : target ∈ childrenNames children) : (depthInChildren target children).isSome := by
  match children with
  | [] => cases h
  | (childName, childNode) :: rest =>
      rw [depthInChildren, Option.isSome_or, Bool.or_eq_true]
      rcases List.mem_append.mp h with hmem | hmem
      · exact Or.inl (depthIn_isSome target childName childNode hmem)
      · exact Or.inr (depthInChildren_isSome target rest hmem)

end

namespace Hierarchy

variable {h : Hierarchy} {d : String} {l : List String}

/-- A path up to the root is a climb. -/
theorem chain_of_goesUp (hup : h.GoesUp (d :: l)) (hlast : (d :: l).getLast? = some "ROOT") :
    Chain h.parent d l := by
  induction l generalizing d with
  | nil =>
      obtain rfl : d = "ROOT" := Option.some.inj hlast
      exact .top h.parent_root
  | cons p l ih =>
      obtain ⟨hchild, hrest⟩ := List.isChain_cons_cons.mp hup
      rw [List.getLast?_cons_cons] at hlast
      exact .up ((h.parent_eq_some_iff p d).mpr hchild) (ih hrest hlast)

/-- **The climb from a domain is as long as the domain is deep.** -/
theorem depth_of_chain (hd : d ∈ h.names) (hl : Chain h.parent d l) :
    h.depth d = some l.length := by
  obtain ⟨k, hk⟩ := Option.isSome_iff_exists.mp (depthIn_isSome d "ROOT" h.tree hd)
  obtain ⟨up, hlen, hchain, hlast⟩ := pathUp_of_depthIn d "ROOT" h.tree hk
  have hup : Chain h.parent d up := chain_of_goesUp hchain hlast
  rw [hl.unique hup, hlen]
  exact hk

end Hierarchy

/-! ## The loops that climb -/

/-- A loop whose passes go on to the parent as long as there is one. -/
structure Climbs (parent : String → Option String)
    (body : Pointers × String → Loop.Step (Pointers × String) Pointers) : Prop where
  up : ∀ {current p : String} (pointers : Pointers), parent current = some p →
    ∃ pointers', body (pointers, current) = .again (pointers', p)
  top : ∀ {current : String} (pointers : Pointers), parent current = none →
    body (pointers, current) = .done pointers

theorem Climbs.endsAfter {parent : String → Option String}
    {body : Pointers × String → Loop.Step (Pointers × String) Pointers} (hbody : Climbs parent body)
    {d : String} {l : List String} (hl : Chain parent d l) (pointers : Pointers) :
    ∃ result, Loop.EndsAfter body l.length (pointers, d) result := by
  induction hl generalizing pointers with
  | top htop => exact ⟨pointers, .done (hbody.top pointers htop)⟩
  | up hup _ ih =>
      obtain ⟨pointers', hagain⟩ := hbody.up pointers hup
      obtain ⟨result, hresult⟩ := ih pointers'
      exact ⟨result, .again hagain hresult⟩

theorem registerStep_climbs (parentOf : ParentOf) (entity : String) :
    Climbs parentOf.parent (registerStep parentOf entity) where
  up pointers hup := by
    simp only [registerStep, hup]
    exact ⟨_, rfl⟩
  top pointers htop := by simp only [registerStep, htop]

theorem unregisterStep_climbs (parentOf : ParentOf) (entity : String) :
    Climbs parentOf.parent (unregisterStep parentOf entity) where
  up pointers hup := by
    simp only [unregisterStep, hup]
    exact ⟨_, rfl⟩
  top pointers htop := by simp only [unregisterStep, htop]

/-! ## Climbing to the root -/

/-- From the domain `d` the iteration of `parent_of` visits `ancestors`: exactly the domains above
it, from the nearest to the root, none of them twice. -/
structure Hierarchy.ClimbsThrough (h : Hierarchy) (d : String) (ancestors : List String) :
    Prop where
  visits : ∀ k, walk h.parent d k = (d :: ancestors)[k]?
  mem_iff : ∀ a, a ∈ ancestors ↔ h.StrictAncestor a d
  goesUp : h.GoesUp (d :: ancestors)
  ends : (d :: ancestors).getLast? = some "ROOT"
  nodup : (d :: ancestors).Nodup

/-- **The parent map climbs to the root.** Its keys are the names of the tree. From any of them the
climb visits the ancestors in order, and the loops of `register` and `unregister` are left after as
many passes as the domain is deep, whatever the pointers are. -/
theorem parent_map_climbs (h : Hierarchy) :
    h.parentOf.entries.map Prod.fst = h.names ∧
      ∀ d ∈ h.names, ∃ ancestors depth, h.ClimbsThrough d ancestors ∧ h.depth d = some depth ∧
        ancestors.length = depth ∧ ∀ (entity : String) (pointers : Pointers),
          (∃ result, Loop.EndsAfter (registerStep h.parentOf entity) depth (pointers, d) result) ∧
          (∃ result, Loop.EndsAfter (unregisterStep h.parentOf entity) depth (pointers, d) result) ∧
          ∀ fuel, ((register h.parentOf fuel pointers entity d).isSome ↔ depth < fuel) ∧
            ((unregister h.parentOf fuel pointers entity d).isSome ↔ depth < fuel) := by
  constructor
  · rw [h.parentOf_entries, keys_parentEntries]
    rfl
  · intro d hd
    obtain ⟨l, hl, -⟩ := h.exists_chain hd
    obtain ⟨hup, -, hends⟩ := Hierarchy.rootPath_of_chain hl hd
    refine ⟨l, l.length, ⟨hl.walk_eq, fun a => ?_, hup, hends, hl.nodup⟩,
      Hierarchy.depth_of_chain hd hl, rfl, fun entity pointers => ?_⟩
    · rw [hl.mem_iff, h.ancestor_iff]
    · have hregister := (registerStep_climbs h.parentOf entity).endsAfter hl pointers
      have hunregister := (unregisterStep_climbs h.parentOf entity).endsAfter hl pointers
      refine ⟨hregister, hunregister, fun fuel => ⟨?_, ?_⟩⟩
      · exact hregister.choose_spec.isSome_iff fuel
      · exact hunregister.choose_spec.isSome_iff fuel

example : workshop.depth "QUITO" = some 3 := by decide

end Location
