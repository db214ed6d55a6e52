import DistWorkshops.Lib.Dict
import DistWorkshops.Lib.ParentMap

/-!
# The domain tree

The tree of the location service, a dictionary of dictionaries in the source, and the parent
map that `build_parents` makes of it. A `Hierarchy` is a tree with distinct names. Its parent
map has exactly the edges of the tree, and every name can be climbed from.
-/

set_option autoImplicit false

namespace Location

open Relation

/-- A node of the tree: its children by name. -/
inductive Domain where
  | node (children : List (String × Domain))

mutual

/-- The names of a subtree, in the order of the recursion of `build_parents`. -/
def names (name : String) : Domain → List String
  | .node children => name :: childrenNames children

def childrenNames : List (String × Domain) → List String
  | [] => []
  | (childName, childNode) :: rest => names childName childNode ++ childrenNames rest

end

/-- In the subtree of a node under its name, `c` is a child of `p`. -/
inductive Child : String → Domain → String → String → Prop where
  | here {name c : String} {children : List (String × Domain)} {sub : Domain}
      (h : (c, sub) ∈ children) : Child name (.node children) name c
  | inside {name n p c : String} {children : List (String × Domain)} {sub : Domain}
      (h : (n, sub) ∈ children) (hsub : Child n sub p c) : Child name (.node children) p c

/-- The parent map: the root has the entry `None`. -/
abbrev ParentOf := Dict String (Option String)

mutual

def buildParents (parentOf : ParentOf) (name : String) (parent : Option String) :
    Domain → ParentOf
  | .node children => buildChildren (parentOf.set name parent) name children

/-- The loop of `build_parents` over the children of the node `name`. -/
def buildChildren (parentOf : ParentOf) (name : String) : List (String × Domain) → ParentOf
  | [] => parentOf
  | (childName, childNode) :: rest =>
      buildChildren (buildParents parentOf childName (some name) childNode) name rest

end

/-- `parent_of.get(current)`. -/
def ParentOf.parent (parentOf : ParentOf) (current : String) : Option String :=
  (parentOf.get? current).join

/-- A domain tree with distinct names, under the root name of the source. -/
structure Hierarchy where
  tree : Domain
  distinct : (names "ROOT" tree).Nodup

namespace Hierarchy

def names (h : Hierarchy) : List String := Location.names "ROOT" h.tree

def parentOf (h : Hierarchy) : ParentOf := buildParents Dict.empty "ROOT" none h.tree

def Child (h : Hierarchy) (p c : String) : Prop := Location.Child "ROOT" h.tree p c

/-- `a` lies strictly above `d` in the tree. -/
def StrictAncestor (h : Hierarchy) (a d : String) : Prop := TransGen h.Child a d

/-- `c` is the child of `a` on the path of the tree from `a` down to `d`. -/
def ChildOnPath (h : Hierarchy) (a d c : String) : Prop :=
  h.Child a c ∧ ReflTransGen h.Child c d

end Hierarchy

/-! ## The entries of the parent map -/

mutual

/-- The entries that `build_parents` writes for a subtree, in order. -/
def parentEntries (name : String) (parent : Option String) :
    Domain → List (String × Option String)
  | .node children => (name, parent) :: childrenEntries name children

def childrenEntries (name : String) : List (String × Domain) → List (String × Option String)
  | [] => []
  | (childName, childNode) :: rest =>
      parentEntries childName (some name) childNode ++ childrenEntries name rest

end

mutual

theorem keys_parentEntries (name : String) (parent : Option String) (node : Domain) :
    (parentEntries name parent node).map Prod.fst = names name node := by
  obtain ⟨children⟩ := node
  rw [parentEntries, names, List.map_cons, keys_childrenEntries name children]

theorem keys_childrenEntries (name : String) (children : List (String × Domain)) :
    (childrenEntries name children).map Prod.fst = childrenNames children := by
  match children with
  | [] => rfl
  | (childName, childNode) :: rest =>
      rw [childrenEntries, childrenNames, List.map_append,
        keys_parentEntries childName (some name) childNode, keys_childrenEntries name rest]

end

mutual

/-- **`build_parents` appends its entries**, when no name is taken. -/
theorem buildParents_entries (parentOf : ParentOf) (name : String) (parent : Option String)
    (node : Domain) (h : (parentOf.entries.map Prod.fst ++ names name node).Nodup) :
    (buildParents parentOf name parent node).entries =
      parentOf.entries ++ parentEntries name parent node := by
  obtain ⟨children⟩ := node
  rw [names] at h
  -- the name is free, so the assignment appends its entry
  have hnew : name ∉ parentOf.entries.map Prod.fst := fun hmem =>
    (List.nodup_append'.mp h).2.2 hmem List.mem_cons_self
  have hset : (parentOf.set name parent).entries = parentOf.entries ++ [(name, parent)] :=
    Dict.assign_of_not_mem parent hnew
  have hrest : ((parentOf.set name parent).entries.map Prod.fst
      ++ childrenNames children).Nodup := by
    rw [hset, List.map_append, List.append_assoc]
    exact h
  rw [buildParents, parentEntries, buildChildren_entries _ name children hrest, hset,
    List.append_assoc, List.singleton_append]

theorem buildChildren_entries (parentOf : ParentOf) (name : String)
    (children : List (String × Domain))
    (h : (parentOf.entries.map Prod.fst ++ childrenNames children).Nodup) :
    (buildChildren parentOf name children).entries =
      parentOf.entries ++ childrenEntries name children := by
  match children with
  | [] => rw [buildChildren, childrenEntries, List.append_nil]
  | (childName, childNode) :: rest =>
      rw [childrenNames, ← List.append_assoc] at h
      have hchild := buildParents_entries parentOf childName (some name) childNode
        (List.Nodup.of_append_left h)
      have hrest : ((buildParents parentOf childName (some name) childNode).entries.map Prod.fst
          ++ childrenNames rest).Nodup := by
        rw [hchild, List.map_append, keys_parentEntries]
        exact h
      rw [buildChildren, childrenEntries, buildChildren_entries _ name rest hrest, hchild,
        List.append_assoc]

end

/-! ## Entries and edges -/

mutual

/-- The entries for a subtree are its edges, and the entry of its top. -/
theorem mem_parentEntries_iff (name p c : String) (parent : Option String) (node : Domain) :
    (c, some p) ∈ parentEntries name parent node ↔
      (c = name ∧ parent = some p) ∨ Child name node p c := by
  obtain ⟨children⟩ := node
  rw [parentEntries, List.mem_cons, mem_childrenEntries_iff name p c children, Prod.mk.injEq]
  refine or_congr (and_congr_right fun _ => eq_comm) ?_
  constructor
  · rintro ⟨n, sub, hmem, (⟨rfl, rfl⟩ | hsub)⟩
    · exact Child.here hmem
    · exact Child.inside hmem hsub
  · intro h
    cases h with
    | here hmem => exact ⟨c, _, hmem, Or.inl ⟨rfl, rfl⟩⟩
    | inside hmem hsub => exact ⟨_, _, hmem, Or.inr hsub⟩

theorem mem_childrenEntries_iff (name p c : String) (children : List (String × Domain)) :
    (c, some p) ∈ childrenEntries name children ↔
      ∃ n sub, (n, sub) ∈ children ∧ ((c = n ∧ name = p) ∨ Child n sub p c) := by
  match children with
  | [] => simp [childrenEntries]
  | (childName, childNode) :: rest =>
      rw [childrenEntries, List.mem_append, mem_childrenEntries_iff name p c rest,
        mem_parentEntries_iff childName p c (some name) childNode, Option.some.injEq]
      constructor
      · rintro (h | ⟨n, sub, hmem, h⟩)
        · exact ⟨childName, childNode, List.mem_cons_self, h⟩
        · exact ⟨n, sub, List.mem_cons_of_mem _ hmem, h⟩
      · rintro ⟨n, sub, hmem, h⟩
        rcases List.mem_cons.mp hmem with heq | hmem
        · cases heq
          exact Or.inl h
        · exact Or.inr ⟨n, sub, hmem, h⟩

end

theorem root_mem_names (name : String) (node : Domain) : name ∈ names name node := by
  obtain ⟨children⟩ := node
  exact List.mem_cons_self

mutual

/-- Every name of a subtree is reached from its top. -/
theorem reach_of_mem_names (name n : String) (node : Domain) (h : n ∈ names name node) :
    ReflTransGen (Child name node) name n := by
  obtain ⟨children⟩ := node
  rcases List.mem_cons.mp h with rfl | h
  · exact ReflTransGen.refl
  · obtain ⟨c, sub, hmem, hreach⟩ := reach_of_mem_childrenNames n children h
    refine ReflTransGen.head (Child.here hmem) ?_
    exact ReflTransGen.mono (fun _ _ hchild => Child.inside hmem hchild) _ _ hreach

theorem reach_of_mem_childrenNames (n : String) (children : List (String × Domain))
    (h : n ∈ childrenNames children) :
    ∃ c sub, (c, sub) ∈ children ∧ ReflTransGen (Child c sub) c n := by
  match children with
  | [] => cases h
  | (childName, childNode) :: rest =>
      rcases List.mem_append.mp h with h | h
      · exact ⟨childName, childNode, List.mem_cons_self,
          reach_of_mem_names childName n childNode h⟩
      · obtain ⟨c, sub, hmem, hreach⟩ := reach_of_mem_childrenNames n rest h
        exact ⟨c, sub, List.mem_cons_of_mem _ hmem, hreach⟩

end

theorem mem_childrenNames {n x : String} {sub : Domain} {children : List (String × Domain)}
    (hmem : (n, sub) ∈ children) (hx : x ∈ names n sub) : x ∈ childrenNames children := by
  induction children with
  | nil => cases hmem
  | cons child rest ih =>
      obtain ⟨childName, childNode⟩ := child
      rw [childrenNames, List.mem_append]
      rcases List.mem_cons.mp hmem with heq | hmem
      · cases heq
        exact Or.inl hx
      · exact Or.inr (ih hmem)

/-- The edges of a subtree lie between its names. -/
theorem Child.mem_names {name p c : String} {node : Domain} (h : Child name node p c) :
    p ∈ names name node ∧ c ∈ names name node := by
  induction h with
  | here hmem =>
      exact ⟨List.mem_cons_self,
        List.mem_cons_of_mem _ (mem_childrenNames hmem (root_mem_names _ _))⟩
  | inside hmem _ ih =>
      exact ⟨List.mem_cons_of_mem _ (mem_childrenNames hmem ih.1),
        List.mem_cons_of_mem _ (mem_childrenNames hmem ih.2)⟩

/-! ## The parent map of a hierarchy -/

namespace Hierarchy

variable (h : Hierarchy)

/-- The `parent` function of the hierarchy. -/
def parent (current : String) : Option String := h.parentOf.parent current

theorem parentOf_entries : h.parentOf.entries = parentEntries "ROOT" none h.tree := by
  have hnodup : ((Dict.empty : ParentOf).entries.map Prod.fst
      ++ Location.names "ROOT" h.tree).Nodup := h.distinct
  rw [parentOf, buildParents_entries _ _ _ _ hnodup]
  rfl

/-- **The parent map has the edges of the tree.** -/
theorem parent_eq_some_iff (p c : String) : h.parent c = some p ↔ h.Child p c := by
  rw [parent, ParentOf.parent, Option.join_eq_some_iff, Dict.get?_eq_some_iff,
    parentOf_entries, mem_parentEntries_iff]
  constructor
  · -- the entry of the root is `None`, no edge
    rintro (⟨-, hnone⟩ | hchild)
    · cases hnone
    · exact hchild
  · exact Or.inr

theorem edge_eq_child : ParentMap.Edge h.parent = h.Child := by
  funext p c
  exact propext (h.parent_eq_some_iff p c)

theorem parent_root : h.parent "ROOT" = none := by
  have hentry : h.parentOf.get? "ROOT" = some none := by
    rw [Dict.get?_eq_some_iff, parentOf_entries]
    obtain ⟨⟨children⟩, -⟩ := h
    exact List.mem_cons_self
  rw [parent, ParentOf.parent, hentry]
  rfl

theorem reach_of_mem {d : String} (hd : d ∈ h.names) : ReflTransGen h.Child "ROOT" d :=
  reach_of_mem_names "ROOT" d h.tree hd

/-- **Every name can be climbed from**, in fewer steps than there are names. -/
theorem exists_chain {d : String} (hd : d ∈ h.names) :
    ∃ l, ParentMap.Chain h.parent d l ∧ l.length < h.names.length := by
  have hreach := h.reach_of_mem hd
  rw [← edge_eq_child] at hreach
  obtain ⟨l, hl⟩ := ParentMap.exists_chain h.parent_root hreach
  refine ⟨l, hl, hl.length_lt hd ?_⟩
  intro p c hparent
  exact ((h.parent_eq_some_iff p c).mp hparent).mem_names.1

/-- No climb is as long as the list of names. -/
theorem chain_length_lt {d : String} {l : List String} (hl : ParentMap.Chain h.parent d l) :
    l.length < h.names.length := by
  cases hl with
  | top _ => exact List.length_pos_of_mem (root_mem_names "ROOT" h.tree)
  | up hup rest =>
      have hd := ((h.parent_eq_some_iff _ _).mp hup).mem_names.2
      obtain ⟨l', hl', hlen⟩ := h.exists_chain hd
      rw [(ParentMap.Chain.up hup rest).unique hl']
      exact hlen

/-- **Everything can be climbed from**; what is no name of the tree has nothing above it. -/
theorem chain_total (d : String) : ∃ l, ParentMap.Chain h.parent d l := by
  by_cases hd : d ∈ h.names
  · obtain ⟨l, hl, -⟩ := h.exists_chain hd
    exact ⟨l, hl⟩
  · cases hup : h.parent d with
    | none => exact ⟨[], .top hup⟩
    | some p => exact absurd ((h.parent_eq_some_iff p d).mp hup).mem_names.2 hd

theorem onPath_iff (d a c : String) :
    ParentMap.OnPath h.parent d a c ↔ h.ChildOnPath a d c := by
  rw [ParentMap.OnPath, ChildOnPath, edge_eq_child]

theorem ancestor_iff (a d : String) :
    ParentMap.Ancestor h.parent a d ↔ h.StrictAncestor a d := by
  rw [ParentMap.Ancestor, StrictAncestor, edge_eq_child]

end Hierarchy

end Location
