import Mathlib.Logic.Relation
import Mathlib.Data.List.Nodup
import Mathlib.Data.List.Perm.Subperm

/-!
# Climbing a parent map

A parent map is a partial function from a thing to the one above it. `Chain` is a climb that
ends: the ancestors from the nearest to a top. A climb repeats nothing, so its length is bounded
by the number of names, and below every ancestor the path goes down through one child
(`OnPath`).
-/

set_option autoImplicit false

namespace ParentMap

open Relation

variable {α : Type} (parent : α → Option α)

def Edge (p c : α) : Prop := parent c = some p

/-- `a` lies strictly above `d`. -/
def Ancestor (a d : α) : Prop := TransGen (Edge parent) a d

/-- `c` is the child of `a` on the path from `a` down to `d`. -/
def OnPath (d a c : α) : Prop := Edge parent a c ∧ ReflTransGen (Edge parent) c d

/-- The ancestors met by climbing from the first argument. -/
inductive Chain : α → List α → Prop where
  | top {d : α} (h : parent d = none) : Chain d []
  | up {d p : α} {l : List α} (h : parent d = some p) (rest : Chain p l) : Chain d (p :: l)

variable {parent}

/-- Where a climb from `d` past the places `l` ends. -/
def endOf (d : α) (l : List α) : α := l.getLastD d

@[simp] theorem endOf_nil (d : α) : endOf d [] = d := rfl

@[simp] theorem endOf_cons (d p : α) (l : List α) : endOf d (p :: l) = endOf p l := by
  cases l <;> rfl

/-! ## Paths -/

theorem exists_onPath_iff {d a : α} : (∃ c, OnPath parent d a c) ↔ Ancestor parent a d :=
  TransGen.head'_iff.symm

theorem OnPath.ancestor {d a c : α} (h : OnPath parent d a c) : Ancestor parent a d :=
  exists_onPath_iff.mp ⟨c, h⟩

theorem not_onPath_of_top {d a c : α} (h : parent d = none) : ¬ OnPath parent d a c := by
  rintro ⟨hedge, hreach⟩
  rcases ReflTransGen.cases_tail hreach with heq | ⟨p, -, hp⟩
  · rw [Edge, ← heq, h] at hedge
    cases hedge
  · rw [Edge, h] at hp
    cases hp

/-- The path from `a` to `d` comes through the parent of `d`. -/
theorem onPath_up {d p a c : α} (h : parent d = some p) :
    OnPath parent d a c ↔ (a = p ∧ c = d) ∨ OnPath parent p a c := by
  constructor
  · rintro ⟨hedge, hreach⟩
    rcases ReflTransGen.cases_tail hreach with heq | ⟨q, hq, hp⟩
    · subst heq
      rw [Edge, h] at hedge
      exact Or.inl ⟨(Option.some.inj hedge).symm, rfl⟩
    · rw [Edge, h] at hp
      cases hp
      exact Or.inr ⟨hedge, hq⟩
  · rintro (⟨rfl, rfl⟩ | ⟨hedge, hreach⟩)
    · exact ⟨h, ReflTransGen.refl⟩
    · exact ⟨hedge, hreach.tail h⟩

/-! ## Chains -/

theorem Chain.unique {d : α} {l l' : List α} (h : Chain parent d l) (h' : Chain parent d l') :
    l = l' := by
  induction h generalizing l' with
  | top htop =>
      cases h' with
      | top _ => rfl
      | up hup _ =>
          rw [htop] at hup
          cases hup
  | up hup _ ih =>
      cases h' with
      | top htop =>
          rw [htop] at hup
          cases hup
      | up hup' rest' =>
          rw [hup] at hup'
          cases hup'
          rw [ih rest']

theorem Chain.end_top {d : α} {l : List α} (h : Chain parent d l) :
    parent (endOf d l) = none := by
  induction h with
  | top htop => exact htop
  | up _ _ ih =>
      rw [endOf_cons]
      exact ih

/-- A chain, cut at one of its members. -/
theorem Chain.split {d p : α} {up rest : List α} (h : Chain parent d (up ++ p :: rest)) :
    parent (endOf d up) = some p ∧ Chain parent p rest := by
  induction up generalizing d with
  | nil =>
      cases h with
      | up hup hrest => exact ⟨hup, hrest⟩
  | cons a up ih =>
      cases h with
      | up _ hrest =>
          rw [endOf_cons]
          exact ih hrest

/-- The last step of a chain. -/
theorem Chain.last_step {d : α} {l : List α} (h : Chain parent d l) (hne : l ≠ []) :
    ∃ c, parent c = some (endOf d l) := by
  induction h with
  | top _ => exact absurd rfl hne
  | @up d p l hup _ ih =>
      by_cases hl : l = []
      · subst hl
        exact ⟨d, hup⟩
      · rw [endOf_cons]
        exact ih hl

/-- The chain goes on from each of its members. -/
theorem Chain.of_mem {d a : α} {l : List α} (h : Chain parent d l) (ha : a ∈ l) :
    ∃ l', Chain parent a l' ∧ l'.length < l.length := by
  induction h with
  | top _ => cases ha
  | @up d p l _ rest ih =>
      rcases List.mem_cons.mp ha with rfl | ha
      · exact ⟨l, rest, by simp⟩
      · obtain ⟨l', hl', hlt⟩ := ih ha
        refine ⟨l', hl', ?_⟩
        rw [List.length_cons]
        omega

theorem Chain.not_mem {d : α} {l : List α} (h : Chain parent d l) : d ∉ l := by
  intro hd
  obtain ⟨l', hl', hlt⟩ := h.of_mem hd
  -- the chain of `d` would be shorter than itself
  rw [h.unique hl'] at hlt
  omega

/-- **A climb repeats nothing.** -/
theorem Chain.nodup {d : α} {l : List α} (h : Chain parent d l) : (d :: l).Nodup := by
  induction h with
  | top _ => exact List.nodup_singleton _
  | up hup rest ih => exact List.nodup_cons.mpr ⟨(Chain.up hup rest).not_mem, ih⟩

/-- The members of the chain are the ancestors. -/
theorem Chain.mem_iff {d a : α} {l : List α} (h : Chain parent d l) :
    a ∈ l ↔ Ancestor parent a d := by
  rw [← exists_onPath_iff]
  induction h with
  | top htop =>
      constructor
      · intro ha
        cases ha
      · rintro ⟨c, hc⟩
        exact absurd hc (not_onPath_of_top htop)
  | @up d p l hup _ ih =>
      rw [List.mem_cons, ih]
      constructor
      · rintro (rfl | ⟨c, hc⟩)
        · exact ⟨d, (onPath_up hup).mpr (Or.inl ⟨rfl, rfl⟩)⟩
        · exact ⟨c, (onPath_up hup).mpr (Or.inr hc)⟩
      · rintro ⟨c, hc⟩
        rcases (onPath_up hup).mp hc with ⟨rfl, -⟩ | hc
        · exact Or.inl rfl
        · exact Or.inr ⟨c, hc⟩

/-- Nothing that can be climbed from is its own ancestor. -/
theorem Chain.not_onPath_self {d c : α} {l : List α} (h : Chain parent d l) :
    ¬ OnPath parent d d c := fun hc =>
  h.not_mem (h.mem_iff.mpr hc.ancestor)

/-- A chain that stays among the names is shorter than the list of names. -/
theorem Chain.length_lt {d : α} {l names : List α} (h : Chain parent d l) (hd : d ∈ names)
    (hnames : ∀ p c, parent c = some p → p ∈ names) : l.length < names.length := by
  -- `d` and its ancestors are different names of the list
  have hsub : d :: l ⊆ names := by
    intro a ha
    rcases List.mem_cons.mp ha with rfl | ha
    · exact hd
    · obtain ⟨c, hedge, -⟩ := exists_onPath_iff.mpr (h.mem_iff.mp ha)
      exact hnames a c hedge
  exact (h.nodup.subperm hsub).length_le

/-- **A way down ends** where the way up has a bounded length. -/
theorem exists_chain_down {next : α → Option α} {n : ℕ}
    (hdown : ∀ a c, next a = some c → parent c = some a)
    (hbound : ∀ d l, Chain parent d l → l.length < n) {d : α} {l : List α}
    (h : Chain parent d l) : ∃ l', Chain next d l' := by
  obtain ⟨m, hm⟩ : ∃ m, n ≤ l.length + m := ⟨n, by omega⟩
  induction m generalizing d l with
  | zero =>
      have := hbound d l h
      omega
  | succ m ih =>
      cases hnext : next d with
      | none => exact ⟨[], .top hnext⟩
      | some c =>
          obtain ⟨l', hl'⟩ := ih (.up (hdown d c hnext) h) (by
            rw [List.length_cons]
            omega)
          exact ⟨c :: l', .up hnext hl'⟩

/-! ## Rooted hierarchies -/

/-- What is reached from a root can be climbed from. -/
theorem exists_chain {root d : α} (hroot : parent root = none)
    (h : ReflTransGen (Edge parent) root d) : ∃ l, Chain parent d l := by
  induction h with
  | refl => exact ⟨[], .top hroot⟩
  | @tail p c _ hedge ih =>
      obtain ⟨l, hl⟩ := ih
      exact ⟨p :: l, .up hedge hl⟩

/-- The root is an ancestor of everything else that is reached from it. -/
theorem root_ancestor {root d : α} (h : ReflTransGen (Edge parent) root d) (hne : d ≠ root) :
    Ancestor parent root d := by
  rcases (reflTransGen_iff_eq_or_transGen.mp h) with heq | htrans
  · exact absurd heq hne
  · exact htrans

end ParentMap
