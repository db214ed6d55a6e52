import Mathlib.Data.List.Sort

set_option autoImplicit false

/-! # Tables with a key

A table is a list of rows, and a key of distinct values makes it a set: however its rows are
enumerated, sorting them by the key gives one list. Choosing rows and sorting them can then be
done in either order, so that a query can filter where the rows are, or where they are put
together. When the rows are split between shards by a rule on the key, a key can be looked up in
one shard instead of all.
-/

namespace KeyedTable

open scoped List

/-- An order in which rows are enumerated: that of a query which asks for none, or of the keys of
a hash table. -/
structure Enumeration (α : Type) where
  list : List α → List α
  perm : ∀ l, (list l).Perm l

/-- The order in which they are stored. -/
def Enumeration.stored (α : Type) : Enumeration α := ⟨id, List.Perm.refl⟩

variable {α β κ : Type} [LinearOrder κ] {key : α → κ} {l l₁ l₂ : List α}

/-- The rows in the order of their keys. -/
def sortBy (key : α → κ) (l : List α) : List α := l.insertionSort fun a b => key a ≤ key b

theorem sortBy_perm (key : α → κ) (l : List α) : (sortBy key l).Perm l :=
  List.perm_insertionSort _ l

theorem sortBy_sorted (key : α → κ) (l : List α) :
    (sortBy key l).Pairwise fun a b => key a ≤ key b := by
  have htotal : Std.Total fun a b : α => key a ≤ key b := ⟨fun a b => le_total (key a) (key b)⟩
  have htrans : IsTrans α fun a b => key a ≤ key b := ⟨fun _ _ _ => le_trans⟩
  exact List.pairwise_insertionSort _ l

/-- **Rows with distinct keys are sorted in one way.** -/
theorem sorted_unique (hkeys : (l₁.map key).Nodup) (hperm : l₁.Perm l₂)
    (h₁ : l₁.Pairwise fun a b => key a ≤ key b) (h₂ : l₂.Pairwise fun a b => key a ≤ key b) :
    l₁ = l₂ := by
  refine List.Perm.eq_of_pairwise ?_ h₁ h₂ hperm
  intro a b ha hb hab hba
  exact List.inj_on_of_nodup_map hkeys ha (hperm.mem_iff.mpr hb) (le_antisymm hab hba)

omit [LinearOrder κ] in
theorem nodup_of_perm (hperm : l₁.Perm l₂) (hkeys : (l₁.map key).Nodup) : (l₂.map key).Nodup :=
  (hperm.map key).nodup_iff.mp hkeys

/-- The order in which rows were enumerated is lost. -/
theorem sortBy_eq_of_perm (hkeys : (l₁.map key).Nodup) (hperm : l₁.Perm l₂) :
    sortBy key l₁ = sortBy key l₂ := by
  apply sorted_unique (nodup_of_perm (sortBy_perm key l₁).symm hkeys)
  · calc sortBy key l₁ ~ l₁ := sortBy_perm key l₁
      _ ~ l₂ := hperm
      _ ~ sortBy key l₂ := (sortBy_perm key l₂).symm
  · exact sortBy_sorted key l₁
  · exact sortBy_sorted key l₂

/-- **Choosing rows before they are sorted is choosing them after.** -/
theorem sortBy_filter (hkeys : (l.map key).Nodup) (p : α → Bool) :
    sortBy key (l.filter p) = (sortBy key l).filter p := by
  have hfilter : ((l.filter p).map key).Nodup := hkeys.sublist (List.filter_sublist.map key)
  apply sorted_unique (nodup_of_perm (sortBy_perm key _).symm hfilter)
  · calc sortBy key (l.filter p) ~ l.filter p := sortBy_perm key _
      _ ~ (sortBy key l).filter p := ((sortBy_perm key l).filter p).symm
  · exact sortBy_sorted key _
  · exact (sortBy_sorted key l).sublist List.filter_sublist

/-- Rows that keep their keys keep their places. -/
theorem sortBy_map {key' : β → κ} {f : α → β} (hf : ∀ a, key' (f a) = key a) (l : List α) :
    sortBy key' (l.map f) = (sortBy key l).map f := by
  refine (List.map_insertionSort _ _ f l ?_).symm
  intro a _ b _
  rw [hf, hf]

/-- Rows of a table with one key are one row at most, so they are sorted. -/
theorem sorted_of_key_eq {k : κ} (h : ∀ a ∈ l, key a = k) :
    l.Pairwise fun a b => key a ≤ key b := by
  rw [List.pairwise_iff_forall_sublist]
  intro a b hab
  have ha := h a (hab.subset List.mem_cons_self)
  have hb := h b (hab.subset (List.mem_cons_of_mem a List.mem_cons_self))
  exact le_of_eq (ha.trans hb.symm)

/-! ## Shards -/

section Shards

variable {σ : Type} {route : κ → σ} {shards : List σ} {rows : σ → List α}

omit [LinearOrder κ] in
/-- A table in which each shard has distinct keys has distinct keys: no key is on two shards. -/
theorem nodup_of_routed (hshards : shards.Nodup) (hkeys : ∀ s, ((rows s).map key).Nodup)
    (hplaced : ∀ s, ∀ a ∈ rows s, route (key a) = s) : ((shards.flatMap rows).map key).Nodup := by
  induction shards with
  | nil => exact List.nodup_nil
  | cons s shards ih =>
      rw [List.nodup_cons] at hshards
      rw [List.flatMap_cons, List.map_append, List.nodup_append]
      refine ⟨hkeys s, ih hshards.2, ?_⟩
      rintro k hk _ hk' rfl
      obtain ⟨a, ha, rfl⟩ := List.mem_map.mp hk
      obtain ⟨b, hb, heq⟩ := List.mem_map.mp hk'
      obtain ⟨s', hs', hb'⟩ := List.mem_flatMap.mp hb
      -- a key on both would be routed to both
      have hsame : s' = s := by
        calc s' = route (key b) := (hplaced s' b hb').symm
          _ = route (key a) := by rw [heq]
          _ = s := hplaced s a ha
      rw [hsame] at hs'
      exact hshards.1 hs'

omit [LinearOrder κ] in
/-- **A key is looked up on the shard of the key**: no other shard has a row to add. -/
theorem filter_routed [DecidableEq κ] (hshards : shards.Nodup)
    (hplaced : ∀ s, ∀ a ∈ rows s, route (key a) = s) {k : κ} (hk : route k ∈ shards) :
    (shards.flatMap rows).filter (fun a => key a = k) =
      (rows (route k)).filter fun a => key a = k := by
  have hother : ∀ s, s ≠ route k → (rows s).filter (fun a => key a = k) = [] := by
    intro s hs
    rw [List.filter_eq_nil_iff]
    intro a ha hkey
    rw [decide_eq_true_eq] at hkey
    rw [← hkey] at hs
    exact hs (hplaced s a ha).symm
  have hothers : ∀ others : List σ, route k ∉ others →
      (others.flatMap rows).filter (fun a => key a = k) = [] := by
    intro others hnot
    rw [List.filter_flatMap, List.flatMap_eq_nil_iff]
    intro s hs
    apply hother
    rintro rfl
    exact hnot hs
  induction shards with
  | nil => cases hk
  | cons s shards ih =>
      rw [List.nodup_cons] at hshards
      rw [List.flatMap_cons, List.filter_append]
      rcases List.mem_cons.mp hk with heq | hmem
      · rw [← heq] at hshards ⊢
        rw [hothers shards hshards.1, List.append_nil]
      · have hne : s ≠ route k := by
          rintro rfl
          exact hshards.1 hmem
        rw [hother s hne, List.nil_append, ih hshards.2 hmem]

end Shards

end KeyedTable
