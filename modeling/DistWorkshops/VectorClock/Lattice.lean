import DistWorkshops.VectorClock.Clock
import Mathlib.Order.Lattice

/-!
# The lattice of the clocks

The functions of the source on lists of one length: the two scans of `compare_clocks` are the
componentwise order of the clocks, and the loop of `merge` computes the supremum in it. So what the
laws say is what holds in the lattice of functions to the integers.
-/

set_option autoImplicit false

namespace VectorClock

variable {n : ℕ}

/-- The order that `compare_clocks` decides. -/
def BeforeOrEqual (v1 v2 : List ℤ) : Prop :=
  listCompareClocks v1 v2 = .before ∨ listCompareClocks v1 v2 = .equal

/-- Of the clocks of its length that `a` and `b` are before or equal to, `m` is the least. -/
structure LeastUpperBound (a b m : List ℤ) : Prop where
  left : BeforeOrEqual a m
  right : BeforeOrEqual b m
  least : ∀ u, u.length = m.length → BeforeOrEqual a u → BeforeOrEqual b u → BeforeOrEqual m u

/-! ## Clocks and lists -/

theorem exists_ofFn {l : List ℤ} (h : l.length = n) : ∃ v : Clock n, List.ofFn v = l := by
  subst h
  exact ⟨l.get, List.ofFn_get l⟩

theorem beforeOrEqual_ofFn (v1 v2 : Clock n) :
    BeforeOrEqual (List.ofFn v1) (List.ofFn v2) ↔ v1 ≤ v2 := by
  rw [BeforeOrEqual, listCompareClocks_ofFn, compareClocks_eq_before, compareClocks_eq_equal]
  constructor
  · rintro (h | rfl)
    · exact h.1
    · exact le_refl v1
  · intro h
    by_cases hge : v2 ≤ v1
    · exact Or.inr (le_antisymm h hge)
    · exact Or.inl ⟨h, hge⟩

theorem merge_eq_sup (clock received : Clock n) : merge clock received = clock ⊔ received := rfl

/-- **The merge is the least upper bound.** -/
theorem merge_leastUpperBound (v1 v2 : Clock n) :
    LeastUpperBound (List.ofFn v1) (List.ofFn v2) (List.ofFn (merge v1 v2)) where
  left := (beforeOrEqual_ofFn _ _).mpr le_sup_left
  right := (beforeOrEqual_ofFn _ _).mpr le_sup_right
  least u hu h1 h2 := by
    rw [List.length_ofFn] at hu
    obtain ⟨u, rfl⟩ := exists_ofFn hu
    rw [beforeOrEqual_ofFn] at h1 h2 ⊢
    exact sup_le h1 h2

/-- A clock that is ticked is after every clock below it. -/
theorem compareClocks_tick {clock v : Clock n} (h : v ≤ clock) (pid : Fin n) :
    compareClocks (tick clock pid) v = .after := by
  rw [compareClocks_eq_after]
  exact ⟨h.trans (le_tick clock pid), not_tick_le h pid⟩

/-! ## The laws -/

/-- What `compare_clocks` says of clocks of one length. -/
structure ComparesOrder (a b c : List ℤ) : Prop where
  equal_iff : listCompareClocks a b = .equal ↔ a = b
  before_iff_after : listCompareClocks a b = .before ↔ listCompareClocks b a = .after
  before_trans : listCompareClocks a b = .before → listCompareClocks b c = .before →
    listCompareClocks a c = .before

/-- What `merge` and `tick` compute on clocks of one length; none of the calls raises. -/
structure MergesLattice (a b c : List ℤ) : Prop where
  leastUpperBound : ∃ m, listMerge a b = .ok m ∧ m.length = a.length ∧ LeastUpperBound a b m
  comm : listMerge a b = listMerge b a
  assoc : ∃ ab bc abc, listMerge a b = .ok ab ∧ listMerge b c = .ok bc ∧
    listMerge ab c = .ok abc ∧ listMerge a bc = .ok abc
  idem : listMerge a a = .ok a
  tick_after : ∀ pid < a.length, ∃ m t, listMerge a b = .ok m ∧ listTick m pid = .ok t ∧
    listCompareClocks t a = .after ∧ listCompareClocks t b = .after

theorem comparesOrder_ofFn (v1 v2 v3 : Clock n) :
    ComparesOrder (List.ofFn v1) (List.ofFn v2) (List.ofFn v3) where
  equal_iff := by
    rw [listCompareClocks_ofFn, compareClocks_eq_equal]
    exact List.ofFn_injective.eq_iff.symm
  before_iff_after := by
    rw [listCompareClocks_ofFn, listCompareClocks_ofFn, compareClocks_eq_before,
      compareClocks_eq_after]
  before_trans := by
    simp only [listCompareClocks_ofFn, compareClocks_eq_before]
    rintro ⟨h12, -⟩ ⟨h23, hnot⟩
    exact ⟨h12.trans h23, fun h31 => hnot (h31.trans h12)⟩

theorem mergesLattice_ofFn (v1 v2 v3 : Clock n) :
    MergesLattice (List.ofFn v1) (List.ofFn v2) (List.ofFn v3) where
  leastUpperBound := by
    refine ⟨_, listMerge_ofFn v1 v2, ?_, merge_leastUpperBound v1 v2⟩
    rw [List.length_ofFn, List.length_ofFn]
  comm := by
    rw [listMerge_ofFn, listMerge_ofFn, merge_eq_sup, merge_eq_sup, sup_comm]
  assoc := by
    refine ⟨_, _, _, listMerge_ofFn v1 v2, listMerge_ofFn v2 v3, listMerge_ofFn _ v3, ?_⟩
    rw [listMerge_ofFn, merge_eq_sup, merge_eq_sup, merge_eq_sup, merge_eq_sup, sup_assoc]
  idem := by
    rw [listMerge_ofFn, merge_eq_sup, sup_idem]
  tick_after := by
    intro pid hpid
    rw [List.length_ofFn] at hpid
    refine ⟨_, _, listMerge_ofFn v1 v2, listTick_ofFn _ ⟨pid, hpid⟩, ?_, ?_⟩
    · rw [listCompareClocks_ofFn]
      exact compareClocks_tick le_sup_left ⟨pid, hpid⟩
    · rw [listCompareClocks_ofFn]
      exact compareClocks_tick le_sup_right ⟨pid, hpid⟩

/-- **Comparison and merge form a lattice**, for any three clocks of one length. -/
theorem clock_lattice {a b c : List ℤ} (ha : a.length = n) (hb : b.length = n)
    (hc : c.length = n) : ComparesOrder a b c ∧ MergesLattice a b c := by
  obtain ⟨v1, rfl⟩ := exists_ofFn ha
  obtain ⟨v2, rfl⟩ := exists_ofFn hb
  obtain ⟨v3, rfl⟩ := exists_ofFn hc
  exact ⟨comparesOrder_ofFn v1 v2 v3, mergesLattice_ofFn v1 v2 v3⟩

/-- The clocks of the self-test. -/
theorem clock_lattice_three :
    ComparesOrder [1, 0, 0] [0, 1, 0] [1, 1, 0] ∧ MergesLattice [1, 0, 0] [0, 1, 0] [1, 1, 0] :=
  clock_lattice (n := 3) rfl rfl rfl

end VectorClock
