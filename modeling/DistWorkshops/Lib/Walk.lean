import DistWorkshops.Lib.ParentMap
import Mathlib.Data.Set.Card
import Mathlib.Data.Set.Finite.List
import Mathlib.Data.Fintype.Pigeonhole

/-!
# Walks along pointers

As in `Shortcut`, a partial function is a map of pointers. `walk` follows them for a number of
steps. A walk that ends is a `Chain`. If the pointers are at finitely many places, a walk that does
not end comes back to a place where it has been (`exists_repeat`), and goes round there: it never
repeats a place exactly when it ends, and enters a cycle exactly when it does not.
-/

set_option autoImplicit false

namespace ParentMap

open Relation

variable {α : Type} (next : α → Option α)

/-- There is a pointer from `a` to `b`. -/
def Points (a b : α) : Prop := next a = some b

/-- The place after `k` steps from `x`, if the walk gets that far. -/
def walk (x : α) : ℕ → Option α
  | 0 => some x
  | k + 1 => (walk x k).bind next

/-- No place is met after two numbers of steps. -/
def NeverRepeats (x : α) : Prop :=
  ∀ i j a, walk next x i = some a → walk next x j = some a → i = j

/-- The walk comes to a place from which the pointers lead back to it. -/
def EntersCycle (x : α) : Prop :=
  ∃ c, ReflTransGen (Points next) x c ∧ TransGen (Points next) c c

variable {next} {x y a : α} {l keys : List α}

@[simp] theorem walk_zero (x : α) : walk next x 0 = some x := rfl

theorem walk_succ {k : ℕ} (h : walk next x k = some a) : walk next x (k + 1) = next a := by
  rw [walk, h, Option.bind_some]

/-- A walk goes on from each place on it. -/
theorem walk_add {i : ℕ} (h : walk next x i = some a) (k : ℕ) :
    walk next x (i + k) = walk next a k := by
  induction k with
  | zero => exact h
  | succ k ih => rw [← Nat.add_assoc, walk, walk, ih]

/-- The first step of a walk. -/
theorem walk_step (h : next x = some y) (k : ℕ) : walk next x (k + 1) = walk next y k := by
  rw [Nat.add_comm]
  apply walk_add
  rw [walk_succ (walk_zero x), h]

/-! ## Walks and reachability -/

theorem reach_of_walk {k : ℕ} (h : walk next x k = some a) : ReflTransGen (Points next) x a := by
  induction k generalizing a with
  | zero =>
      obtain rfl := Option.some.inj h
      exact ReflTransGen.refl
  | succ k ih =>
      obtain ⟨b, hb, hba⟩ := Option.bind_eq_some_iff.mp h
      exact (ih hb).tail hba

theorem exists_walk_of_reach (h : ReflTransGen (Points next) x a) :
    ∃ k, walk next x k = some a := by
  induction h with
  | refl => exact ⟨0, rfl⟩
  | tail _ hbc ih =>
      obtain ⟨k, hk⟩ := ih
      exact ⟨k + 1, (walk_succ hk).trans hbc⟩

/-- A place that is met twice is on a cycle. -/
theorem transGen_of_repeat {i j : ℕ} (hij : i < j) (hi : walk next x i = some a)
    (hj : walk next x j = some a) : TransGen (Points next) a a := by
  obtain ⟨k, rfl⟩ : ∃ k, j = i + (k + 1) := ⟨j - i - 1, by omega⟩
  rw [walk_add hi] at hj
  obtain ⟨b, hb, hba⟩ := Option.bind_eq_some_iff.mp hj
  exact TransGen.tail' (reach_of_walk hb) hba

/-! ## Walks that end -/

theorem Chain.walk_eq (h : Chain next x l) (k : ℕ) : walk next x k = (x :: l)[k]? := by
  induction h generalizing k with
  | @top x htop =>
      cases k with
      | zero => rfl
      | succ k =>
          -- nothing comes after the end
          have hone : walk next x 1 = none := (walk_succ (walk_zero x)).trans htop
          have hnone : walk next x (k + 1) = none := by
            induction k with
            | zero => exact hone
            | succ k ih => rw [walk, ih, Option.bind_none]
          rw [hnone]
          rfl
  | @up x p l hup _ ih =>
      cases k with
      | zero => rfl
      | succ k => rw [walk_step hup, ih, List.getElem?_cons_succ]

/-- A walk that ends repeats nothing. -/
theorem Chain.neverRepeats (h : Chain next x l) : NeverRepeats next x := by
  intro i j a hi hj
  rw [h.walk_eq] at hi hj
  have hlt : i < (x :: l).length := (List.getElem?_eq_some_iff.mp hi).1
  exact (List.getElem?_inj hlt h.nodup).mp (hi.trans hj.symm)

/-- The walk from `x` is a chain as soon as it comes to a place without a pointer. -/
theorem exists_chain_of_walk {k : ℕ} (h : walk next x k = some a) (ha : next a = none) :
    ∃ l, Chain next x l := by
  induction k generalizing x with
  | zero =>
      obtain rfl := Option.some.inj h
      exact ⟨[], .top ha⟩
  | succ k ih =>
      cases hx : next x with
      | none => exact ⟨[], .top hx⟩
      | some y =>
          rw [walk_step hx] at h
          obtain ⟨l, hl⟩ := ih h
          exact ⟨y :: l, .up hx hl⟩

/-- The places of a chain but its end are those with a pointer that are reached. -/
theorem Chain.mem_dropLast_iff (h : Chain next x l) :
    a ∈ (x :: l).dropLast ↔ next a ≠ none ∧ ReflTransGen (Points next) x a := by
  induction h with
  | @top x htop =>
      constructor
      · intro ha
        cases ha
      · rintro ⟨ha, hreach⟩
        rcases ReflTransGen.cases_head hreach with rfl | ⟨b, hb, -⟩
        · exact absurd htop ha
        · rw [Points, htop] at hb
          cases hb
  | @up x p l hup _ ih =>
      rw [List.dropLast_cons_of_ne_nil (List.cons_ne_nil p l), List.mem_cons, ih]
      constructor
      · rintro (rfl | ⟨ha, hreach⟩)
        · exact ⟨by rw [hup]; exact Option.some_ne_none p, ReflTransGen.refl⟩
        · exact ⟨ha, ReflTransGen.head hup hreach⟩
      · rintro ⟨ha, hreach⟩
        rcases ReflTransGen.cases_head hreach with rfl | ⟨b, hb, hreach⟩
        · exact Or.inl rfl
        · rw [Points, hup] at hb
          cases hb
          exact Or.inr ⟨ha, hreach⟩

/-- The number of steps to the end is the number of places with a pointer that are met. -/
theorem Chain.ncard_passed (h : Chain next x l) :
    {a | next a ≠ none ∧ ReflTransGen (Points next) x a}.ncard = l.length := by
  classical
  have hset : {a | next a ≠ none ∧ ReflTransGen (Points next) x a}
      = ((x :: l).dropLast.toFinset : Set α) := by
    ext a
    rw [Finset.mem_coe, List.mem_toFinset, h.mem_dropLast_iff]
    exact Iff.rfl
  have hnodup : (x :: l).dropLast.Nodup := h.nodup.sublist (List.dropLast_sublist _)
  rw [hset, Set.ncard_coe_finset, List.toFinset_card_of_nodup hnodup, List.length_dropLast,
    List.length_cons, Nat.add_sub_cancel]

/-! ## Walks that do not end -/

/-- A walk that does not end gets everywhere. -/
theorem walk_isSome (h : ¬ ∃ l, Chain next x l) (k : ℕ) :
    ∃ a b, walk next x k = some a ∧ next a = some b := by
  have hpointer : ∀ {k a}, walk next x k = some a → ∃ b, next a = some b := by
    intro k a hk
    cases ha : next a with
    | none => exact absurd (exists_chain_of_walk hk ha) h
    | some b => exact ⟨b, rfl⟩
  induction k with
  | zero =>
      obtain ⟨b, hb⟩ := hpointer (walk_zero x)
      exact ⟨x, b, rfl, hb⟩
  | succ k ih =>
      obtain ⟨a, b, hk, hab⟩ := ih
      have hsucc : walk next x (k + 1) = some b := (walk_succ hk).trans hab
      obtain ⟨c, hbc⟩ := hpointer hsucc
      exact ⟨b, c, hsucc, hbc⟩

/-- **A walk over finitely many places that does not end meets one of them twice.** -/
theorem exists_repeat (hkeys : ∀ a b, next a = some b → a ∈ keys)
    (h : ¬ ∃ l, Chain next x l) :
    ∃ i j a, i < j ∧ walk next x i = some a ∧ walk next x j = some a := by
  choose place target hplace htarget using walk_isSome h
  have hmem : ∀ k, place k ∈ {a | a ∈ keys} := fun k => hkeys _ _ (htarget k)
  obtain ⟨i, j, hij, heq⟩ :=
    Set.Finite.exists_lt_map_eq_of_forall_mem hmem (List.finite_toSet keys)
  refine ⟨i, j, place i, hij, hplace i, ?_⟩
  rw [heq]
  exact hplace j

/-- A walk that enters a cycle repeats a place. -/
theorem EntersCycle.not_neverRepeats (h : EntersCycle next x) : ¬ NeverRepeats next x := by
  obtain ⟨c, hreach, hcycle⟩ := h
  intro hnever
  obtain ⟨i, hi⟩ := exists_walk_of_reach hreach
  obtain ⟨b, hcb, hbc⟩ := TransGen.tail'_iff.mp hcycle
  obtain ⟨k, hk⟩ := exists_walk_of_reach hcb
  have hround : walk next x (i + (k + 1)) = some c := by
    rw [walk_add hi, walk_succ hk]
    exact hbc
  have heq := hnever i (i + (k + 1)) c hi hround
  omega

/-- **A walk ends exactly when it never repeats a place.** -/
theorem exists_chain_iff_neverRepeats (hkeys : ∀ a b, next a = some b → a ∈ keys) :
    (∃ l, Chain next x l) ↔ NeverRepeats next x := by
  constructor
  · rintro ⟨l, hl⟩
    exact hl.neverRepeats
  · intro hnever
    by_contra h
    obtain ⟨i, j, a, hij, hi, hj⟩ := exists_repeat hkeys h
    have heq := hnever i j a hi hj
    omega

/-- **A walk does not end exactly when it enters a cycle.** -/
theorem not_exists_chain_iff_entersCycle (hkeys : ∀ a b, next a = some b → a ∈ keys) :
    (¬ ∃ l, Chain next x l) ↔ EntersCycle next x := by
  constructor
  · intro h
    obtain ⟨i, j, a, hij, hi, hj⟩ := exists_repeat hkeys h
    exact ⟨a, reach_of_walk hi, transGen_of_repeat hij hi hj⟩
  · rintro hcycle ⟨l, hl⟩
    exact hcycle.not_neverRepeats hl.neverRepeats

end ParentMap
