import DistWorkshops.Lib.Walk

/-!
# Shortening climbs

Here a partial function is a map of pointers, and a `Chain` is what one passes on the way from a
place to the end of the pointers. A shortcut lets a place point to its end at once. It keeps the
end of every other place and makes no way longer: a way through the place leaves the old one
there. What is not on the way can be removed.
-/

set_option autoImplicit false

namespace ParentMap

open Relation

variable {α : Type} {next : α → Option α} {x y : α} {l : List α}

/-- The places of a climb but its end are where there is a pointer, so they are at most as many
as the pointers. -/
theorem Chain.length_le {keys : List α} (h : Chain next x l)
    (hkeys : ∀ a b, next a = some b → a ∈ keys) : l.length ≤ keys.length := by
  have hsub : ∀ a ∈ (x :: l).dropLast, a ∈ keys := by
    intro a ha
    obtain ⟨b, hab⟩ := Option.ne_none_iff_exists'.mp (h.mem_dropLast_iff.mp ha).1
    exact hkeys a b hab
  have hnodup : (x :: l).dropLast.Nodup := h.nodup.sublist (List.dropLast_sublist _)
  have hle := (hnodup.subperm hsub).length_le
  rw [List.length_dropLast, List.length_cons, Nat.add_sub_cancel] at hle
  exact hle

/-- The end of a way is no place with a pointer, so not where the way begins. -/
theorem Chain.end_ne (h : Chain next x l) (hx : next x ≠ none) : endOf x l ≠ x := by
  intro heq
  apply hx
  have htop := h.end_top
  rw [heq] at htop
  exact htop

/-- A place that points to an end is one hop away from it. -/
theorem chain_one_hop {e : α} (hx : next x = some e) (he : next e = none) :
    Chain next x [e] := .up hx (.top he)

section Shortcut

variable [DecidableEq α]

/-- The pointers after a shortcut at `x`, whose way ends past the places `l`. -/
def shortcut (next : α → Option α) (x : α) (l : List α) : α → Option α :=
  Function.update next x (some (endOf x l))

/-- After a shortcut the place is one hop away from its end. -/
theorem Chain.shortcut_self (h : Chain next x l) (hx : next x ≠ none) :
    Chain (shortcut next x l) x [endOf x l] := by
  apply chain_one_hop
  · exact Function.update_self x _ next
  · rw [shortcut, Function.update_of_ne (h.end_ne hx)]
    exact h.end_top

/-- **A shortcut keeps every end and makes no way longer.** -/
theorem Chain.shortcut_other (h : Chain next x l) (hx : next x ≠ none) {ly : List α}
    (hy : Chain next y ly) : ∃ ly', Chain (shortcut next x l) y ly' ∧
      endOf y ly' = endOf y ly ∧ ly'.length ≤ ly.length := by
  induction hy with
  | @top y htop =>
      have hne : y ≠ x := by
        rintro rfl
        exact hx htop
      refine ⟨[], .top ?_, rfl, Nat.le_refl 0⟩
      rw [shortcut, Function.update_of_ne hne]
      exact htop
  | @up y z ly hup rest ih =>
      by_cases hne : y = x
      · -- the way comes to `x` and leaves the old one
        subst hne
        have hsame : l = z :: ly := h.unique (.up hup rest)
        refine ⟨[endOf y l], h.shortcut_self hx, ?_, ?_⟩
        · rw [endOf_cons, endOf_nil, hsame]
        · rw [List.length_singleton, List.length_cons]
          omega
      · obtain ⟨ly', hly', hend, hle⟩ := ih
        refine ⟨z :: ly', .up ?_ hly', ?_, ?_⟩
        · rw [shortcut, Function.update_of_ne hne]
          exact hup
        · rw [endOf_cons, endOf_cons, hend]
        · rw [List.length_cons, List.length_cons]
          omega

end Shortcut

/-- **A way that reaches `c` ends there**, once `c` points nowhere and the other pointers are as
before. -/
theorem chain_to_removed {next' : α → Option α} {c : α} (hc : next' c = none)
    (hother : ∀ a, a ≠ c → next' a = next a)
    (h : ReflTransGen (fun a b => next a = some b) y c) :
    ∃ ly, Chain next' y ly ∧ endOf y ly = c := by
  induction h using ReflTransGen.head_induction_on with
  | refl => exact ⟨[], .top hc, rfl⟩
  | @head a b hab _ ih =>
      by_cases ha : a = c
      · rw [ha]
        exact ⟨[], .top hc, rfl⟩
      · obtain ⟨lb, hlb, hend⟩ := ih
        refine ⟨b :: lb, .up ?_ hlb, ?_⟩
        · rw [hother a ha]
          exact hab
        · rw [endOf_cons]
          exact hend

end ParentMap
