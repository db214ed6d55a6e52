import Mathlib.Data.Nat.Notation
import Mathlib.Order.Basic
import Mathlib.Data.List.Induction

/-!
# While loops with fuel

A loop body maps a state to the next state or leaves the loop with a result. `run body fuel`
makes at most `fuel` passes; `none` means that the fuel was used up, so a result is one that
the loop without a bound returns too (`run_mono`). `run_total` is the rule of total
correctness: an invariant, and a measure that every further pass decreases. `run_partial` needs
no measure; where it leaves no result possible, the loop does not end. `EndsAfter` counts the
passes.

A `for` loop over a list whose body may run out of fuel is `List.foldlM` in `Option`;
`for_total` is its rule, with an invariant that knows which elements are done.
-/

set_option autoImplicit false

namespace Loop

variable {σ ρ : Type}

/-- What one pass of a loop body does. -/
inductive Step (σ ρ : Type) where
  | again (s : σ)
  | done (r : ρ)

def run (body : σ → Step σ ρ) : ℕ → σ → Option ρ
  | 0, _ => none
  | fuel + 1, s =>
      match body s with
      | .again s' => run body fuel s'
      | .done r => some r

variable {body : σ → Step σ ρ}

@[simp] theorem run_zero (s : σ) : run body 0 s = none := rfl

theorem run_done {s : σ} {r : ρ} (fuel : ℕ) (h : body s = .done r) :
    run body (fuel + 1) s = some r := by
  simp only [run, h]

theorem run_again {s s' : σ} (fuel : ℕ) (h : body s = .again s') :
    run body (fuel + 1) s = run body fuel s' := by
  simp only [run, h]

/-- A result does not depend on the fuel that was left. -/
theorem run_mono {fuel fuel' : ℕ} {s : σ} {r : ρ} (h : run body fuel s = some r)
    (hle : fuel ≤ fuel') : run body fuel' s = some r := by
  induction fuel generalizing fuel' s with
  | zero => cases h
  | succ fuel ih =>
      obtain ⟨k, rfl⟩ : ∃ k, fuel' = k + 1 := ⟨fuel' - 1, by omega⟩
      -- the two runs make the same first pass
      cases hb : body s with
      | done r' =>
          rw [run_done fuel hb] at h
          rw [run_done k hb]
          exact h
      | again s' =>
          rw [run_again fuel hb] at h
          rw [run_again k hb]
          exact ih h (by omega)

/-- What one pass has to do for `inv`, `measure` and `post` to prove the loop correct. -/
def Pass (inv : σ → Prop) (measure : σ → ℕ) (post : ρ → Prop) (s : σ) : Step σ ρ → Prop
  | .again s' => inv s' ∧ measure s' < measure s
  | .done r => post r

/-- **Total correctness.** If every pass from a state with the invariant leaves with a good
result, or keeps the invariant and decreases the measure, then more fuel than the measure is
enough for a good result. -/
theorem run_total (inv : σ → Prop) (measure : σ → ℕ) (post : ρ → Prop)
    (pass : ∀ s, inv s → Pass inv measure post s (body s)) {s : σ} (hs : inv s) {fuel : ℕ}
    (hfuel : measure s < fuel) : ∃ r, run body fuel s = some r ∧ post r := by
  induction fuel generalizing s with
  | zero => omega
  | succ fuel ih =>
      have hp := pass s hs
      cases hb : body s with
      | done r =>
          rw [hb] at hp
          exact ⟨r, run_done fuel hb, hp⟩
      | again s' =>
          rw [hb] at hp
          rw [run_again fuel hb]
          exact ih hp.1 (Nat.lt_of_lt_of_le hp.2 (Nat.le_of_lt_succ hfuel))

/-- **Partial correctness.** If every pass from a state with the invariant leaves with a good
result, or keeps the invariant, then there is no other result. -/
theorem run_partial (inv : σ → Prop) (post : ρ → Prop)
    (again : ∀ s s', inv s → body s = .again s' → inv s')
    (done : ∀ s r, inv s → body s = .done r → post r) {s : σ} (hs : inv s) {fuel : ℕ} {r : ρ}
    (h : run body fuel s = some r) : post r := by
  induction fuel generalizing s with
  | zero => cases h
  | succ fuel ih =>
      cases hb : body s with
      | done r' =>
          rw [run_done fuel hb] at h
          cases h
          exact done s _ hs hb
      | again s' =>
          rw [run_again fuel hb] at h
          exact ih (again s s' hs hb) h

/-! ## The number of passes -/

/-- From `s` the loop makes `k` passes that go on, and the next one leaves it with `r`. -/
inductive EndsAfter (body : σ → Step σ ρ) : ℕ → σ → ρ → Prop where
  | done {s : σ} {r : ρ} (h : body s = .done r) : EndsAfter body 0 s r
  | again {k : ℕ} {s s' : σ} {r : ρ} (h : body s = .again s') (rest : EndsAfter body k s' r) :
      EndsAfter body (k + 1) s r

theorem EndsAfter.run_eq {k : ℕ} {s : σ} {r : ρ} (h : EndsAfter body k s r) (fuel : ℕ) :
    run body fuel s = if k < fuel then some r else none := by
  induction h generalizing fuel with
  | done hdone =>
      cases fuel with
      | zero => rfl
      | succ fuel => rw [run_done fuel hdone, if_pos (Nat.succ_pos fuel)]
  | again hagain _ ih =>
      cases fuel with
      | zero => rfl
      | succ fuel =>
          rw [run_again fuel hagain, ih]
          simp only [Nat.add_lt_add_iff_right]

/-- The fuel for `k` passes and the last one is enough, and less is not. -/
theorem EndsAfter.isSome_iff {k : ℕ} {s : σ} {r : ρ} (h : EndsAfter body k s r) (fuel : ℕ) :
    (run body fuel s).isSome ↔ k < fuel := by
  rw [h.run_eq fuel]
  by_cases hk : k < fuel
  · rw [if_pos hk]
    exact iff_of_true rfl hk
  · rw [if_neg hk]
    exact iff_of_false (by simp) hk

/-! ## For loops -/

/-- **For loops.** If the body, on each element in turn, ends and keeps the invariant, then the
loop ends with the invariant for the whole list. -/
theorem for_total {α : Type} {f : σ → α → Option σ} (inv : List α → σ → Prop) {xs : List α}
    (pass : ∀ done x s, done ++ [x] <+: xs → inv done s →
      ∃ s', f s x = some s' ∧ inv (done ++ [x]) s') {s : σ} (h : inv [] s) :
    ∃ s', xs.foldlM f s = some s' ∧ inv xs s' := by
  induction xs using List.reverseRecOn with
  | nil => exact ⟨s, rfl, h⟩
  | append_singleton xs x ih =>
      -- the elements before the last one are a prefix of the whole list
      obtain ⟨s', hs', hinv⟩ := ih fun done y s₁ hpre =>
        pass done y s₁ (hpre.trans (List.prefix_append xs [x]))
      obtain ⟨s'', hs'', hinv'⟩ := pass xs x s' List.prefix_rfl hinv
      refine ⟨s'', ?_, hinv'⟩
      rw [List.foldlM_append, hs']
      show [x].foldlM f s' = some s''
      rw [List.foldlM_cons, hs'']
      rfl

end Loop
