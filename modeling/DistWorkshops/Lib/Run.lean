import Mathlib.Data.List.Basic
import Mathlib.Data.List.Induction

/-!
# Runs of a state machine

A state machine makes one total step for every act. `after` is the state at the end of a run.
A property may be asked of every step of a run, with the state before it (`Steps`), or of every
state of a run (`States`). When one step from a good state leads to a good state exactly under
a condition, the states of a run are good exactly when its steps meet the condition
(`states_iff_steps`).
-/

set_option autoImplicit false

namespace Run

variable {σ α : Type} (step : σ → α → σ) (s : σ)

/-- The state after the acts of a run. -/
def after (acts : List α) : σ := acts.foldl step s

/-- Every step of the run meets `P`, together with the state before it. -/
def Steps (P : σ → α → Prop) (acts : List α) : Prop :=
  ∀ pre act post, acts = pre ++ act :: post → P (after step s pre) act

/-- Every state of the run meets `Q`. -/
def States (Q : σ → Prop) (acts : List α) : Prop :=
  ∀ pre post, acts = pre ++ post → Q (after step s pre)

variable {step s}

@[simp] theorem after_nil : after step s [] = s := rfl

@[simp] theorem after_concat (acts : List α) (act : α) :
    after step s (acts ++ [act]) = step (after step s acts) act := by
  simp [after]

/-- **The invariant rule.** -/
theorem invariant (P : σ → Prop) (start : P s) (keep : ∀ s act, P s → P (step s act))
    (acts : List α) : P (after step s acts) := by
  induction acts using List.reverseRecOn with
  | nil => exact start
  | append_singleton acts act ih =>
      rw [after_concat]
      exact keep _ act ih

/-- Two conditions that agree under an invariant hold of the same runs. -/
theorem steps_congr {P P' : σ → α → Prop} (I : σ → Prop) (start : I s)
    (keep : ∀ s act, I s → I (step s act)) (h : ∀ s act, I s → (P s act ↔ P' s act))
    (acts : List α) : Steps step s P acts ↔ Steps step s P' acts := by
  have hall : ∀ pre act, P (after step s pre) act ↔ P' (after step s pre) act := fun pre act =>
    h _ act (invariant I start keep pre)
  unfold Steps
  simp only [hall]

/-- **Good states against good steps.** `I` is what is known of a run all of whose states have
been good; from there a step leads to a good state exactly when it meets `P`. -/
theorem states_iff_steps {P : σ → α → Prop} {Q : σ → Prop} (I : σ → Prop) (start : I s)
    (good : ∀ s, I s → Q s) (one : ∀ s act, I s → (Q (step s act) ↔ P s act))
    (keep : ∀ s act, I s → Q (step s act) → I (step s act)) (acts : List α) :
    States step s Q acts ↔ Steps step s P acts := by
  constructor
  · intro hstates
    -- while the states are good, `I` holds
    have hI : ∀ pre post, acts = pre ++ post → I (after step s pre) := by
      intro pre
      induction pre using List.reverseRecOn with
      | nil => exact fun _ _ => start
      | append_singleton pre act ih =>
          intro post hsplit
          have hq := hstates (pre ++ [act]) post hsplit
          rw [List.append_assoc] at hsplit
          rw [after_concat] at hq ⊢
          exact keep _ act (ih _ hsplit) hq
    intro pre act post hsplit
    have hq := hstates (pre ++ [act]) post (by rw [hsplit, List.append_assoc]; rfl)
    rw [after_concat] at hq
    exact (one _ act (hI pre _ hsplit)).mp hq
  · intro hsteps pre
    have hI : ∀ post, acts = pre ++ post → I (after step s pre) := by
      induction pre using List.reverseRecOn with
      | nil => exact fun _ _ => start
      | append_singleton pre act ih =>
          intro post hsplit
          rw [List.append_assoc] at hsplit
          have hi := ih _ hsplit
          rw [after_concat]
          exact keep _ act hi ((one _ act hi).mpr (hsteps pre act post hsplit))
    exact fun post hsplit => good _ (hI post hsplit)

/-! ## Steps that may not be possible -/

section MayFail

variable {step : σ → α → Option σ} {s s' : σ} {acts : List α} {P : σ → Prop}

/-- The invariant rule for runs that take possible steps only. -/
theorem invariant_foldlM (start : P s)
    (keep : ∀ s s', ∀ act ∈ acts, P s → step s act = some s' → P s')
    (h : acts.foldlM step s = some s') : P s' := by
  induction acts generalizing s with
  | nil => exact Option.some.inj h ▸ start
  | cons act acts ih =>
      obtain ⟨mid, hstep, hrest⟩ := Option.bind_eq_some_iff.mp h
      exact ih (keep s mid act List.mem_cons_self start hstep)
        (fun s s' later hlater => keep s s' later (List.mem_cons_of_mem act hlater)) hrest

/-- A run is no longer than its steps go down. -/
theorem length_foldlM (rank : σ → ℕ) (start : P s)
    (keep : ∀ s s' act, P s → step s act = some s' → P s' ∧ rank s' + 1 ≤ rank s)
    (h : acts.foldlM step s = some s') : acts.length + rank s' ≤ rank s := by
  induction acts generalizing s with
  | nil =>
      obtain rfl := Option.some.inj h
      exact Nat.le_of_eq (Nat.zero_add _)
  | cons act acts ih =>
      obtain ⟨mid, hstep, hrest⟩ := Option.bind_eq_some_iff.mp h
      obtain ⟨hmid, hdown⟩ := keep s mid act start hstep
      have hmore := ih hmid hrest
      rw [List.length_cons]
      omega

end MayFail

end Run
