import Mathlib.Data.List.FinRange

/-!
# Round-robin runs

`n` participants act one after the other, in increasing order, for a number of rounds: the
loop `for r in range(rounds): for p in range(n): act`. The state after `r` full rounds and
the first `j` turns of the next one is `after act s r j`, so a position in a run is a pair
`(r, j)`, and `(r, n)` and `(r + 1, 0)` are the same position (`after_last`).

`after_invariant` and `after_induction` are the two induction rules of such a run,
`after_map` transports a run along a map that commutes with every turn, and `lift` turns an
action that may fail into one that stops the run at its first error.
-/

set_option autoImplicit false

namespace RoundRobin

variable {σ τ ε : Type} {n : ℕ}

/-- The turns of the participants `ps`, in that order. -/
def turns (act : Fin n → σ → σ) (ps : List (Fin n)) (s : σ) : σ :=
  ps.foldl (fun s p => act p s) s

/-- The state after `r` full rounds. -/
def rounds (act : ℕ → Fin n → σ → σ) (s : σ) : ℕ → σ
  | 0 => s
  | r + 1 => turns (act r) (List.finRange n) (rounds act s r)

/-- The state after `r` full rounds and the first `j` turns of the next round. -/
def after (act : ℕ → Fin n → σ → σ) (s : σ) (r j : ℕ) : σ :=
  turns (act r) ((List.finRange n).take j) (rounds act s r)

/-! ## Moving from one position to the next -/

section Positions

variable (act : ℕ → Fin n → σ → σ) (s : σ)

theorem after_start (r : ℕ) : after act s r 0 = rounds act s r := by
  simp [after, turns]

theorem after_zero : after act s 0 0 = s := after_start act s 0

theorem after_turn (r : ℕ) (p : Fin n) :
    after act s r (p + 1) = act r p (after act s r p) := by
  have hp : (p : ℕ) < (List.finRange n).length := by simp
  have hget : (List.finRange n)[(p : ℕ)] = p := by simp
  simp only [after, turns]
  rw [← List.take_append_getElem hp, List.foldl_append, hget]
  rfl

theorem after_full (r : ℕ) : after act s r n = rounds act s (r + 1) := by
  have htake : (List.finRange n).take n = List.finRange n :=
    List.take_of_length_le (by simp)
  rw [after, htake, rounds]

theorem after_last (r : ℕ) : after act s r n = after act s (r + 1) 0 := by
  rw [after_full, after_start]

theorem after_past (r : ℕ) {j : ℕ} (hj : n ≤ j) : after act s r j = after act s r n := by
  rw [after, after, List.take_of_length_le (by simpa using hj),
    List.take_of_length_le (by simp)]

end Positions

/-! ## Induction along a run -/

section Induction

variable {act : ℕ → Fin n → σ → σ} {s : σ}

/-- **The invariant rule with positions.** A property of a state and its position holds
everywhere when it holds at the start, every turn moves it one position on, and the end of a
round is the start of the next. -/
theorem after_induction (P : ℕ → ℕ → σ → Prop) (start : P 0 0 s)
    (turn : ∀ r (p : Fin n) t, P r p t → P r (p + 1) (act r p t))
    (wrap : ∀ r t, P r n t → P (r + 1) 0 t) :
    ∀ r j, j ≤ n → P r j (after act s r j) := by
  -- inside a round: induction on the number of turns taken
  have round : ∀ r, P r 0 (after act s r 0) → ∀ j, j ≤ n → P r j (after act s r j) := by
    intro r h0 j
    induction j with
    | zero => intro _; exact h0
    | succ j ih =>
        intro hj
        have h := turn r ⟨j, hj⟩ _ (ih (Nat.le_of_lt hj))
        rwa [← after_turn act s r ⟨j, hj⟩] at h
  -- across rounds: the end of one is the start of the next
  intro r
  induction r with
  | zero => exact round 0 (by rwa [after_zero])
  | succ r ih =>
      have h := wrap r _ (ih n (Nat.le_refl n))
      rw [after_last] at h
      exact round (r + 1) h

/-- **The invariant rule from a position on.** The property has to hold at one position only, and
holds at all later ones. -/
theorem after_induction_from (P : ℕ → ℕ → σ → Prop) {r₀ j₀ : ℕ} (hj₀ : j₀ ≤ n)
    (start : P r₀ j₀ (after act s r₀ j₀))
    (turn : ∀ r (p : Fin n) t, P r p t → P r (p + 1) (act r p t))
    (wrap : ∀ r t, P r n t → P (r + 1) 0 t) (r j : ℕ) (hj : j ≤ n)
    (hlater : r₀ < r ∨ r₀ = r ∧ j₀ ≤ j) : P r j (after act s r j) := by
  have h := @after_induction _ _ act s
    (fun r j t => t = after act s r j ∧ (r₀ < r ∨ r₀ = r ∧ j₀ ≤ j → P r j t))
    ?start ?turn ?wrap r j hj
  · exact h.2 hlater
  case start =>
    refine ⟨(after_zero act s).symm, fun hlater => ?_⟩
    obtain ⟨rfl, rfl⟩ : r₀ = 0 ∧ j₀ = 0 := by omega
    rwa [after_zero] at start
  case turn =>
    rintro r p t ⟨ht, hp⟩
    refine ⟨by rw [after_turn, ht], fun hlater => ?_⟩
    by_cases hfirst : r₀ = r ∧ j₀ = p + 1
    · -- this turn ends at the first position
      obtain ⟨rfl, rfl⟩ := hfirst
      rwa [ht, ← after_turn act s]
    · exact turn r p t (hp (by omega))
  case wrap =>
    rintro r t ⟨ht, hp⟩
    refine ⟨by rw [ht, after_last], fun hlater => ?_⟩
    by_cases hfirst : r₀ = r + 1 ∧ j₀ = 0
    · obtain ⟨rfl, rfl⟩ := hfirst
      rwa [ht, after_last]
    · exact wrap r t (hp (by omega))

/-- **The invariant rule.** What every turn preserves holds after every turn. -/
theorem after_invariant (P : σ → Prop) (start : P s)
    (turn : ∀ r (p : Fin n) t, P t → P (act r p t)) (r j : ℕ) : P (after act s r j) := by
  have h := after_induction (fun _ _ => P) start turn (fun _ _ h => h) r
  rcases Nat.le_total j n with hj | hj
  · exact h j hj
  · rw [after_past act s r hj]
    exact h n (Nat.le_refl n)

/-- A map that commutes with every turn commutes with the run. -/
theorem after_map (act : ℕ → Fin n → σ → σ) (act' : ℕ → Fin n → τ → τ) (f : σ → τ)
    (comm : ∀ r p t, f (act r p t) = act' r p (f t)) (r j : ℕ) :
    f (after act s r j) = after act' (f s) r j := by
  have h := after_induction (fun r j t => f t = after act' (f s) r j)
    (by rw [after_zero])
    (fun r p t ht => by rw [comm, ht, after_turn])
    (fun r t ht => by rw [ht, after_last]) r
  rcases Nat.le_total j n with hj | hj
  · exact h j hj
  · rw [after_past act s r hj, after_past act' (f s) r hj]
    exact h n (Nat.le_refl n)

end Induction

/-! ## Actions that may fail -/

/-- An action that may fail, run as an action on results: the first error ends the run. -/
def lift (act : ℕ → Fin n → σ → Except ε σ) (r : ℕ) (p : Fin n) (s : Except ε σ) :
    Except ε σ := s >>= act r p

/-- **The invariant rule with positions, for actions that may fail.** -/
theorem lift_induction {act : ℕ → Fin n → σ → Except ε σ} {s : σ} (P : ℕ → ℕ → σ → Prop)
    (start : P 0 0 s)
    (turn : ∀ r (p : Fin n) t, P r p t → ∃ t', act r p t = .ok t' ∧ P r (p + 1) t')
    (wrap : ∀ r t, P r n t → P (r + 1) 0 t) (r j : ℕ) (hj : j ≤ n) :
    ∃ t, after (lift act) (.ok s) r j = .ok t ∧ P r j t := by
  refine @after_induction _ _ (lift act) (.ok s) (fun r j x => ∃ t, x = Except.ok t ∧ P r j t)
    ⟨s, rfl, start⟩ ?turn ?wrap r j hj
  case turn =>
    rintro r p _ ⟨t, rfl, ht⟩
    exact turn r p t ht
  case wrap =>
    rintro r _ ⟨t, rfl, ht⟩
    exact ⟨t, rfl, wrap r t ht⟩

/-- A run that has failed stays so. -/
theorem lift_error {act : ℕ → Fin n → σ → Except ε σ} {x : Except ε σ} {e : ε} {r r' : ℕ}
    (hfail : rounds (lift act) x r = .error e) (hle : r ≤ r') :
    rounds (lift act) x r' = .error e := by
  have hstay : ∀ k (ps : List (Fin n)), turns (lift act k) ps (.error e) = .error e := by
    intro k ps
    induction ps with
    | nil => rfl
    | cons p ps ih => exact ih
  induction hle with
  | refl => exact hfail
  | @step r' _ ih => rw [rounds, ih, hstay]

/-- **The invariant rule for actions that may fail.** If every turn succeeds from a state
with the invariant and keeps it, the run never fails and keeps the invariant. -/
theorem lift_invariant {act : ℕ → Fin n → σ → Except ε σ} {s : σ} (P : σ → Prop) (start : P s)
    (turn : ∀ r p t, P t → ∃ t', act r p t = .ok t' ∧ P t') (r j : ℕ) :
    ∃ t, after (lift act) (.ok s) r j = .ok t ∧ P t := by
  refine after_invariant (fun x => ∃ t, x = Except.ok t ∧ P t) ⟨s, rfl, start⟩ ?_ r j
  rintro r p _ ⟨t, rfl, ht⟩
  exact turn r p t ht

end RoundRobin
