import DistWorkshops.VectorClock.Demonstration

/-!
# When the simulation fails

The calls of `main` that may raise are `inboxes[pid].pop(0)`, the choice of a target and
`history[pid][0]`. With two processes a target can be chosen, and after one round every history
has a first entry. A process alone has nobody to send to, and its second turn is a SEND. So
whether `main` raises is decided by `n` and `rounds`, not by the draws.
-/

set_option autoImplicit false

namespace VectorClock

variable {n : ℕ}

/-- The simulation and the summary, for `range(n)` and `range(rounds)`. -/
def runSummary (draws : Draws n) (rounds : ℕ) : Except PyError (Report n) := do
  let s ← simulate draws rounds
  let lines ← summary s
  return ⟨s, lines⟩

theorem main_eq (n rounds : ℤ) (draws : Draws n.toNat) :
    main n rounds draws = runSummary draws rounds.toNat := rfl

theorem runSummary_ok {draws : Draws n} {rounds : ℕ} {s : Sim n} {lines : List (SummaryLine n)}
    (hrun : simulate draws rounds = .ok s) (hsummary : summary s = .ok lines) :
    runSummary draws rounds = .ok ⟨s, lines⟩ := by
  rw [runSummary, hrun]
  show (summary s >>= fun lines => pure (Report.mk s lines)) = _
  rw [hsummary]
  rfl

theorem runSummary_error {draws : Draws n} {rounds : ℕ} {e : PyError}
    (hrun : simulate draws rounds = .error e) : runSummary draws rounds = .error e := by
  rw [runSummary, hrun]
  rfl

/-! ## No process -/

theorem simulate_none (draws : Draws 0) (rounds : ℕ) : simulate draws rounds = .ok (init 0) := by
  induction rounds with
  | zero => rfl
  | succ rounds ih => exact ih

theorem none_completes (draws : Draws 0) (rounds : ℕ) :
    ∃ report, runSummary draws rounds = .ok report :=
  ⟨_, runSummary_ok (simulate_none draws rounds) rfl⟩

/-! ## One process -/

/-- The state of a process alone after its first turn. -/
def aloneOnce : Sim 1 where
  clocks := fun _ => tick (newClock 1) 0
  inboxes := fun _ => []
  turnCount := fun _ => 1
  history := fun _ => [firstEntry 0]

theorem simulate_succ_alone (draws : Draws 1) (rounds : ℕ) :
    simulate draws (rounds + 1) = simulate draws rounds >>= turn (draws rounds 0) 0 := rfl

theorem turn_alone_first (draw : Draw) : turn draw 0 (init 1) = .ok aloneOnce := by
  have hbox : (init 1).inboxes 0 = [] := rfl
  obtain ⟨s', hturn, hs⟩ := turn_local draw hbox rfl
  rw [hturn, hs]
  have hupdate : ∀ {α : Type} (f : Fin 1 → α) (x : α), Function.update f 0 x = fun _ => x := by
    intro α f x
    funext p
    obtain rfl := Subsingleton.elim 0 p
    exact Function.update_self 0 x f
  simp only [hupdate, aloneOnce, init]
  rfl

/-- The second turn of `P0` is a SEND, and there is no target. -/
theorem turn_alone_second (draw : Draw) : turn draw 0 aloneOnce = .error .indexError := rfl

theorem simulate_alone_once (draws : Draws 1) : simulate draws 1 = .ok aloneOnce := by
  rw [simulate_succ_alone]
  exact turn_alone_first (draws 0 0)

theorem simulate_alone_fails (draws : Draws 1) {rounds : ℕ} (h : 2 ≤ rounds) :
    simulate draws rounds = .error .indexError := by
  have htwo : simulate draws 2 = .error .indexError := by
    rw [simulate_succ_alone, simulate_alone_once]
    exact turn_alone_second (draws 1 0)
  exact RoundRobin.lift_error htwo h

theorem alone_completes (draws : Draws 1) {rounds : ℕ} (h : rounds ≤ 1) :
    ∃ report, runSummary draws rounds = .ok report := by
  rcases Nat.le_one_iff_eq_zero_or_eq_one.mp h with rfl | rfl
  · exact ⟨_, runSummary_ok rfl rfl⟩
  · exact ⟨_, runSummary_ok (simulate_alone_once draws) rfl⟩

/-! ## Two processes or more -/

/-- Before the first round the histories are empty. -/
theorem summary_init (hn : 2 ≤ n) : summary (init n) = .error .indexError := by
  obtain ⟨pair, rest, hpairs⟩ : ∃ pair rest, pairs n = pair :: rest :=
    List.exists_cons_of_ne_nil (List.ne_nil_of_mem (mem_pairs.mpr
      (show (⟨0, by omega⟩ : Fin n) < ⟨1, by omega⟩ from Nat.zero_lt_one)))
  have hfirst : compareFirst (init n) pair = .error .indexError := rfl
  rw [summary, hpairs, mapM_cons_error hfirst]
  rfl

theorem runSummary_none (hn : 2 ≤ n) (draws : Draws n) :
    runSummary draws 0 = .error .indexError := by
  have hrun : simulate draws 0 = .ok (init n) := rfl
  rw [runSummary, hrun]
  show (summary (init n) >>= fun lines => pure (Report.mk (init n) lines)) = _
  rw [summary_init hn]
  rfl

/-! ## All together -/

/-- The arguments for which a run ends in the summary. -/
def Completes (n rounds : ℕ) : Prop := n = 0 ∨ n = 1 ∧ rounds ≤ 1 ∨ 2 ≤ n ∧ 1 ≤ rounds

theorem runSummary_of_completes {rounds : ℕ} (h : Completes n rounds) (draws : Draws n) :
    ∃ report, runSummary draws rounds = .ok report := by
  rcases h with rfl | ⟨rfl, hrounds⟩ | ⟨hn, hrounds⟩
  · exact none_completes draws rounds
  · exact alone_completes draws hrounds
  · obtain ⟨s, lines, hrun, hsummary, -⟩ := simulate_demonstrates hn hrounds draws
    exact ⟨_, runSummary_ok hrun hsummary⟩

theorem runSummary_of_not_completes {rounds : ℕ} (h : ¬ Completes n rounds) (draws : Draws n) :
    runSummary draws rounds = .error .indexError := by
  unfold Completes at h
  by_cases hn : n = 1
  · subst hn
    exact runSummary_error (simulate_alone_fails draws (by omega))
  · have hrounds : rounds = 0 := by omega
    subst hrounds
    exact runSummary_none (by omega) draws

/-- **Exactly when the simulation fails.** Whatever is drawn, `main` completes for no process, for
one process and one round at most, and for two processes and one round at least; otherwise it
raises. -/
theorem main_completes_iff (n rounds : ℤ) (draws : Draws n.toNat) :
    ((∃ report, main n rounds draws = .ok report) ↔
        n ≤ 0 ∨ n = 1 ∧ rounds ≤ 1 ∨ 2 ≤ n ∧ 1 ≤ rounds) ∧
      (main n rounds draws = .error .indexError ↔
        n = 1 ∧ 2 ≤ rounds ∨ 2 ≤ n ∧ rounds ≤ 0) := by
  have hcond : Completes n.toNat rounds.toNat ↔
      n ≤ 0 ∨ n = 1 ∧ rounds ≤ 1 ∨ 2 ≤ n ∧ 1 ≤ rounds := by
    unfold Completes
    omega
  rw [main_eq]
  by_cases hc : Completes n.toNat rounds.toNat
  · obtain ⟨report, hreport⟩ := runSummary_of_completes hc draws
    refine ⟨iff_of_true ⟨report, hreport⟩ (hcond.mp hc), iff_of_false ?_ ?_⟩
    · intro herror
      rw [hreport] at herror
      cases herror
    · have := hcond.mp hc
      omega
  · have herror := runSummary_of_not_completes hc draws
    refine ⟨iff_of_false ?_ fun h => hc (hcond.mpr h), iff_of_true herror ?_⟩
    · rintro ⟨report, hreport⟩
      rw [herror] at hreport
      cases hreport
    · have : ¬ (n ≤ 0 ∨ n = 1 ∧ rounds ≤ 1 ∨ 2 ≤ n ∧ 1 ≤ rounds) := fun h => hc (hcond.mpr h)
      omega

end VectorClock
