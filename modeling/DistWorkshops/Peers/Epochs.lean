import DistWorkshops.Peers.Contraction
import DistWorkshops.Peers.Drift

/-!
# Epochs of peers with drift

In an epoch every node completes one cycle, in any interleaving of the acts, and every request is
answered. An epoch without drift contracts the spread of the skews by the factor `((n - 1) / n) ^ 2`
(`spread_calm`); in an epoch in which drift is due, a node drifts once, before it reads its time, so
the spread grows by at most twice the greatest drift (`spread_drift`). The errors of the samples add
at most `2 * n` times the slack to either. Drift is due in every `k`-th epoch, so for `2 ≤ k` the
spread stays bounded however many epochs there are (`spread_after_epochs`).
-/

set_option autoImplicit false

namespace Peers

open Averaging

variable {n : ℕ}

/-- No request fails in the act. -/
def DriftAct.Answered : DriftAct n → Prop
  | .sync (.unanswered _) _ _ => False
  | _ => True

instance (act : DriftAct n) : Decidable act.Answered :=
  match act with
  | .inject _ _ => isTrue trivial
  | .sync (.read _) _ _ => isTrue trivial
  | .sync (.answered _) _ _ => isTrue trivial
  | .sync (.unanswered _) _ _ => isFalse id
  | .sync (.adjust _) _ _ => isTrue trivial

/-- The epochs of the nodes of a launcher, which all have the same settings. -/
inductive Epochs (settings : Settings) (d : Drifting n) : ℕ → Drifting n → Prop where
  | start (hrest : d.AtRest 0) : Epochs settings d 0 d
  | next {m : ℕ} {mid d' : Drifting n} (before : Epochs settings d m mid)
      (events : List (ℚ × DriftAct n)) (hanswered : ∀ event ∈ events, event.2.Answered)
      (hrun : runDrift (fun _ => settings) allOthers mid events = some d')
      (hrest : d'.AtRest (m + 1)) : Epochs settings d (m + 1) d'

theorem Epochs.atRest {settings : Settings} {d d' : Drifting n} {m : ℕ}
    (h : Epochs settings d m d') : d'.AtRest m := by
  cases h with
  | start hrest => exact hrest
  | next before events hanswered hrun hrest => exact hrest

/-! ## Cycles counted from an epoch on -/

/-- The network that counts the cycles after the first `c`. -/
def Network.since (net : Network n) (c : ℕ) : Network n :=
  { net with cycles := fun i => net.cycles i - c }

section Since

variable {peers : Fin n → List (Fin n)} {slack : ℚ} {c : ℕ} {net net' : Network n} {act : Act n}

theorem Step.since (h : Step peers slack net net' act) (hc : ∀ i, c ≤ net.cycles i) :
    Step peers slack (net.since c) (net'.since c) act := by
  cases h with
  | read i hp hs => exact .read i hp (by rw [hs]; rfl)
  | answered i peer own samples todo sample hp hnear hs =>
      exact .answered i peer own samples todo sample hp hnear (by rw [hs]; rfl)
  | unanswered i peer own samples todo hp hs =>
      exact .unanswered i peer own samples todo hp (by rw [hs]; rfl)
  | adjust i own samples node hp hnode hs =>
      have hend : net'.since c = (net.since c).endCycle i node := by
        have hcycles : ∀ j, (net.endCycle i node).cycles j - c
            = Function.update (net.since c).cycles i ((net.since c).cycles i + 1) j := by
          intro j
          by_cases hj : j = i
          · subst hj
            rw [Network.endCycle_cycles, Function.update_self, Function.update_self,
              Nat.sub_add_comm (hc j)]
            rfl
          · rw [Network.endCycle_cycles, Function.update_of_ne hj, Function.update_of_ne hj]
            rfl
        rw [hs]
        exact congrArg (Network.mk _ _) (funext hcycles)
      exact .adjust i own samples node hp hnode hend

theorem InHull.since {lo hi : ℚ} (h : InHull slack lo hi net) : InHull slack lo hi (net.since c) :=
  ⟨h.skews, h.samples⟩

theorem Step.cycles_le (h : Step peers slack net net' act) (j : Fin n) :
    net.cycles j ≤ net'.cycles j := by
  rw [h.cycles]
  cases act with
  | adjust i =>
      by_cases hj : j = i
      · subst hj
        simp [cyclesAfter]
      · simp [cyclesAfter, hj]
  | read i => exact le_rfl
  | answered i => exact le_rfl
  | unanswered i => exact le_rfl

/-- A node that does not complete a cycle keeps its skew. -/
theorem Step.skews_eq (h : Step peers slack net net' act) {j : Fin n}
    (hj : net'.cycles j = net.cycles j) : net'.skews j = net.skews j := by
  cases h with
  | read i hp hs => rw [hs, Network.setPhase_skews]
  | answered i peer own samples todo sample hp hnear hs => rw [hs, Network.setPhase_skews]
  | unanswered i peer own samples todo hp hs => rw [hs, Network.setPhase_skews]
  | adjust i own samples node hp hnode hs =>
      rw [hs, Network.endCycle_cycles] at hj
      have hji : j ≠ i := by
        rintro rfl
        rw [Function.update_self] at hj
        omega
      rw [hs, Network.endCycle_skews, Function.update_of_ne hji]

end Since

/-! ## One epoch -/

section Epoch

variable {settings : Fin n → Settings} {peers : Fin n → List (Fin n)} {c : ℕ} {d d' : Drifting n}

theorem DriftStep.cycles_le {act : DriftAct n} (h : DriftStep settings peers d d' act)
    (j : Fin n) : d.net.cycles j ≤ d'.net.cycles j := by
  cases h with
  | inject i delta hp hgoing hdue hnot hdelta hnet hinjected hslack =>
      have hcycles : d'.net.cycles = d.net.cycles := (Drifting.cycles_of_relative hnet :)
      exact (congrFun hcycles j).ge
  | sync act there back hallows hstep hinjected hslack => exact hstep.cycles_le j

theorem Drifting.AtRest.begun_eq (h : d.AtRest c) (i : Fin n) : d.begun i = c := by
  rw [Drifting.begun, h.cycles i, h.clean i]
  rfl

theorem Drifting.AtRest.completed_eq (h : d.AtRest c) : d.completed = n * c := by
  rw [Drifting.completed, Finset.sum_congr rfl fun i _ => h.cycles i, Finset.sum_const,
    Finset.card_univ, Fintype.card_fin, nsmul_eq_mul, Nat.cast_id]

theorem Drifting.cycles_le_begun (d : Drifting n) (i : Fin n) : d.net.cycles i ≤ d.begun i :=
  Nat.le_add_right _ _

theorem Drifting.completed_ge (h : ∀ i, c ≤ d.net.cycles i) : n * c ≤ d.completed := by
  have hsum := Finset.card_nsmul_le_sum Finset.univ d.net.cycles c fun i _ => h i
  rwa [Finset.card_univ, Fintype.card_fin, nsmul_eq_mul, Nat.cast_id] at hsum

/-- Each of the nodes completes one cycle in an epoch. -/
theorem Drifting.AtRest.error_eq (h : d.AtRest (c + 1)) : d.error (n * c) = d.slack * n := by
  rw [Drifting.error, h.completed_eq, Nat.mul_succ, Nat.add_sub_cancel_left]

/-- A node that injects drift begins the cycle after the ones it has completed. -/
theorem begun_inject {i : Fin n} (hcycles : d'.net.cycles = d.net.cycles)
    (hinjected : d'.injected = Function.update d.injected i true) :
    d'.begun i = d.net.cycles i + 1 := by
  rw [Drifting.begun, hcycles, hinjected, Function.update_self]
  rfl

/-- **The rule of an epoch.** What the steps of an epoch keep holds at its end. A step is one of
the epoch if no node has completed less than `c` cycles before it, or begun more than one cycle
beyond them after it. -/
theorem epoch_invariant (P : Drifting n → Prop) {events : List (ℚ × DriftAct n)}
    (hstep : ∀ d d' t act, (t, act) ∈ events → DriftStep settings peers d d' act →
      (∀ i, c ≤ d.net.cycles i) → (∀ i, d'.begun i ≤ c + 1) → 0 ≤ d.slack → P d → P d')
    (hrun : runDrift settings peers d events = some d') (hrest : d.AtRest c)
    (hrest' : d'.AtRest (c + 1)) (h : P d) : P d' := by
  -- the cycles begun only grow, so their bound at the end holds all along
  have hend := runDrift_invariant
    (fun e => ((∀ i, c ≤ e.net.cycles i) ∧ 0 ≤ e.slack) ∧ ((∀ i, e.begun i ≤ c + 1) → P e))
    (fun e e' t act hmem hs he => ⟨⟨fun i => (he.1.1 i).trans (hs.cycles_le i),
        he.1.2.trans hs.slack_le⟩, fun hle =>
      hstep e e' t act hmem hs he.1.1 hle he.1.2 (he.2 fun i => (hs.begun_le i).trans (hle i))⟩)
    hrun ⟨⟨fun i => (hrest.cycles i).ge, hrest.slack_nonneg⟩, fun _ => h⟩
  exact hend.2 fun i => (hrest'.begun_eq i).le

/-- At the beginning of an epoch the hull is that of the skews. -/
theorem Drifting.AtRest.inHull [NeZero n] (h : d.AtRest c) :
    InHull d.slack (Finset.univ.inf' Finset.univ_nonempty d.net.skews - d.error (n * c))
      (Finset.univ.sup' Finset.univ_nonempty d.net.skews + d.error (n * c)) d.relative := by
  have hzero : d.error (n * c) = 0 := by
    rw [Drifting.error, h.completed_eq, Nat.sub_self, Nat.cast_zero, mul_zero]
  rw [hzero, sub_zero, add_zero]
  exact idle_inHull d.slack (Network.relative_idle d.readAt h.idle)

/-- The factor by which an epoch without drift contracts the spread. -/
def factor (n : ℕ) : ℚ := (((n : ℚ) - 1) / n) ^ 2

/-- What the errors of `n` samples widen the hull by, and one more error, is contracted too. -/
theorem factor_mul_le (hn : 2 ≤ n) : factor n * (2 * n + 1) + 2 ≤ 2 * n := by
  have hone : (1 : ℚ) ≤ n := by exact_mod_cast (by omega : 1 ≤ n)
  have hsq : (0 : ℚ) < (n : ℚ) ^ 2 := by positivity
  have hle : ((n : ℚ) - 1) ^ 2 * (2 * n + 1) ≤ (2 * n - 2) * n ^ 2 := by
    have hexpand : ((n : ℚ) - 1) ^ 2 * (2 * n + 1) = (2 * n - 3) * n ^ 2 + 1 := by ring
    rw [hexpand]
    linarith [one_le_pow₀ hone (n := 2)]
  rw [factor, div_pow, div_mul_eq_mul_div]
  have hdiv := (div_le_iff₀ hsq).mpr hle
  linarith

/-- **An epoch without drift contracts the spread**, but for the errors of the samples. -/
theorem spread_calm [NeZero n] (hn : 2 ≤ n) {events : List (ℚ × DriftAct n)}
    (hcalm : ∀ i, ¬ (settings i).Due c) (hanswered : ∀ event ∈ events, event.2.Answered)
    (hrun : runDrift settings allOthers d events = some d') (hrest : d.AtRest c)
    (hrest' : d'.AtRest (c + 1)) :
    spread d'.net.skews ≤ factor n * spread d.net.skews + 2 * n * d'.slack := by
  set lo := Finset.univ.inf' Finset.univ_nonempty d.net.skews with hlo
  set hi := Finset.univ.sup' Finset.univ_nonempty d.net.skews with hhi
  have hspread : hi - lo = spread d.net.skews := rfl
  have hidle := Network.relative_idle d.readAt hrest.idle
  have hinit : ∃ y, Tracks d.slack d.net.skews (d.relative.since c) y :=
    ⟨_, @init_tracks n d.slack (d.relative.since c) hrest.slack_nonneg hidle fun i =>
      Nat.sub_eq_zero_of_le (hrest.cycles i).le⟩
  obtain ⟨hhull, y, ht⟩ := epoch_invariant
    (fun e => InHull e.slack (lo - e.error (n * c)) (hi + e.error (n * c)) e.relative ∧
      ∃ y, Tracks e.slack d.net.skews (e.relative.since c) y)
    (fun e e' t act hmem hs hge hle hnonneg he => by
      cases hs with
      | inject i delta hp hgoing hdue hnot hdelta hnet hinjected hslack =>
          -- drift is not due in this epoch, and the next one has not begun
          have hi := hle i
          rw [begun_inject (Drifting.cycles_of_relative hnet :) hinjected] at hi
          have hc : e.net.cycles i = c := le_antisymm (by omega) (hge i)
          exact absurd (hc ▸ hdue) (hcalm i)
      | sync act there back hallows hstep hinjected hslack =>
          refine ⟨sync_inHull hstep hslack hnonneg (Drifting.completed_ge hge) he.1, ?_⟩
          have hunanswered : ∀ i, act ≠ .unanswered i := by
            rintro i rfl
            exact hanswered _ hmem
          have hone : ∀ i, (e'.relative.since c).cycles i ≤ 1 := fun i => by
            have hi := (e'.cycles_le_begun i).trans (hle i)
            show e'.net.cycles i - c ≤ 1
            omega
          obtain ⟨y, hy⟩ := he.2
          exact step_tracks hn hunanswered (hstep.since hge)
            (he.1.mono hslack le_rfl le_rfl).since hone fun _ => ⟨y, hy.mono hslack⟩)
    hrun hrest hrest' ⟨hrest.inHull, hinit⟩
  have hone : ∀ i, (d'.relative.since c).cycles i = 1 := fun i => by
    show d'.net.cycles i - c = 1
    rw [hrest'.cycles i, Nat.add_sub_cancel_left]
  have hnonneg := hrest'.slack_nonneg
  rw [hrest'.error_eq] at hhull
  have hwiden : 0 ≤ d'.slack * n := mul_nonneg hnonneg (Nat.cast_nonneg n)
  have hfirst : InHull d'.slack lo hi d.relative := idle_inHull d'.slack hidle
  have hstart : InHull d'.slack (lo - d'.slack * n) (hi + d'.slack * n) d.relative :=
    hfirst.mono le_rfl (by linarith) (by linarith)
  have htracks : Tracks d'.slack d.relative.skews (d'.relative.since c) y := ht
  have hend : spread d'.relative.skews
      ≤ factor n * (spread d.net.skews + d'.slack * (2 * n + 1)) + 2 * d'.slack :=
    htracks.spread_le hstart hhull.since hone (by rw [← hspread]; linarith)
  have herrors := mul_le_mul_of_nonneg_left (factor_mul_le hn) hnonneg
  show spread d'.relative.skews ≤ _
  refine hend.trans ?_
  have hsplit : factor n * (spread d.net.skews + d'.slack * (2 * n + 1)) + 2 * d'.slack
      = factor n * spread d.net.skews + d'.slack * (factor n * (2 * n + 1) + 2) := by ring
  refine hsplit.le.trans ?_
  linarith

/-- **Drift in an epoch** widens the spread by at most twice the greatest drift, and the errors of
the samples. -/
theorem spread_drift [NeZero n] {driftMax : ℚ} (hmax : ∀ i, (settings i).driftMax ≤ driftMax)
    (hnonneg : 0 ≤ driftMax) {events : List (ℚ × DriftAct n)}
    (hrun : runDrift settings peers d events = some d') (hrest : d.AtRest c)
    (hrest' : d'.AtRest (c + 1)) :
    spread d'.net.skews ≤ spread d.net.skews + 2 * driftMax + 2 * n * d'.slack := by
  set lo := Finset.univ.inf' Finset.univ_nonempty d.net.skews with hlo
  set hi := Finset.univ.sup' Finset.univ_nonempty d.net.skews with hhi
  have hspread : hi - lo = spread d.net.skews := rfl
  have hstart := hrest.inHull
  have hend := epoch_invariant
    (fun e => InHull e.slack (lo - driftMax - e.error (n * c)) (hi + driftMax + e.error (n * c))
        e.relative ∧
      ∀ i, e.begun i = c → lo ≤ e.net.skews i ∧ e.net.skews i ≤ hi)
    (fun e e' t act hmem hs hge hle herror he => by
      have hbegun := hs.begun_le
      have hback : ∀ i, e'.begun i = c → e.begun i = c := fun i hi =>
        le_antisymm (hi ▸ hbegun i) ((hge i).trans (e.cycles_le_begun i))
      cases hs with
      | inject i delta hp hgoing hdue hnot hdelta hnet hinjected hslack =>
          have hcycles : e'.net.cycles = e.net.cycles := (Drifting.cycles_of_relative hnet :)
          obtain ⟨hlow, hhigh⟩ := abs_le.mp (hdelta.trans (hmax i))
          have hfirst : e.begun i = c := by
            have hi := hle i
            rw [begun_inject hcycles hinjected] at hi
            have hc := hge i
            simp only [Drifting.begun, hnot, Bool.false_eq_true, if_false]
            omega
          obtain ⟨hl, hu⟩ := he.2 i hfirst
          have hsame : e'.error (n * c) = e.error (n * c) := by
            unfold Drifting.error Drifting.completed
            rw [hcycles, hslack]
          have hpositive : 0 ≤ e.error (n * c) := mul_nonneg herror (Nat.cast_nonneg _)
          have hidle : e.relative.phase i = .idle := by
            rw [Drifting.relative, Network.relative_phase, hp]
            rfl
          have hskews : e'.net.skews = (e.net.injectDrift i delta).skews :=
            (congrArg Network.skews hnet :)
          rw [hsame, ← hslack, hnet]
          refine ⟨he.1.injectDrift hidle ⟨?_, ?_⟩, fun j hj => ?_⟩
          · show _ ≤ e.net.skews i + delta
            linarith
          · show e.net.skews i + delta ≤ _
            linarith
          · have hji : j ≠ i := by
              rintro rfl
              rw [begun_inject hcycles hinjected] at hj
              have hc := hge j
              omega
            rw [hskews, Network.injectDrift_skews, Function.update_of_ne hji]
            exact he.2 j (hback j hj)
      | sync act there back hallows hstep hinjected hslack =>
          refine ⟨sync_inHull hstep hslack herror (Drifting.completed_ge hge) he.1,
            fun j hj => ?_⟩
          have hsame : e'.net.cycles j = e.net.cycles j := by
            have h1 : e.net.cycles j ≤ e'.net.cycles j := hstep.cycles_le j
            have h2 := e'.cycles_le_begun j
            have h3 := hge j
            omega
          have hskew : e'.net.skews j = e.net.skews j := hstep.skews_eq hsame
          rw [hskew]
          exact he.2 j (hback j hj))
    hrun hrest hrest' ⟨hstart.mono le_rfl (by linarith) (by linarith), fun i _ =>
      (idle_inHull 0 hrest.idle).skews i⟩
  obtain ⟨hhull, -⟩ := hend
  rw [hrest'.error_eq] at hhull
  refine spread_le fun i j => ?_
  have hi' : d'.net.skews i ≤ hi + driftMax + d'.slack * n := (hhull.skews i).2
  have hj' : lo - driftMax - d'.slack * n ≤ d'.net.skews j := (hhull.skews j).1
  linarith

end Epoch

/-! ## All epochs -/

theorem factor_nonneg (n : ℕ) : 0 ≤ factor n := sq_nonneg _

theorem factor_lt_one (hn : 2 ≤ n) : factor n < 1 := by
  have hpos : (0 : ℚ) < n := by exact_mod_cast (by omega : 0 < n)
  have hone : (1 : ℚ) ≤ n := by exact_mod_cast (by omega : 1 ≤ n)
  have hlow : 0 ≤ ((n : ℚ) - 1) / n := div_nonneg (by linarith) hpos.le
  have hhigh : ((n : ℚ) - 1) / n < 1 := (div_lt_one hpos).mpr (by linarith)
  exact pow_lt_one₀ hlow hhigh (by decide)

/-- With errors of up to `slack` in the samples so far, the spread keeps within its bound. -/
theorem Epochs.spread_le [NeZero n] (hn : 2 ≤ n) {settings : Settings} (hk : 2 ≤ settings.k)
    {d d' : Drifting n} {m : ℕ} {slack : ℚ} (h : Epochs settings d m d')
    (hslack : d'.slack ≤ slack) :
    spread d'.net.skews ≤ disturbed (factor n) (spread d.net.skews)
      (2 * settings.driftMax + 2 * n * slack) settings.k m + 2 * n * slack / (1 - factor n) := by
  have hpow : factor n ^ (settings.k - 1) < 1 :=
    pow_lt_one₀ (factor_nonneg n) (factor_lt_one hn) (by omega)
  have hgap : 0 < 1 - factor n := sub_pos.mpr (factor_lt_one hn)
  have hpositive : 0 ≤ slack := h.atRest.slack_nonneg.trans hslack
  have herrors : 0 ≤ 2 * (n : ℚ) * slack := by positivity
  have hD : 0 ≤ 2 * settings.driftMax + 2 * n * slack :=
    add_nonneg (mul_nonneg (by norm_num) settings.driftMax_nonneg) herrors
  induction h with
  | start hrest =>
      have hterm : 0 ≤ (2 * settings.driftMax + 2 * n * slack) * factor n ^ (0 % settings.k)
          / (1 - factor n ^ (settings.k - 1)) :=
        div_nonneg (mul_nonneg hD (pow_nonneg (factor_nonneg n) _)) (by linarith)
      have hrest : 0 ≤ 2 * n * slack / (1 - factor n) := div_nonneg herrors hgap.le
      rw [disturbed, Nat.zero_div, Nat.sub_zero, pow_zero, one_mul]
      linarith
  | @next m mid d' before events hanswered hrun hrest ih =>
      have hbefore := ih ((runDrift_slack_le hrun).trans hslack)
      have hown : 2 * (n : ℚ) * d'.slack ≤ 2 * n * slack :=
        mul_le_mul_of_nonneg_left hslack (by positivity)
      by_cases hdue : (m + 1) % settings.k = 0
      · have hgrow := spread_drift (fun _ => le_rfl) settings.driftMax_nonneg hrun before.atRest
          hrest
        rw [disturbed_add hpow.ne hdue]
        linarith
      · have hcalm := spread_calm hn (fun _ hd => hdue hd.1) hanswered hrun before.atRest hrest
        have hshrink := mul_le_mul_of_nonneg_left hbefore (factor_nonneg n)
        -- what the errors of all epochs add up to is the sum of a geometric series
        have hseries : factor n * (2 * n * slack / (1 - factor n)) + 2 * n * slack
            = 2 * n * slack / (1 - factor n) := by
          field_simp
          ring
        rw [disturbed_shrink hdue]
        rw [mul_add] at hshrink
        linarith

/-- **The spread stays bounded.** Let all nodes have the same settings, with `k` at least 2. After
`m` epochs, each with any interleaving and any drift, the spread is at most
`ρ ^ (m - m / k) * s + b * ρ ^ (m % k) / (1 - ρ ^ (k - 1)) + e / (1 - ρ)`, where `s` is the first
spread, `ρ = ((n - 1) / n) ^ 2`, `e` is `2 * n` times the slack and `b = 2 * driftMax + e`: what the
launch put in fades away, and the drift and the errors of all the epochs together stay under a
bound that does not depend on `m`. -/
theorem spread_after_epochs [NeZero n] (hn : 2 ≤ n) (settings : Settings) (hk : 2 ≤ settings.k)
    (d d' : Drifting n) (m : ℕ) (h : Epochs settings d m d') :
    spread d'.net.skews ≤
      disturbed (factor n) (spread d.net.skews) (2 * settings.driftMax + 2 * n * d'.slack)
        settings.k m + 2 * n * d'.slack / (1 - factor n) :=
  h.spread_le hn hk le_rfl

/-- The events of an epoch of the nodes `i` and `j` from the time `t` on, after those of `drift`.
The requests take a tenth of a second. -/
def epochTwo (t : ℚ) (i j : Fin 2) (drift : List (ℚ × DriftAct 2)) : List (ℚ × DriftAct 2) :=
  drift ++ [(t, .sync (.read i) 0 0), (t + 1 / 20, .sync (.answered i) (1 / 20) (1 / 20)),
    (t + 1 / 10, .sync (.read j) 0 0), (t + 1 / 5, .sync (.answered j) (1 / 10) 0),
    (t + 1 / 5, .sync (.adjust j) 0 0), (t + 1 / 2, .sync (.adjust i) 0 0)]

/-- One epoch without drift, and one with drift. -/
theorem spread_after_epochs_two :
    ∃ d', Epochs everySecond twoNodes 2 d' ∧ spread d'.net.skews ≤
      disturbed (factor 2) (spread twoNodes.net.skews)
        (2 * everySecond.driftMax + 2 * (2 : ℕ) * d'.slack) everySecond.k 2
        + 2 * (2 : ℕ) * d'.slack / (1 - factor 2) := by
  have hruns : ((runDrift (fun _ => everySecond) allOthers twoNodes (epochTwo 1000 0 1 [])).bind
      fun mid => (runDrift (fun _ => everySecond) allOthers mid
        (epochTwo 1002 0 1 [(1001, .inject 0 1), (1002, .inject 1 (-1 / 2))])).map
          fun d' => (mid, d')).any
      (fun p => decide (p.1.AtRest 1 ∧ p.2.AtRest 2)) = true := by decide +kernel
  obtain ⟨⟨mid, d'⟩, hpair, hrest⟩ := (Option.any_eq_true _ _).mp hruns
  obtain ⟨mid', hmid, hmap⟩ := Option.bind_eq_some_iff.mp hpair
  obtain ⟨d'', hd', heq⟩ := Option.map_eq_some_iff.mp hmap
  obtain ⟨rfl, rfl⟩ := Prod.mk.inj heq
  obtain ⟨hrest1, hrest2⟩ := of_decide_eq_true hrest
  have hepochs : Epochs everySecond twoNodes 2 d'' :=
    .next (.next (.start twoNodes_atRest) _ (by decide) hmid hrest1) _ (by decide) hd' hrest2
  exact ⟨d'', hepochs,
    spread_after_epochs (by decide) everySecond (by decide) twoNodes d'' 2 hepochs⟩

end Peers
