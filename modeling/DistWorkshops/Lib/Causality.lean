import Mathlib.Logic.Relation
import Mathlib.Logic.Function.Basic
import Mathlib.Order.Basic
import Mathlib.Data.Int.Order.Basic
import Mathlib.Order.Interval.Set.Nat

/-!
# Causality of message-passing computations, and the clocks that characterise it

An `EventLog` is the set of events a computation has performed so far: process `p` has
performed `(p, 0), …, (p, len p - 1)`, and `edge m e` says that the message sent at `m` was
received at `e`. Happens-before is the transitive closure of the order of each process and of
the message edges; it mentions no clock.

A *stamping* gives every event a vector of integers. It is **causal** (`Causal`) when
component `q` of the stamp of `e` counts the events of `q` in the causal past of `e`. Then the
order of the stamps is exactly the causal order (`Causal.le_iff`, `Causal.before_iff`,
`Causal.eq_iff`), and a component of a stamp is a number of events (`Causal.count_past`). A
computation that grows one event at a time keeps a causal stamping when the new event is
stamped with the maximum of what it depends on, incremented at its own process
(`Causal.append`).
-/

set_option autoImplicit false

namespace Causality

variable {P : Type}

structure EventLog (P : Type) where
  len : P → ℕ
  edge : P × ℕ → P × ℕ → Prop

namespace EventLog

section Relations

variable (L L' : EventLog P)

def Recorded (e : P × ℕ) : Prop := e.2 < L.len e.1

/-- `e` is an earlier event of the process of `f`, or the sending of the message `f` received. -/
def Direct (e f : P × ℕ) : Prop :=
  (e.1 = f.1 ∧ e.2 < f.2 ∧ L.Recorded f) ∨ L.edge e f

def HappensBefore : P × ℕ → P × ℕ → Prop := Relation.TransGen L.Direct

/-- The causal past of an event, the event itself included. -/
def Past (e f : P × ℕ) : Prop := e = f ∨ L.HappensBefore e f

/-- Messages go from recorded events to recorded events. -/
structure WellFormed : Prop where
  sent : ∀ {e f}, L.edge e f → L.Recorded e
  received : ∀ {e f}, L.edge e f → L.Recorded f

/-- The number of events of `q` in the causal past of `e`. -/
noncomputable def countPast (q : P) (e : P × ℕ) : ℕ := Set.ncard { k | L.Past (q, k) e }

/-- The next event of `p`. -/
def next (p : P) : P × ℕ := (p, L.len p)

/-- `L'` is `L` with the next event of `p`, which receives the messages `msgs`. -/
structure Appends [DecidableEq P] (p : P) (msgs : P × ℕ → Prop) : Prop where
  len : L'.len = Function.update L.len p (L.len p + 1)
  edge : ∀ e f, L'.edge e f ↔ L.edge e f ∨ (f = L.next p ∧ msgs e)
  sent : ∀ m, msgs m → L.Recorded m

end Relations

section Basics

variable {L : EventLog P}

theorem next_not_recorded (p : P) : ¬ L.Recorded (L.next p) := Nat.lt_irrefl _

theorem Direct.recorded_right (hw : L.WellFormed) {e f : P × ℕ} (h : L.Direct e f) :
    L.Recorded f := by
  rcases h with ⟨-, -, hf⟩ | h
  · exact hf
  · exact hw.received h

theorem Direct.recorded_left (hw : L.WellFormed) {e f : P × ℕ} (h : L.Direct e f) :
    L.Recorded e := by
  rcases h with ⟨h1, h2, hf⟩ | h
  · unfold Recorded at hf ⊢
    rw [h1]
    omega
  · exact hw.sent h

theorem Past.trans {e f g : P × ℕ} (h : L.Past e f) (h' : L.Past f g) : L.Past e g := by
  rcases h with rfl | h
  · exact h'
  · rcases h' with rfl | h'
    · exact Or.inr h
    · exact Or.inr (Relation.TransGen.trans h h')

theorem Past.recorded (hw : L.WellFormed) {e f : P × ℕ} (h : L.Past e f) (hf : L.Recorded f) :
    L.Recorded e := by
  rcases h with rfl | h
  · exact hf
  · obtain ⟨g, hg, -⟩ := Relation.TransGen.head'_iff.mp h
    exact Direct.recorded_left hw hg

theorem past_of_le {p : P} {i j : ℕ} (hij : i ≤ j) (hj : L.Recorded (p, j)) :
    L.Past (p, i) (p, j) := by
  rcases Nat.lt_or_ge i j with h | h
  · exact Or.inr (Relation.TransGen.single (Or.inl ⟨rfl, h, hj⟩))
  · exact Or.inl (by rw [Nat.le_antisymm hij h])

end Basics

/-! ## Appending an event -/

section Append

variable [DecidableEq P] {L L' : EventLog P} {p : P} {msgs : P × ℕ → Prop}

theorem Appends.recorded_iff (ha : L.Appends L' p msgs) (e : P × ℕ) :
    L'.Recorded e ↔ L.Recorded e ∨ e = L.next p := by
  obtain ⟨q, i⟩ := e
  unfold Recorded next
  rw [ha.len]
  by_cases hq : q = p
  · subst hq
    simp only [Function.update_self, Prod.mk.injEq, true_and]
    omega
  · simp [hq]

theorem Appends.wellFormed (ha : L.Appends L' p msgs) (hw : L.WellFormed) : L'.WellFormed := by
  constructor
  · intro e f h
    rcases (ha.edge e f).mp h with h | ⟨-, h⟩
    · exact (ha.recorded_iff e).mpr (Or.inl (hw.sent h))
    · exact (ha.recorded_iff e).mpr (Or.inl (ha.sent e h))
  · intro e f h
    rcases (ha.edge e f).mp h with h | ⟨rfl, -⟩
    · exact (ha.recorded_iff f).mpr (Or.inl (hw.received h))
    · exact (ha.recorded_iff _).mpr (Or.inr rfl)

/-- Nothing depends on the new event. -/
theorem Appends.direct_left (ha : L.Appends L' p msgs) (hw : L.WellFormed) {e f : P × ℕ}
    (h : L'.Direct e f) : L.Recorded e := by
  rcases h with ⟨h1, h2, hf⟩ | h
  · rcases (ha.recorded_iff f).mp hf with hf | rfl
    · unfold Recorded at hf ⊢
      rw [h1]
      omega
    · unfold Recorded
      rw [h1]
      exact h2
  · rcases (ha.edge e f).mp h with h | ⟨-, h⟩
    · exact hw.sent h
    · exact ha.sent e h

/-- The old events depend on what they depended on. -/
theorem Appends.direct_old (ha : L.Appends L' p msgs) {e f : P × ℕ} (hf : f ≠ L.next p) :
    L'.Direct e f ↔ L.Direct e f := by
  have hrec : L'.Recorded f ↔ L.Recorded f := by
    rw [ha.recorded_iff]
    simp [hf]
  have hedge : L'.edge e f ↔ L.edge e f := by
    rw [ha.edge]
    simp [hf]
  unfold Direct
  rw [hrec, hedge]

theorem Appends.direct_new (ha : L.Appends L' p msgs) (hw : L.WellFormed) {e : P × ℕ} :
    L'.Direct e (L.next p) ↔ (e.1 = p ∧ e.2 < L.len p) ∨ msgs e := by
  have hrec : L'.Recorded (L.next p) := (ha.recorded_iff _).mpr (Or.inr rfl)
  have hedge : ¬ L.edge e (L.next p) := fun h => next_not_recorded p (hw.received h)
  unfold Direct
  rw [ha.edge]
  simp only [next] at hrec hedge ⊢
  simp [hrec, hedge]

theorem Appends.before_old (ha : L.Appends L' p msgs) (hw : L.WellFormed) {e f : P × ℕ}
    (hf : f ≠ L.next p) : L'.HappensBefore e f ↔ L.HappensBefore e f := by
  constructor
  · intro h
    -- every event before an old event is old, by induction from its end
    induction h with
    | single h => exact Relation.TransGen.single ((ha.direct_old hf).mp h)
    | @tail b c _ hbc ih =>
        have hb := ha.direct_left hw hbc
        have hne : b ≠ L.next p := fun he => next_not_recorded p (he ▸ hb)
        exact Relation.TransGen.tail (ih hne) ((ha.direct_old hf).mp hbc)
  · intro h
    refine Relation.TransGen.mono (fun a b hab => ?_) e f h
    have hb := Direct.recorded_right hw hab
    exact (ha.direct_old (fun he => next_not_recorded p (he ▸ hb))).mpr hab

theorem Appends.past_old (ha : L.Appends L' p msgs) (hw : L.WellFormed) {e f : P × ℕ}
    (hf : f ≠ L.next p) : L'.Past e f ↔ L.Past e f := by
  unfold Past
  rw [ha.before_old hw hf]

/-- The causal past of the new event: itself, the past of the process's previous events, and
the past of the messages it receives. -/
theorem Appends.past_new (ha : L.Appends L' p msgs) (hw : L.WellFormed) {e : P × ℕ} :
    L'.Past e (L.next p) ↔
      e = L.next p ∨ (∃ i < L.len p, L.Past e (p, i)) ∨ ∃ m, msgs m ∧ L.Past e m := by
  have hold : ∀ {g}, L.Recorded g → (L'.Past e g ↔ L.Past e g) := fun hg =>
    ha.past_old hw (fun he => next_not_recorded p (he ▸ hg))
  constructor
  · rintro (h | h)
    · exact Or.inl h
    · obtain ⟨g, hg, hd⟩ := Relation.TransGen.tail'_iff.mp h
      have hgr := ha.direct_left hw hd
      have hpast : L.Past e g := by
        rw [← hold hgr]
        rcases Relation.reflTransGen_iff_eq_or_transGen.mp hg with rfl | hg
        · exact Or.inl rfl
        · exact Or.inr hg
      -- the last step into the new event comes from its process or from a message
      rcases (ha.direct_new hw).mp hd with ⟨h1, h2⟩ | hm
      · obtain ⟨q, i⟩ := g
        obtain rfl : q = p := h1
        exact Or.inr (Or.inl ⟨i, h2, hpast⟩)
      · exact Or.inr (Or.inr ⟨g, hm, hpast⟩)
  · have hnew : ∀ {g}, L.Past e g → L.Recorded g → L'.Direct g (L.next p) →
        L'.Past e (L.next p) := fun hp hg hd =>
      Past.trans ((hold hg).mpr hp) (Or.inr (Relation.TransGen.single hd))
    rintro (h | ⟨i, hi, h⟩ | ⟨m, hm, h⟩)
    · exact Or.inl h
    · exact hnew h hi ((ha.direct_new hw).mpr (Or.inl ⟨rfl, hi⟩))
    · exact hnew h (ha.sent m hm) ((ha.direct_new hw).mpr (Or.inr hm))

end Append

end EventLog

/-! ## Causal stampings -/

open EventLog

/-- The stamps of the recorded events count their causal past, process by process. -/
structure Causal (L : EventLog P) (stamp : P × ℕ → P → ℤ) : Prop where
  wellFormed : L.WellFormed
  acyclic : ∀ e, ¬ L.HappensBefore e e
  nonneg : ∀ e q, 0 ≤ stamp e q
  past_iff : ∀ e, L.Recorded e → ∀ q k, L.Past (q, k) e ↔ (k : ℤ) < stamp e q

namespace Causal

variable {L : EventLog P} {stamp : P × ℕ → P → ℤ}

/-- **The strong clock condition.** One stamp is below another exactly when its event is in
the causal past of the other. -/
theorem le_iff (hc : Causal L stamp) {e f : P × ℕ} (he : L.Recorded e) (hf : L.Recorded f) :
    stamp e ≤ stamp f ↔ L.Past e f := by
  constructor
  · intro hle
    -- an event is in its own past, so its own component counts it
    have hself : (e.2 : ℤ) < stamp e e.1 := (hc.past_iff e he e.1 e.2).mp (Or.inl rfl)
    exact (hc.past_iff f hf e.1 e.2).mpr (lt_of_lt_of_le hself (hle e.1))
  · intro hp q
    by_contra hle
    have hlt : stamp f q < stamp e q := lt_of_not_ge hle
    have hnn := hc.nonneg f q
    -- the first event of `q` that `f` has not seen is in the past of `e`
    have hk : ((stamp f q).toNat : ℤ) < stamp e q := by omega
    have hpast := Past.trans ((hc.past_iff e he q _).mpr hk) hp
    have := (hc.past_iff f hf q _).mp hpast
    omega

theorem eq_iff (hc : Causal L stamp) {e f : P × ℕ} (he : L.Recorded e) (hf : L.Recorded f) :
    stamp e = stamp f ↔ e = f := by
  constructor
  · intro h
    rcases (hc.le_iff he hf).mp (le_of_eq h) with hef | hef
    · exact hef
    · rcases (hc.le_iff hf he).mp (le_of_eq h.symm) with hfe | hfe
      · exact hfe.symm
      · exact absurd (Relation.TransGen.trans hef hfe) (hc.acyclic e)
  · rintro rfl
    rfl

theorem before_iff (hc : Causal L stamp) {e f : P × ℕ} (he : L.Recorded e)
    (hf : L.Recorded f) :
    (stamp e ≤ stamp f ∧ ¬ stamp f ≤ stamp e) ↔ L.HappensBefore e f := by
  rw [hc.le_iff he hf, hc.le_iff hf he]
  constructor
  · rintro ⟨h | h, hnot⟩
    · exact absurd (Or.inl h.symm) hnot
    · exact h
  · intro h
    refine ⟨Or.inr h, ?_⟩
    rintro (heq | hback)
    · subst heq
      exact hc.acyclic f h
    · exact hc.acyclic e (Relation.TransGen.trans h hback)

/-- A component of a stamp is the number of events of a process in the causal past. -/
theorem count_past (hc : Causal L stamp) {e : P × ℕ} (he : L.Recorded e) (q : P) :
    (L.countPast q e : ℤ) = stamp e q := by
  have hnn := hc.nonneg e q
  -- the events counted are the first ones of `q`
  have hset : { k | L.Past (q, k) e } = Set.Iio (stamp e q).toNat := by
    ext k
    show L.Past (q, k) e ↔ k < (stamp e q).toNat
    rw [hc.past_iff e he q k]
    omega
  rw [EventLog.countPast, hset, Set.ncard_Iio_nat]
  omega

/-- No stamp counts more events than there are. -/
theorem le_len (hc : Causal L stamp) {e : P × ℕ} (he : L.Recorded e) (q : P) :
    stamp e q ≤ L.len q := by
  by_contra hlt
  have hpast : L.Past (q, L.len q) e := (hc.past_iff e he q _).mpr (by omega)
  exact next_not_recorded q (hpast.recorded hc.wellFormed he)

/-- The last event of a process counts all events of the process. -/
theorem own_eq_len (hc : Causal L stamp) {p : P} (hlen : 0 < L.len p) :
    stamp (p, L.len p - 1) p = L.len p := by
  have hlast : L.Recorded (p, L.len p - 1) := Nat.sub_lt hlen Nat.one_pos
  have hself := (hc.past_iff _ hlast p (L.len p - 1)).mp (Or.inl rfl)
  have hle := hc.le_len hlast p
  omega

/-- The computation that has not started. -/
theorem init (stamp : P × ℕ → P → ℤ) (hn : ∀ e q, 0 ≤ stamp e q) :
    Causal ⟨fun _ => 0, fun _ _ => False⟩ stamp := by
  refine ⟨⟨fun h => h.elim, fun h => h.elim⟩, ?_, hn, fun e he => absurd he (Nat.not_lt_zero _)⟩
  intro e h
  obtain ⟨g, h, -⟩ := Relation.TransGen.head'_iff.mp h
  rcases h with ⟨-, -, h⟩ | h
  · exact absurd h (Nat.not_lt_zero _)
  · exact h

variable [DecidableEq P] {L' : EventLog P} {p : P} {msgs : P × ℕ → Prop}
  {stamp' : P × ℕ → P → ℤ} {base : P → ℤ}

/-- Before it ticks, the new event of `p` knows of exactly the earlier events of `p`. -/
theorem base_self (hc : Causal L stamp) (ha : L.Appends L' p msgs) (hb : 0 ≤ base p)
    (hbase : ∀ q (k : ℕ), (k : ℤ) < base q ↔
      (∃ i < L.len p, L.Past (q, k) (p, i)) ∨ ∃ m, msgs m ∧ L.Past (q, k) m) :
    base p = L.len p := by
  have hlt : ∀ k : ℕ, (k : ℤ) < base p ↔ k < L.len p := by
    intro k
    rw [hbase p k]
    constructor
    · rintro (⟨i, hi, h⟩ | ⟨m, hm, h⟩)
      · exact Past.recorded hc.wellFormed h hi
      · exact Past.recorded hc.wellFormed h (ha.sent m hm)
    · intro hk
      have hlast : L.Recorded (p, L.len p - 1) := by
        unfold Recorded
        simp only
        omega
      exact Or.inl ⟨L.len p - 1, hlast, past_of_le (by omega) hlast⟩
  have h1 := hlt (base p).toNat
  have h2 := hlt (L.len p)
  omega

/-- **Appending an event.** If `base` is the maximum of what the new event depends on, the
stamp `base` incremented at its own process keeps the stamping causal. -/
theorem append (hc : Causal L stamp) (ha : L.Appends L' p msgs) (hb : ∀ q, 0 ≤ base q)
    (hbase : ∀ q (k : ℕ), (k : ℤ) < base q ↔
      (∃ i < L.len p, L.Past (q, k) (p, i)) ∨ ∃ m, msgs m ∧ L.Past (q, k) m)
    (hold : ∀ e, e ≠ L.next p → stamp' e = stamp e)
    (hnew : stamp' (L.next p) = Function.update base p (base p + 1)) :
    Causal L' stamp' := by
  -- the new event is number `L.len p` of `p`, which is what its component counts before the tick
  have hself := hc.base_self ha (hb p) hbase
  refine ⟨ha.wellFormed hc.wellFormed, ?_, ?_, ?_⟩
  · -- no event depends on the new one, so a cycle would be an old cycle
    intro e h
    obtain ⟨g, hg, -⟩ := Relation.TransGen.head'_iff.mp h
    have hr := ha.direct_left hc.wellFormed hg
    have hne : e ≠ L.next p := fun he => next_not_recorded p (he ▸ hr)
    exact hc.acyclic e ((ha.before_old hc.wellFormed hne).mp h)
  · intro e q
    by_cases he : e = L.next p
    · rw [he, hnew]
      have h1 := hb q
      have h2 := hb p
      by_cases hq : q = p
      · rw [hq, Function.update_self]
        omega
      · rw [Function.update_of_ne hq]
        exact h1
    · rw [hold e he]
      exact hc.nonneg e q
  · intro e he q k
    by_cases hen : e = L.next p
    · -- the tick adds the new event itself to the component of `p`
      rw [hen, ha.past_new hc.wellFormed, ← hbase q k, hnew]
      by_cases hq : q = p
      · subst hq
        rw [Function.update_self, hself]
        simp only [next, Prod.mk.injEq, true_and]
        omega
      · have hne : ((q, k) : P × ℕ) ≠ L.next p := fun h => hq (Prod.mk.inj h).1
        rw [Function.update_of_ne hq]
        simp [hne]
    · have her : L.Recorded e := ((ha.recorded_iff e).mp he).resolve_right hen
      rw [ha.past_old hc.wellFormed hen, hold e hen]
      exact hc.past_iff e her q k

end Causal

end Causality
