import DistWorkshops.Mutex.Fifo

/-!
# Bounded waiting

A holder uses the resource for at most three rounds, and hands it over in its own turn to
the head of the queue. `Due s r j h d` says in which round `d` the holder `h` releases, seen
from the position `(r, j)` of the run: this round does not change while `h` holds, and a
process that gets the resource in round `r` is due in round `r + 3` at the latest. So a
process with `k` others ahead of it in round `t` is granted by round `t + 3 * (k + 1)`.
-/

set_option autoImplicit false

namespace Mutex

variable {n : ℕ}

/-! ## What a turn does to a holder and its queue -/

/-- A process in any other state is not the holder. -/
theorem Inv.ne_holder {s : Sim n} (hi : Inv s) {pid holder : Fin n}
    (hh : s.server.holder = some holder) (h : s.state pid ≠ .holding) : pid ≠ holder := by
  rintro rfl
  exact h ((hi.holder_iff pid).mp hh)

/-- One turn while `holder` holds and somebody is queued: either the holder's last turn,
which hands the resource to the head of the queue, or a turn that leaves the holder in place
and at most appends to the queue. -/
theorem turn_holder {s : Sim n} (hi : Inv s) (draw : Draw) (pid : Fin n) {holder next : Fin n}
    {queue : List (Fin n)} (hh : s.server.holder = some holder)
    (hq : s.server.queue = next :: queue) :
    (pid = holder ∧ s.holdLeft holder = 1 ∧
        (turn draw pid s).server = ⟨some next, queue⟩ ∧
        grantOrder (turn draw pid s).log = grantOrder s.log ++ [next]) ∨
      ((turn draw pid s).server.holder = some holder ∧
        (∃ more, (turn draw pid s).server.queue = s.server.queue ++ more) ∧
        (turn draw pid s).holdLeft holder
          = s.holdLeft holder - (if pid = holder then 1 else 0) ∧
        (pid = holder → s.holdLeft holder ≠ 1)) := by
  have hhold : s.state holder = .holding := (hi.holder_iff holder).mp hh
  have hcases := turn_cases draw pid s
  generalize turn draw pid s = s' at hcases
  cases hcases with
  | rest h hw =>
      have hne : pid ≠ holder := hi.ne_holder hh (by rw [h]; decide)
      exact Or.inr ⟨hh, ⟨[], by simp [Sim.print]⟩, by simp [Sim.print, hne], (absurd · hne)⟩
  | wait h =>
      have hne : pid ≠ holder := hi.ne_holder hh (by rw [h]; decide)
      exact Or.inr ⟨hh, ⟨[], by simp [Sim.print]⟩, by simp [Sim.print, hne], (absurd · hne)⟩
  | grant h hw hn =>
      rw [hn] at hh
      cases hh
  | enqueue other h hw ho =>
      have hne : pid ≠ holder := hi.ne_holder hh (by rw [h]; decide)
      exact Or.inr ⟨hh, ⟨[pid], rfl⟩, by simp [hne], (absurd · hne)⟩
  | use h hl =>
      have he : pid = holder := hi.unique_holder h hhold
      subst he
      exact Or.inr ⟨hh, ⟨[], by simp⟩, by simp, fun _ => hl⟩
  | release h hl hn =>
      rw [hn] at hq
      cases hq
  | handOver next' queue' h hl hn =>
      have he : pid = holder := hi.unique_holder h hhold
      subst he
      rw [hn] at hq
      obtain ⟨rfl, rfl⟩ := List.cons.inj hq
      exact Or.inl ⟨rfl, hl, rfl, grantOrder_append _ _⟩

/-! ## The round of the release -/

/-- Seen from the position `(r, j)`, the holder `h` releases in round `d`: it has a turn left
in round `r` exactly when `j ≤ h`. -/
def Due (s : Sim n) (r j : ℕ) (h : Fin n) (d : ℕ) : Prop :=
  (r : ℤ) + s.holdLeft h = d + (if (h : ℕ) < j then 0 else 1)

/-- Every holder is due within three rounds. -/
theorem exists_due {s : Sim n} (hi : Inv s) {h : Fin n} (hh : s.server.holder = some h)
    (r j : ℕ) : ∃ d, Due s r j h d ∧ r ≤ d ∧ d ≤ r + 3 := by
  have hb := hi.held h ((hi.holder_iff h).mp hh)
  unfold Due
  by_cases hj : (h : ℕ) < j
  · refine ⟨r + (s.holdLeft h).toNat, ?_, by omega, by omega⟩
    rw [if_pos hj]
    omega
  · refine ⟨r + (s.holdLeft h).toNat - 1, ?_, by omega, by omega⟩
    rw [if_neg hj]
    omega

/-- The end of a round and the start of the next are the same position. -/
theorem Due.wrap {s : Sim n} {r d : ℕ} {h : Fin n} (hd : Due s r n h d) :
    Due s (r + 1) 0 h d := by
  have hlt : (h : ℕ) < n := h.isLt
  unfold Due at hd ⊢
  rw [if_pos hlt] at hd
  rw [if_neg (Nat.not_lt_zero _)]
  push_cast
  omega

/-- At its own position the holder of one more turn is due in this round. -/
theorem Due.last_turn {s : Sim n} {r d : ℕ} {h : Fin n} (hd : Due s r h h d)
    (hone : s.holdLeft h = 1) : r = d := by
  unfold Due at hd
  rw [if_neg (Nat.lt_irrefl _)] at hd
  omega

/-- At the end of a round the holder is due in a later one. -/
theorem Due.after_round {s : Sim n} {r d : ℕ} {h : Fin n} (hd : Due s r n h d)
    (hpos : 1 ≤ s.holdLeft h) : r < d := by
  have hlt : (h : ℕ) < n := h.isLt
  unfold Due at hd
  rw [if_pos hlt] at hd
  omega

/-- The turn of `p` does not move the round in which the holder is due. -/
theorem Due.turn {s s' : Sim n} {r d : ℕ} {h p : Fin n} (hd : Due s r p h d)
    (hl : s'.holdLeft h = s.holdLeft h - (if p = h then 1 else 0)) :
    Due s' r (p + 1) h d := by
  unfold Due at hd ⊢
  rw [hl]
  by_cases hp : p = h
  · subst hp
    rw [if_neg (Nat.lt_irrefl _)] at hd
    rw [if_pos rfl, if_pos (Nat.lt_succ_self _)]
    omega
  · have hne : (p : ℕ) ≠ h := fun he => hp (Fin.ext he)
    rw [if_neg hp]
    by_cases hlt : (h : ℕ) < p
    · rw [if_pos hlt] at hd
      rw [if_pos (by omega)]
      omega
    · rw [if_neg hlt] at hd
      rw [if_neg (by omega)]
      omega

/-! ## The wait -/

/-- The turn of `q` in round `r` grants the resource to `p`. -/
def GrantedAt (draws : Draws n) (r : ℕ) (q p : Fin n) : Prop :=
  (stateAfter draws r (q + 1)).server.holder = some p ∧
    grantOrder (stateAfter draws r (q + 1)).log
      = grantOrder (stateAfter draws r q).log ++ [p]

/-- From the position `(r, j)`, where the holder is due in round `d` and `p` has `ahead` in
front of it, `p` is granted by round `d + 3 * ahead.length`. The recursion follows the run: a
turn that keeps the holder moves one position on, and a hand-over takes one process off the
queue. -/
theorem granted_by (draws : Draws n) (p : Fin n) (ahead rest : List (Fin n)) (r j d : ℕ)
    (hj : j ≤ n) {holder : Fin n}
    (hh : (stateAfter draws r j).server.holder = some holder)
    (hq : (stateAfter draws r j).server.queue = ahead ++ p :: rest)
    (hd : Due (stateAfter draws r j) r j holder d) :
    ∃ (r' : ℕ) (q : Fin n), (r < r' ∨ r = r' ∧ j ≤ (q : ℕ)) ∧ r' ≤ d + 3 * ahead.length ∧
      GrantedAt draws r' q p := by
  have hi : Inv (stateAfter draws r j) := stateAfter_inv draws r j
  have hb := hi.held holder ((hi.holder_iff holder).mp hh)
  rcases Nat.lt_or_ge j n with hlt | hge
  · -- the turn of process `j`
    have hcons : ∃ next queue, (stateAfter draws r j).server.queue = next :: queue := by
      rw [hq]
      cases ahead with
      | nil => exact ⟨p, rest, rfl⟩
      | cons a as => exact ⟨a, as ++ p :: rest, rfl⟩
    obtain ⟨next, queue, hnq⟩ := hcons
    have hstep := stateAfter_turn draws r ⟨j, hlt⟩
    rcases turn_holder hi (draws r ⟨j, hlt⟩) ⟨j, hlt⟩ hh hnq with
      ⟨rfl, hone, hserver, hgrant⟩ | ⟨hh', ⟨more, hmore⟩, hleft, hnot⟩
    · -- the holder's last turn: it is round `d`
      have hrd : r = d := hd.last_turn hone
      rw [← hstep] at hserver hgrant
      cases ahead with
      | nil =>
          rw [hq] at hnq
          obtain ⟨rfl, rfl⟩ := List.cons.inj hnq
          exact ⟨r, ⟨j, hlt⟩, Or.inr ⟨rfl, Nat.le_refl j⟩, by omega, by rw [hserver], hgrant⟩
      | cons a as =>
          rw [hq, List.cons_append] at hnq
          obtain ⟨rfl, rfl⟩ := List.cons.inj hnq
          have hh' : (stateAfter draws r (j + 1)).server.holder = some a := by rw [hserver]
          have hq' : (stateAfter draws r (j + 1)).server.queue = as ++ p :: rest := by
            rw [hserver]
          -- the next holder is due within three rounds, with one process less ahead of `p`
          obtain ⟨d', hd', -, hle⟩ :=
            exists_due (stateAfter_inv draws r (j + 1)) hh' r (j + 1)
          obtain ⟨r', q, hlater, hbound, hgranted⟩ :=
            granted_by draws p as rest r (j + 1) d' hlt hh' hq' hd'
          refine ⟨r', q, by omega, ?_, hgranted⟩
          rw [List.length_cons]
          omega
    · -- any other turn keeps the holder and may lengthen the queue behind `p`
      rw [← hstep] at hh' hmore hleft
      have hq' : (stateAfter draws r (j + 1)).server.queue = ahead ++ p :: (rest ++ more) := by
        rw [hmore, hq, List.append_assoc, List.cons_append]
      obtain ⟨r', q, hlater, hbound, hgranted⟩ :=
        granted_by draws p ahead (rest ++ more) r (j + 1) d hlt hh' hq' (hd.turn hleft)
      exact ⟨r', q, by omega, hbound, hgranted⟩
  · -- the end of the round
    have hjn : j = n := Nat.le_antisymm hj hge
    rw [hjn] at hh hq hd
    have hlast := stateAfter_last draws r
    rw [hjn] at hb
    -- every turn of round `r` is over, so the release is in a later round
    have hrd : r < d := hd.after_round hb.1
    have hd' : Due (stateAfter draws (r + 1) 0) (r + 1) 0 holder d := by
      rw [← hlast]
      exact hd.wrap
    rw [hlast] at hh hq
    obtain ⟨r', q, hlater, hbound, hgranted⟩ :=
      granted_by draws p ahead rest (r + 1) 0 d (Nat.zero_le n) hh hq hd'
    exact ⟨r', q, by omega, hbound, hgranted⟩
termination_by (ahead.length, d - r, n - j)

/-- **Bounded waiting.** A process that is queued in round `t` with `ahead` in front of it is
granted the resource, at a later turn, no later than round `t + 3 * (ahead.length + 1)`. The
state of a position does not depend on how many rounds the run goes on for, so this is a turn
of every run that has that many rounds. -/
theorem bounded_waiting (draws : Draws n) (t j : ℕ) (hj : j ≤ n) (p : Fin n)
    (ahead rest : List (Fin n))
    (hq : (stateAfter draws t j).server.queue = ahead ++ p :: rest) :
    ∃ (r : ℕ) (q : Fin n), (t < r ∨ t = r ∧ j ≤ (q : ℕ)) ∧ r ≤ t + 3 * (ahead.length + 1) ∧
      GrantedAt draws r q p := by
  have hi : Inv (stateAfter draws t j) := stateAfter_inv draws t j
  have hheld : ∃ holder, (stateAfter draws t j).server.holder = some holder := by
    cases hh : (stateAfter draws t j).server.holder with
    | none =>
        have hempty := hi.free hh
        rw [hq] at hempty
        simp at hempty
    | some holder => exact ⟨holder, rfl⟩
  obtain ⟨holder, hh⟩ := hheld
  obtain ⟨d, hd, -, hle⟩ := exists_due hi hh t j
  obtain ⟨r, q, hlater, hbound, hgranted⟩ := granted_by draws p ahead rest t j d hj hh hq hd
  exact ⟨r, q, hlater, by omega, hgranted⟩

/-- Two processes that always want the resource: the second one queues behind the first in
round 0, with nobody ahead of it, and is granted by round 3. -/
theorem bounded_waiting_two :
    let draws : Draws 2 := fun _ _ => ⟨true, 3, by decide⟩
    ∃ (r : ℕ) (q : Fin 2), (0 < r ∨ 0 = r ∧ 2 ≤ (q : ℕ)) ∧ r ≤ 3 ∧ GrantedAt draws r q 1 :=
  bounded_waiting (fun _ _ => ⟨true, 3, by decide⟩) 0 2 (by decide) 1 [] [] (by decide)

end Mutex
