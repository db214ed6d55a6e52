import DistWorkshops.Location.Lookup

/-!
# Lookups over stale pointers

Here the pointers are arbitrary, but for leading from a domain to one of its children. A chain of
them can be stale: it ends at a domain that does not hold the entity. A lookup that follows a
stale chain climbs on from its end, and the first domain it then comes to is the one whose pointer
led there. So it goes back, and never ends (`lookup_never_ends`).
-/

set_option autoImplicit false

namespace Location

open ParentMap Relation

/-- Every pointer of a domain names one of its children. -/
def Service.PointsDown (h : Hierarchy) (service : Service) : Prop :=
  ∀ a e c, service.pointers.getIn a e = some c → h.Child a c

/-- The lookup ends and returns an address or `None`. -/
def Service.Answers (h : Hierarchy) (service : Service) (e start : String) : Prop :=
  ∃ fuel address path, lookup h.parentOf fuel service e start = some (.ok (address, path))

/-- `p` is the nearest domain above `start` with a pointer to the entity. -/
def Service.NearestPointer (h : Hierarchy) (service : Service) (e start p : String) : Prop :=
  h.StrictAncestor p start ∧ service.pointers.getIn p e ≠ none ∧
    ∀ a, h.StrictAncestor a start → service.pointers.getIn a e ≠ none →
      a = p ∨ h.StrictAncestor a p

/-- Following the pointers to the entity from `p` ends at `t`. -/
def Service.LeadsTo (service : Service) (e p t : String) : Prop :=
  ReflTransGen (fun a c => service.pointers.getIn a e = some c) p t ∧
    service.pointers.getIn t e = none

section Stale

variable {h : Hierarchy} {service : Service} {e start p : String}

/-! ## The way the lookup takes -/

/-- The pointers from any domain lead to an end. -/
theorem Service.PointsDown.exists_chain (hdown : service.PointsDown h) (e a : String) :
    ∃ l, Chain (service.pointer e) a l := by
  obtain ⟨la, hla⟩ := h.chain_total a
  apply exists_chain_down _ (fun d l hl => h.chain_length_lt hl) hla
  intro a c hget
  exact (h.parent_eq_some_iff a c).mpr (hdown a e c hget)

theorem leadsTo_of_chain {l : List String} (hl : Chain (service.pointer e) p l) :
    service.LeadsTo e p (endOf p l) := by
  refine ⟨?_, hl.end_top⟩
  induction hl with
  | top _ => exact ReflTransGen.refl
  | up hup _ ih =>
      rw [endOf_cons]
      exact ReflTransGen.head hup ih

/-- The end of the pointers from a domain is one. -/
theorem Service.LeadsTo.end_eq {t : String} (hto : service.LeadsTo e p t) {l : List String}
    (hl : Chain (service.pointer e) p l) : endOf p l = t := by
  obtain ⟨hreach, htop⟩ := hto
  induction hreach using ReflTransGen.head_induction_on generalizing l with
  | refl =>
      rw [hl.unique (.top htop)]
      rfl
  | @head a c hac _ ih =>
      cases hl with
      | top htop' =>
          have hnone : service.pointers.getIn a e = none := htop'
          rw [hac] at hnone
          cases hnone
      | @up _ c' l hup hrest =>
          have hsome : service.pointers.getIn a e = some c' := hup
          rw [hac] at hsome
          cases hsome
          rw [endOf_cons]
          exact ih hrest

/-- The nearest pointer is the first one that the climb meets. -/
theorem nearestPointer_of_split {up rest : List String} {c : String}
    (hs : Chain h.parent start (up ++ p :: rest))
    (hnone : ∀ a ∈ up, service.pointers.getIn a e = none)
    (hsome : service.pointers.getIn p e = some c) : service.NearestPointer h e start p := by
  refine ⟨?_, ?_, ?_⟩
  · rw [← h.ancestor_iff, ← hs.mem_iff]
    simp
  · rw [hsome]
    exact Option.some_ne_none c
  · intro a ha hget
    rw [← h.ancestor_iff, ← hs.mem_iff] at ha
    rcases List.mem_append.mp ha with ha | ha
    · exact absurd (hnone a ha) hget
    · rcases List.mem_cons.mp ha with rfl | ha
      · exact Or.inl rfl
      · right
        rw [← h.ancestor_iff, ← hs.split.2.mem_iff]
        exact ha

theorem Service.NearestPointer.unique {p' : String} (hp : service.NearestPointer h e start p)
    (hp' : service.NearestPointer h e start p') : p = p' := by
  rcases hp'.2.2 p hp.1 hp.2.1 with heq | habove
  · exact heq
  · rcases hp.2.2 p' hp'.1 hp'.2.1 with heq | habove'
    · exact heq.symm
    · -- neither lies strictly above the other
      obtain ⟨l, hl⟩ := h.chain_total p
      rw [← h.ancestor_iff] at habove habove'
      have hcycle : Ancestor h.parent p p := TransGen.trans habove habove'
      exact absurd (hl.mem_iff.mpr hcycle) hl.not_mem

/-! ## A lookup that goes round -/

/-- The climb is about to follow pointers that end where the entity is not. -/
def Stale (h : Hierarchy) (service : Service) (e : String) (s : List String × String) : Prop :=
  ∃ p c l, h.parent s.2 = some p ∧ service.pointers.getIn p e = some c ∧
    Chain (service.pointer e) p l ∧ service.entities.getIn (endOf p l) e = none

/-- A pass over a stale chain ends at its end, if the fuel of the inner loop is enough. -/
theorem stale_pass {current c : String} {l : List String} (hup : h.parent current = some p)
    (hsome : service.pointers.getIn p e = some c) (hl : Chain (service.pointer e) p l)
    (hget : service.entities.getIn (endOf p l) e = none) (fuel : ℕ) (path : List String) :
    climbStep h.parentOf fuel service e (path, current) = .done none ∨
      ∃ path', climbStep h.parentOf fuel service e (path, current)
        = .again (path', endOf p l) := by
  have hne := h.ne_root_of_parent hup
  cases hfollow : Loop.run (followStep service e) fuel (path ++ [p], p) with
  | none => exact Or.inl (climbStep_outOfFuel fuel path hne hup hsome hfollow)
  | some r =>
      have hend := follow_run hl (Nat.lt_succ_of_le (Nat.le_max_right fuel l.length))
        (path ++ [p])
      rw [Loop.run_mono hfollow (Nat.le_succ_of_le (Nat.le_max_left fuel l.length))] at hend
      cases hend
      exact Or.inr ⟨_, climbStep_stale fuel path hne hup hsome hfollow hget⟩

/-- **From the end of a stale chain the climb comes back to it.** -/
theorem stale_again (hdown : service.PointsDown h) {fuel : ℕ} (s s' : List String × String)
    (hs : Stale h service e s) (hstep : climbStep h.parentOf fuel service e s = .again s') :
    Stale h service e s' := by
  obtain ⟨path, current⟩ := s
  obtain ⟨p, c, l, hup, hsome, hl, hget⟩ := hs
  rcases stale_pass hup hsome hl hget fuel path with hpass | ⟨path', hpass⟩
  · rw [hpass] at hstep
    cases hstep
  · rw [hpass] at hstep
    cases hstep
    -- the last pointer of the chain is one of the parent of its end
    have hlne : l ≠ [] := by
      rintro rfl
      have hnone : service.pointers.getIn p e = none := hl.end_top
      rw [hsome] at hnone
      cases hnone
    obtain ⟨q, hq⟩ := hl.last_step hlne
    refine ⟨q, endOf p l, [endOf p l], ?_, hq, .up hq (.top hl.end_top), hget⟩
    exact (h.parent_eq_some_iff _ _).mpr (hdown q e _ hq)

theorem stale_done {fuel : ℕ} (s : List String × String) (r : Option Answer)
    (hs : Stale h service e s) (hstep : climbStep h.parentOf fuel service e s = .done r) :
    r = none := by
  obtain ⟨path, current⟩ := s
  obtain ⟨p, c, l, hup, hsome, hl, hget⟩ := hs
  rcases stale_pass hup hsome hl hget fuel path with hpass | ⟨path', hpass⟩
  · rw [hpass] at hstep
    cases hstep
    rfl
  · rw [hpass] at hstep
    cases hstep

/-- **A lookup that meets a stale chain never ends.** -/
theorem lookup_never_ends (hdown : service.PointsDown h)
    (hlocal : service.entities.getIn start e = none) {up rest l : List String} {c : String}
    (hs : Chain h.parent start (up ++ p :: rest))
    (hnone : ∀ a ∈ up, service.pointers.getIn a e = none)
    (hsome : service.pointers.getIn p e = some c) (hl : Chain (service.pointer e) p l)
    (hget : service.entities.getIn (endOf p l) e = none) (fuel : ℕ) :
    lookup h.parentOf fuel service e start = none := by
  rw [lookup_climbs hlocal]
  cases hrun : Loop.run (climbStep h.parentOf fuel service e) fuel ([start], start) with
  | none => rfl
  | some r =>
      -- with more fuel the climb comes to the stale chain, so `r` is no result
      have hmore := Loop.run_mono hrun (Nat.le_add_left fuel up.length)
      rw [climb_up fuel hs hnone] at hmore
      have hstale : Stale h service e ([start] ++ up, endOf start up) :=
        ⟨p, c, l, hs.split.1, hsome, hl, hget⟩
      have hr : r = none := Loop.run_partial (Stale h service e) (fun r => r = none)
        (stale_again hdown) stale_done hstale hmore
      rw [hr]
      rfl

/-! ## When the lookup ends -/

theorem answers_of_local (hget : service.StoredAt e start) : service.Answers h e start := by
  obtain ⟨address, haddress⟩ := hget
  exact ⟨0, some address, [start, e], lookup_local haddress⟩

theorem answers_of_no_pointer (hmem : start ∈ h.names)
    (hlocal : service.entities.getIn start e = none) {ls : List String}
    (hs : Chain h.parent start ls) (hnone : ∀ a ∈ ls, service.pointers.getIn a e = none) :
    service.Answers h e start := by
  refine ⟨ls.length + 1, none, [start] ++ ls, ?_⟩
  rw [lookup_climbs hlocal,
    climb_misses (ls.length + 1) hs hmem hnone (Nat.lt_succ_self ls.length) [start],
    Option.join_some]

theorem answers_of_found (hlocal : service.entities.getIn start e = none)
    {up rest l : List String} {c address : String}
    (hs : Chain h.parent start (up ++ p :: rest))
    (hnone : ∀ a ∈ up, service.pointers.getIn a e = none)
    (hsome : service.pointers.getIn p e = some c) (hl : Chain (service.pointer e) p l)
    (hget : service.entities.getIn (endOf p l) e = some address) :
    service.Answers h e start := by
  have hfuel : l.length < up.length + l.length + 1 := by omega
  have hk : up.length < up.length + l.length + 1 := by omega
  refine ⟨up.length + l.length + 1, some address, [start] ++ (up ++ p :: l) ++ [e], ?_⟩
  rw [lookup_climbs hlocal, climb_finds hs hnone hsome hl hget hfuel hk [start],
    Option.join_some]

end Stale

/-- **When a lookup over arbitrary pointers ends**: the starting domain holds the entity, or the
pointers from the nearest domain above it that has one, if any has, lead to a domain that holds
it. -/
theorem lookup_answers_iff (h : Hierarchy) (service : Service) (hdown : service.PointsDown h)
    (e start : String) (hmem : start ∈ h.names) :
    service.Answers h e start ↔ service.StoredAt e start ∨
      ∀ p t, service.NearestPointer h e start p → service.LeadsTo e p t →
        service.StoredAt e t := by
  obtain ⟨ls, hs⟩ := h.chain_total start
  cases hlocal : service.entities.getIn start e with
  | some address =>
      have hstored : service.StoredAt e start := ⟨address, hlocal⟩
      exact iff_of_true (answers_of_local hstored) (Or.inl hstored)
  | none =>
      have hnot : ¬ service.StoredAt e start := by
        rintro ⟨address, haddress⟩
        rw [hlocal] at haddress
        cases haddress
      rw [or_iff_right hnot]
      rcases nearest_pointer service e ls with hnone | ⟨up, p, rest, c, rfl, hnone, hsome⟩
      · refine iff_of_true (answers_of_no_pointer hmem hlocal hs hnone) ?_
        intro p t hp
        have hmemp := hs.mem_iff.mpr ((h.ancestor_iff p start).mpr hp.1)
        exact absurd (hnone p hmemp) hp.2.1
      · obtain ⟨l, hl⟩ := hdown.exists_chain e p
        have hnearest := nearestPointer_of_split hs hnone hsome
        cases hget : service.entities.getIn (endOf p l) e with
        | some address =>
            refine iff_of_true (answers_of_found hlocal hs hnone hsome hl hget) ?_
            intro p' t hp' hto
            rw [hp'.unique hnearest] at hto
            rw [← hto.end_eq hl]
            exact ⟨address, hget⟩
        | none =>
            refine iff_of_false ?_ ?_
            · rintro ⟨fuel, address, path, hlookup⟩
              rw [lookup_never_ends hdown hlocal hs hnone hsome hl hget fuel] at hlookup
              cases hlookup
            · intro hall
              obtain ⟨address, haddress⟩ := hall p _ hnearest (leadsTo_of_chain hl)
              rw [hget] at haddress
              cases haddress

/-- The workshop's tree, where the pointer at `ROOT` outlived the `server01` of `EUROPE`. -/
def staleService : Service where
  entities := Dict.empty
  pointers := ⟨[("ROOT", ⟨[("server01", "EUROPE")], by decide⟩)], by decide⟩

theorem staleService_pointsDown : staleService.PointsDown workshop := by
  intro a e c hget
  obtain ⟨inner, hitem, hentry⟩ := (Dict.getIn_eq_some_iff _ _ _ _).mp hget
  cases List.mem_singleton.mp hitem
  cases List.mem_singleton.mp hentry
  exact (workshop.parent_eq_some_iff "ROOT" "EUROPE").mp rfl

theorem lookup_answers_iff_workshop :
    staleService.Answers workshop "server01" "IBARRA" ↔ staleService.StoredAt "server01" "IBARRA" ∨
      ∀ p t, staleService.NearestPointer workshop "server01" "IBARRA" p →
        staleService.LeadsTo "server01" p t → staleService.StoredAt "server01" t :=
  lookup_answers_iff workshop staleService staleService_pointsDown "server01" "IBARRA" (by decide)

/-- `lookup("server01", "IBARRA")` goes round between `ROOT` and `EUROPE`. -/
theorem lookup_goes_round :
    (∀ fuel, lookup workshop.parentOf fuel staleService "server01" "IBARRA" = none) ∧
      ¬ ∀ (h : Hierarchy) (service : Service), service.PointsDown h →
        ∀ e start, start ∈ h.names → service.Answers h e start := by
  have hchain : Chain workshop.parent "IBARRA" (["ECUADOR", "AMERICA"] ++ "ROOT" :: []) :=
    .up rfl (.up rfl (.up rfl (.top rfl)))
  have hpointers : Chain (staleService.pointer "server01") "ROOT" ["EUROPE"] :=
    .up rfl (.top rfl)
  have hnever : ∀ fuel, lookup workshop.parentOf fuel staleService "server01" "IBARRA" = none :=
    lookup_never_ends staleService_pointsDown rfl hchain (by decide) rfl hpointers rfl
  refine ⟨hnever, fun h => ?_⟩
  obtain ⟨fuel, address, path, hlookup⟩ :=
    h workshop staleService staleService_pointsDown "server01" "IBARRA" (by decide)
  rw [hnever fuel] at hlookup
  cases hlookup

end Location
