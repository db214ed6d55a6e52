import DistWorkshops.Forwarding.Resolve

/-!
# Shortcuts keep what `resolve` answers, and failures go unnoticed

A shortcut keeps the keys, the end of every chain, and makes no chain longer (`Preserves`), so any
sequence of shortcuts does. A location with a shortcut no longer needs the others.

After the deletion of a location the chains through it end there, and `resolve` answers its name
as if it were an address. The loop test that ends a chain is the same that would have to find the
broken pointer.
-/

set_option autoImplicit false

namespace Forwarding

open ParentMap Relation

namespace Locations

/-! ## One shortcut -/

/-- The same keys, the same ends, and no longer chains. -/
def Preserves (before after : Locations) : Prop :=
  after.keys = before.keys ∧ ∀ y l, Chain before.get? y l →
    ∃ l', Chain after.get? y l' ∧ endOf y l' = endOf y l ∧ l'.length ≤ l.length

theorem Preserves.refl (locations : Locations) : Preserves locations locations :=
  ⟨rfl, fun _ l hl => ⟨l, hl, rfl, Nat.le_refl l.length⟩⟩

theorem Preserves.trans {first second third : Locations} (h : Preserves first second)
    (h' : Preserves second third) : Preserves first third := by
  refine ⟨h'.1.trans h.1, fun y l hl => ?_⟩
  obtain ⟨l₂, hl₂, hend₂, hle₂⟩ := h.2 y l hl
  obtain ⟨l₃, hl₃, hend₃, hle₃⟩ := h'.2 y l₂ hl₂
  exact ⟨l₃, hl₃, hend₃.trans hend₂, Nat.le_trans hle₃ hle₂⟩

/-- A dictionary with the same keys is as long. -/
theorem Preserves.length_eq {before after : Locations} (h : Preserves before after) :
    after.entries.length = before.entries.length := by
  have hkeys := congrArg List.length h.1
  rw [keys, keys, List.length_map, List.length_map] at hkeys
  exact hkeys

variable {locations : Locations} {x : String} {l : List String}

theorem get?_set_eq_shortcut :
    (locations.set x (endOf x l)).get? = ParentMap.shortcut locations.get? x l := by
  funext y
  rw [Dict.get?_set, ParentMap.shortcut, Function.update_apply]

theorem keys_set (hx : x ∈ locations.keys) (address : String) :
    keys (locations.set x address) = locations.keys := by
  rw [keys, keys, Dict.set, Dict.keys_assign]
  exact if_pos hx

/-- **A shortcut preserves the map**, and its location is one hop away from its address. -/
theorem shortcut_spec (h : Chain locations.get? x l) (hx : x ∈ locations.keys) {fuel : ℕ}
    (hfuel : l.length < fuel) :
    ∃ after, locations.shortcut fuel x = some (.ok after) ∧ Preserves locations after ∧
      Chain after.get? x [endOf x l] := by
  have hsome := mem_keys_iff.mp hx
  refine ⟨locations.set x (endOf x l), ?_, ⟨keys_set hx _, ?_⟩, ?_⟩
  · simp only [shortcut, resolve_of_chain h hfuel]
  · intro y ly hy
    rw [get?_set_eq_shortcut]
    exact h.shortcut_other hsome hy
  · rw [get?_set_eq_shortcut]
    exact h.shortcut_self hsome

/-- What has one hop keeps it. -/
theorem Preserves.one_hop {before after : Locations} (h : Preserves before after) {e : String}
    (hx : Chain before.get? x [e]) : Chain after.get? x [e] := by
  obtain ⟨l', hl', hend, hle⟩ := h.2 x [e] hx
  -- a key has at least one hop
  have hkey : x ∈ before.keys := by
    cases hx with
    | up hup _ => exact mem_keys_of_get? hup
  rw [← h.1, mem_keys_iff] at hkey
  cases hl' with
  | top htop => exact absurd htop hkey
  | @up d p rest hup hrest =>
      have hnil : rest = [] := by
        rw [List.length_cons, List.length_singleton] at hle
        exact List.length_eq_zero_iff.mp (by omega)
      subst hnil
      rw [endOf_cons, endOf_cons, endOf_nil, endOf_nil] at hend
      rw [← hend]
      exact .up hup hrest

/-! ## Sequences of shortcuts -/

theorem shortcuts_spec {locations : Locations}
    (hchain : ∀ y, ∃ l, Chain locations.get? y l) {xs : List String}
    (hxs : ∀ x ∈ xs, x ∈ locations.keys) {fuel : ℕ}
    (hfuel : locations.entries.length < fuel) :
    ∃ after, shortcuts fuel locations xs = some (.ok after) ∧ Preserves locations after ∧
      ∀ x ∈ xs, ∃ e, Chain after.get? x [e] := by
  induction xs generalizing locations with
  | nil => exact ⟨locations, rfl, Preserves.refl locations, fun x hx => by cases hx⟩
  | cons x xs ih =>
      obtain ⟨l, hl⟩ := hchain x
      obtain ⟨middle, hshortcut, hpres, hone⟩ := shortcut_spec hl (hxs x List.mem_cons_self)
        (Nat.lt_of_le_of_lt (chain_length_le hl) hfuel)
      have hchain' : ∀ y, ∃ l, Chain middle.get? y l := fun y => by
        obtain ⟨ly, hly⟩ := hchain y
        obtain ⟨l', hl', -⟩ := hpres.2 y ly hly
        exact ⟨l', hl'⟩
      have hxs' : ∀ x ∈ xs, x ∈ middle.keys := fun z hz => by
        rw [hpres.1]
        exact hxs z (List.mem_cons_of_mem x hz)
      obtain ⟨after, hrest, hpres', hones⟩ := ih hchain' hxs' (by
        rw [hpres.length_eq]
        exact hfuel)
      refine ⟨after, ?_, hpres.trans hpres', ?_⟩
      · simp only [shortcuts, hshortcut, hrest]
      · intro z hz
        rcases List.mem_cons.mp hz with rfl | hz
        · exact ⟨_, hpres'.one_hop hone⟩
        · exact hones z hz

/-! ## Deletions -/

theorem delete_eq (hx : x ∈ locations.keys) : locations.delete x = .ok (locations.erase x) := by
  obtain ⟨v, hv⟩ := Option.ne_none_iff_exists'.mp (mem_keys_iff.mp hx)
  simp only [delete, hv]

theorem deleteAll_spec {locations : Locations} {gone : List String} (hnodup : gone.Nodup)
    (hgone : ∀ k ∈ gone, k ∈ locations.keys) :
    ∃ rest, locations.deleteAll gone = .ok rest ∧
      ∀ k, rest.get? k = if k ∈ gone then none else locations.get? k := by
  induction gone generalizing locations with
  | nil => exact ⟨locations, rfl, fun k => by simp⟩
  | cons c gone ih =>
      obtain ⟨hc, hnodup'⟩ := List.nodup_cons.mp hnodup
      have hgone' : ∀ k ∈ gone, k ∈ keys (locations.erase c) := by
        intro k hk
        have hne : k ≠ c := fun heq => hc (heq ▸ hk)
        rw [mem_keys_iff, Dict.get?_erase, if_neg hne]
        exact mem_keys_iff.mp (hgone k (List.mem_cons_of_mem c hk))
      obtain ⟨rest, hrest, hget⟩ := ih hnodup' hgone'
      refine ⟨rest, ?_, ?_⟩
      · rw [deleteAll, List.foldlM_cons, delete_eq (hgone c List.mem_cons_self)]
        exact hrest
      · intro k
        rw [hget k, Dict.get?_erase]
        by_cases hk : k = c
        · subst hk
          rw [if_pos rfl, if_pos List.mem_cons_self, ite_self]
        · simp only [hk, List.mem_cons, false_or, if_false]

/-! ## What `resolve` answers afterwards -/

/-- `resolve` answers the same address for every location, with no more hops. -/
def SameAnswers (fuel : ℕ) (before after : Locations) : Prop :=
  ∀ y, ∃ address hops hops', before.resolve fuel y = some (.ok (address, hops)) ∧
    after.resolve fuel y = some (.ok (address, hops')) ∧ hops' ≤ hops

def OneHop (fuel : ℕ) (locations : Locations) (x : String) : Prop :=
  ∃ address, locations.resolve fuel x = some (.ok (address, 1))

theorem Preserves.sameAnswers {before after : Locations} (h : Preserves before after)
    (hchain : ∀ y, ∃ l, Chain before.get? y l) {fuel : ℕ}
    (hfuel : before.entries.length < fuel) : SameAnswers fuel before after := by
  intro y
  obtain ⟨l, hl⟩ := hchain y
  obtain ⟨l', hl', hend, hle⟩ := h.2 y l hl
  have hlt := Nat.lt_of_le_of_lt (chain_length_le hl) hfuel
  refine ⟨endOf y l, l.length, l'.length, resolve_of_chain hl hlt, ?_, hle⟩
  rw [← hend]
  exact resolve_of_chain hl' (Nat.lt_of_le_of_lt hle hlt)

/-- **Shortcuts preserve meaning.** In a map in which following pointers always ends, after any
sequence of shortcuts at keys: every location has the address it had, in no more hops; each
location with a shortcut has one hop, hence every key when all have one; and the answer for such a
location survives the deletion of any other keys. -/
theorem shortcuts_preserve (locations : Locations) (hterm : locations.Terminating)
    (xs : List String) (hxs : ∀ x ∈ xs, x ∈ locations.keys) (fuel : ℕ)
    (hfuel : locations.entries.length < fuel) :
    ∃ after, shortcuts fuel locations xs = some (.ok after) ∧
      SameAnswers fuel locations after ∧ (∀ x ∈ xs, OneHop fuel after x) ∧
      ((∀ k ∈ locations.keys, k ∈ xs) → ∀ k ∈ after.keys, OneHop fuel after k) ∧
      ∀ x ∈ xs, ∀ gone : List String, gone.Nodup →
        (∀ k ∈ gone, k ∈ after.keys ∧ k ≠ x) →
        ∃ rest, after.deleteAll gone = .ok rest ∧ rest.resolve fuel x = after.resolve fuel x := by
  have hchain := hterm.exists_chain
  obtain ⟨after, hrun, hpres, hones⟩ := shortcuts_spec hchain hxs hfuel
  have hhop : ∀ x ∈ xs, OneHop fuel after x := by
    intro x hx
    obtain ⟨e, he⟩ := hones x hx
    have hlt := chain_length_le he
    rw [hpres.length_eq] at hlt
    exact ⟨e, resolve_of_chain he (Nat.lt_of_le_of_lt hlt hfuel)⟩
  refine ⟨after, hrun, hpres.sameAnswers hchain hfuel, hhop, ?_, ?_⟩
  · intro hall k hk
    rw [hpres.1] at hk
    exact hhop k (hall k hk)
  · intro x hx gone hnodup hgone
    obtain ⟨e, he⟩ := hones x hx
    obtain ⟨rest, hrest, hget⟩ := deleteAll_spec hnodup fun k hk => (hgone k hk).1
    refine ⟨rest, hrest, ?_⟩
    have hlt : [e].length < fuel := by
      have hle := chain_length_le he
      rw [hpres.length_eq] at hle
      omega
    -- the pointer at `x` is still there, and its target is still no key
    have hrestChain : Chain rest.get? x [e] := by
      cases he with
      | up hup htop =>
          cases htop with
          | top htop =>
              apply chain_one_hop
              · rw [hget x, if_neg fun hmem => (hgone x hmem).2 rfl]
                exact hup
              · rw [hget e, htop, ite_self]
    rw [resolve_of_chain hrestChain hlt, resolve_of_chain he hlt]

/-! ## Broken chains -/

/-- **A broken chain is never reported.** After the deletion of a key, `resolve` of a location
whose chain passes through it answers the deleted name as the address, and raises no
`KeyError`. -/
theorem broken_chain_unreported (locations : Locations) (c y : String) (hc : c ∈ locations.keys)
    (hpass : locations.PassesThrough y c) :
    ∃ rest, locations.delete c = .ok rest ∧
      (∃ hops, ∀ fuel, hops < fuel → rest.resolve fuel y = some (.ok (c, hops))) ∧
      ∀ fuel, rest.resolve fuel y ≠ some (.error .keyError) := by
  refine ⟨locations.erase c, delete_eq hc, ?_, fun fuel => resolve_ne_error fuel y .keyError⟩
  have hgone : (locations.erase c).get? c = none := by
    rw [Dict.get?_erase, if_pos rfl]
  have hother : ∀ a, a ≠ c → (locations.erase c).get? a = locations.get? a := by
    intro a ha
    rw [Dict.get?_erase, if_neg ha]
  obtain ⟨l, hl, hend⟩ := chain_to_removed hgone hother hpass
  refine ⟨l.length, fun fuel hfuel => ?_⟩
  rw [resolve_of_chain hl hfuel, hend]

end Locations

theorem workshopLocations_terminating : workshopLocations.Terminating := by
  intro y
  by_cases hy : y ∈ workshopLocations.keys
  · simp only [workshopLocations, Locations.keys, List.map_cons, List.map_nil, List.mem_cons,
      List.not_mem_nil, or_false] at hy
    rcases hy with rfl | rfl | rfl | rfl <;> exact ⟨5, _, rfl⟩
  · rw [Locations.mem_keys_iff, not_not] at hy
    exact ⟨1, _, Loop.run_done 0 (Locations.resolveStep_end hy 0)⟩

/-- The shortcut of the script, then one at `B`. -/
theorem shortcuts_preserve_workshop :
    ∃ after, Locations.shortcuts 5 workshopLocations ["A", "B"] = some (.ok after) ∧
      Locations.SameAnswers 5 workshopLocations after ∧
      (∀ x ∈ ["A", "B"], Locations.OneHop 5 after x) ∧
      ((∀ k ∈ workshopLocations.keys, k ∈ ["A", "B"]) →
        ∀ k ∈ after.keys, Locations.OneHop 5 after k) ∧
      ∀ x ∈ ["A", "B"], ∀ gone : List String, gone.Nodup →
        (∀ k ∈ gone, k ∈ after.keys ∧ k ≠ x) →
        ∃ rest, after.deleteAll gone = .ok rest ∧ rest.resolve 5 x = after.resolve 5 x := by
  exact Locations.shortcuts_preserve workshopLocations workshopLocations_terminating ["A", "B"]
    (by decide) 5 (by decide)

/-- The failure that the script simulates: `B` resolves to `C`. -/
theorem broken_chain_unreported_workshop :
    ∃ rest, workshopLocations.delete "C" = .ok rest ∧
      (∃ hops, ∀ fuel, hops < fuel → rest.resolve fuel "B" = some (.ok ("C", hops))) ∧
      ∀ fuel, rest.resolve fuel "B" ≠ some (.error .keyError) :=
  Locations.broken_chain_unreported workshopLocations "C" "B" (by decide)
    (ReflTransGen.single rfl)

/-- The handler for a `KeyError` in the script is not reached. -/
theorem broken_chain_answered :
    workshopLocations.Terminating ∧ workshopLocations.PassesThrough "B" "C" ∧
      ¬ ∀ (locations : Locations) (c y : String), locations.Terminating → c ∈ locations.keys →
        locations.PassesThrough y c → ∃ rest fuel, locations.delete c = .ok rest ∧
          rest.resolve fuel y = some (.error .keyError) := by
  have hpass : workshopLocations.PassesThrough "B" "C" := ReflTransGen.single rfl
  refine ⟨workshopLocations_terminating, hpass, fun h => ?_⟩
  obtain ⟨rest, fuel, -, herror⟩ :=
    h workshopLocations "C" "B" workshopLocations_terminating (by decide) hpass
  exact Locations.resolve_ne_error fuel "B" .keyError herror

end Forwarding
