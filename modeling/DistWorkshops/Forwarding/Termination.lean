import DistWorkshops.Forwarding.Resolve
import DistWorkshops.Lib.Walk

/-!
# When `resolve` returns

`resolve` has no measure of its own: whether its loop ends depends on the whole of `locations`. It
ends exactly for the locations from which the pointers never lead to one location twice; from the
others they enter a cycle of keys, as after a move back to an earlier location.
-/

set_option autoImplicit false

namespace Forwarding

open ParentMap Relation

namespace Locations

variable (locations : Locations)

/-- `resolve(start)` returns. -/
def Returns (start : String) : Prop :=
  ∃ fuel result, locations.resolve fuel start = some (.ok result)

/-- The distinct keys that are visited from `start`. -/
def visited (start : String) : Set String :=
  {key | key ∈ locations.keys ∧ locations.PassesThrough start key}

/-- Following the pointers from `start` repeats no location. -/
def NeverRepeats (start : String) : Prop := ParentMap.NeverRepeats locations.get? start

/-- The chain from `start` comes to a key from which it leads back to that key, over keys only. -/
def EntersCycle (start : String) : Prop :=
  ∃ key, locations.PassesThrough start key ∧
    TransGen (fun a b => locations.get? a = some b) key key ∧
    ∀ c, locations.PassesThrough key c → c ∈ locations.keys

variable {locations} {start : String}

theorem returns_iff_chain : locations.Returns start ↔ ∃ l, Chain locations.get? start l := by
  constructor
  · rintro ⟨fuel, result, h⟩
    exact exists_chain_of_run h
  · rintro ⟨l, hl⟩
    exact ⟨l.length + 1, _, resolve_of_chain hl (Nat.lt_succ_self l.length)⟩

/-- As many passes as there are entries, and one for the last test, are enough. -/
theorem returns_iff_entries : locations.Returns start ↔
    ∃ result, locations.resolve (locations.entries.length + 1) start = some (.ok result) := by
  rw [returns_iff_chain]
  constructor
  · rintro ⟨l, hl⟩
    exact ⟨_, resolve_of_chain hl (Nat.lt_succ_of_le (chain_length_le hl))⟩
  · rintro ⟨result, h⟩
    exact exists_chain_of_run h

/-- The length of the chain counts the keys on it. -/
theorem ncard_visited {l : List String} (h : Chain locations.get? start l) :
    (locations.visited start).ncard = l.length := by
  rw [← h.ncard_passed]
  congr 1
  ext key
  exact and_congr_left fun _ => mem_keys_iff

/-- From a place on a cycle the pointers never come to a place that is no key. -/
theorem mem_keys_of_cycle {key c : String}
    (hcycle : TransGen (Points locations.get?) key key)
    (h : ReflTransGen (Points locations.get?) key c) : c ∈ locations.keys := by
  by_contra hc
  rw [mem_keys_iff, not_not] at hc
  -- otherwise the walk from `key` ends there
  obtain ⟨k, hk⟩ := exists_walk_of_reach h
  obtain ⟨l, hl⟩ := exists_chain_of_walk hk hc
  exact EntersCycle.not_neverRepeats ⟨key, ReflTransGen.refl, hcycle⟩ hl.neverRepeats

/-- **When `resolve` returns.** It does exactly if the pointers from `start` never lead to a
location twice. Then the address is no key, and the hops are the distinct keys that were visited,
at most all of them. Otherwise the chain enters a cycle of keys. -/
theorem resolve_returns_iff (locations : Locations) (start : String) :
    (locations.Returns start ↔ locations.NeverRepeats start) ∧
      (∀ fuel address hops, locations.resolve fuel start = some (.ok (address, hops)) →
        address ∉ locations.keys ∧ hops = (locations.visited start).ncard ∧
          hops ≤ locations.entries.length) ∧
      (¬ locations.Returns start →
        (∀ fuel, locations.resolve fuel start = none) ∧ locations.EntersCycle start) := by
  refine ⟨?_, ?_, ?_⟩
  · rw [returns_iff_chain]
    exact exists_chain_iff_neverRepeats fun a b => mem_keys_of_get?
  · intro fuel address hops h
    obtain ⟨l, hl, hresult⟩ := resolve_eq_some h
    obtain ⟨rfl, rfl⟩ := Prod.mk.inj (Except.ok.inj hresult)
    refine ⟨?_, (ncard_visited hl).symm, chain_length_le hl⟩
    rw [mem_keys_iff, not_not]
    exact hl.end_top
  · intro hnot
    constructor
    · intro fuel
      cases hrun : locations.resolve fuel start with
      | none => rfl
      | some r =>
          cases r with
          | error e => exact absurd hrun (resolve_ne_error fuel start e)
          | ok result => exact absurd ⟨fuel, result, hrun⟩ hnot
    · rw [returns_iff_chain] at hnot
      obtain ⟨key, hreach, hcycle⟩ :=
        (not_exists_chain_iff_entersCycle fun a b => mem_keys_of_get?).mp hnot
      exact ⟨key, hreach, hcycle, fun c hc => mem_keys_of_cycle hcycle hc⟩

end Locations

end Forwarding
