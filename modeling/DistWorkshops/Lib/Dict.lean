import Mathlib.Data.List.Nodup

/-!
# Insertion-ordered dictionaries

A Python `dict`: entries with distinct keys, in the order in which the keys were first
inserted. An assignment to a key that is there keeps its place; a new key goes to the end.
Nested dictionaries have operations of their own (`getIn`, `setIn`, `eraseIn`), where a missing
inner dictionary reads as an empty one.
-/

set_option autoImplicit false

structure Dict (κ ν : Type) where
  entries : List (κ × ν)
  nodup : (entries.map Prod.fst).Nodup

namespace Dict

variable {κ ι ν : Type} [DecidableEq κ] [DecidableEq ι]

/-! ## Lists of entries -/

/-- The entries after the assignment of `v` to the key `k`. -/
def assign (k : κ) (v : ν) : List (κ × ν) → List (κ × ν)
  | [] => [(k, v)]
  | (k', v') :: rest => if k' = k then (k, v) :: rest else (k', v') :: assign k v rest

theorem keys_assign (k : κ) (v : ν) (entries : List (κ × ν)) :
    (assign k v entries).map Prod.fst =
      if k ∈ entries.map Prod.fst then entries.map Prod.fst
      else entries.map Prod.fst ++ [k] := by
  induction entries with
  | nil => simp [assign]
  | cons entry rest ih =>
      obtain ⟨k', v'⟩ := entry
      by_cases hk : k' = k
      · subst hk
        simp [assign]
      · have hne : k ≠ k' := fun he => hk he.symm
        simp only [assign, if_neg hk, List.map_cons, ih, List.mem_cons, hne, false_or]
        by_cases hmem : k ∈ rest.map Prod.fst
        · rw [if_pos hmem, if_pos hmem]
        · rw [if_neg hmem, if_neg hmem, List.cons_append]

theorem nodup_assign (k : κ) (v : ν) {entries : List (κ × ν)}
    (h : (entries.map Prod.fst).Nodup) : ((assign k v entries).map Prod.fst).Nodup := by
  rw [keys_assign]
  by_cases hk : k ∈ entries.map Prod.fst
  · rw [if_pos hk]
    exact h
  · rw [if_neg hk]
    exact h.append (List.nodup_singleton k) (by simpa using hk)

/-- An assignment to a new key appends an entry. -/
theorem assign_of_not_mem {k : κ} (v : ν) {entries : List (κ × ν)}
    (h : k ∉ entries.map Prod.fst) : assign k v entries = entries ++ [(k, v)] := by
  induction entries with
  | nil => rfl
  | cons entry rest ih =>
      rw [List.map_cons, List.mem_cons, not_or] at h
      rw [assign, if_neg (fun he => h.1 he.symm), ih h.2, List.cons_append]

theorem lookup_entry (k j : κ) (v : ν) (rest : List (κ × ν)) :
    ((k, v) :: rest).lookup j = if j = k then some v else rest.lookup j := by
  rw [List.lookup_cons]
  by_cases hj : j = k
  · rw [if_pos hj, beq_iff_eq.mpr hj]
  · rw [if_neg hj, beq_eq_false_iff_ne.mpr hj]

theorem lookup_assign (k j : κ) (v : ν) (entries : List (κ × ν)) :
    (assign k v entries).lookup j = if j = k then some v else entries.lookup j := by
  induction entries with
  | nil => rw [assign, lookup_entry]
  | cons entry rest ih =>
      obtain ⟨k', v'⟩ := entry
      by_cases hk : k' = k
      · subst hk
        rw [assign, if_pos rfl, lookup_entry, lookup_entry]
        by_cases hj : j = k'
        · rw [if_pos hj, if_pos hj]
        · rw [if_neg hj, if_neg hj, if_neg hj]
      · -- the assignment is further on; the entry here answers only for its own key
        rw [assign, if_neg hk, lookup_entry, lookup_entry, ih]
        by_cases hj : j = k'
        · rw [if_pos hj, if_pos hj, if_neg (fun he => hk (hj ▸ he))]
        · rw [if_neg hj, if_neg hj]

theorem lookup_filter (k j : κ) (entries : List (κ × ν)) :
    (entries.filter (fun entry => entry.1 ≠ k)).lookup j =
      if j = k then none else entries.lookup j := by
  induction entries with
  | nil => simp
  | cons entry rest ih =>
      obtain ⟨k', v'⟩ := entry
      by_cases hk : k' = k
      · subst hk
        rw [List.filter_cons_of_neg (by simp), ih, lookup_entry]
        by_cases hj : j = k'
        · rw [if_pos hj, if_pos hj]
        · rw [if_neg hj, if_neg hj, if_neg hj]
      · rw [List.filter_cons_of_pos (by simpa using hk), lookup_entry, lookup_entry, ih]
        by_cases hj : j = k'
        · rw [if_pos hj, if_pos hj, if_neg (fun he => hk (hj ▸ he))]
        · rw [if_neg hj, if_neg hj]

/-! ## The operations -/

def empty : Dict κ ν := ⟨[], List.nodup_nil⟩

/-- `d.get(k)`. -/
def get? (d : Dict κ ν) (k : κ) : Option ν := d.entries.lookup k

/-- `d.get(k, default)`. -/
def getD (d : Dict κ ν) (k : κ) (default : ν) : ν := (d.get? k).getD default

/-- `d[k] = v`. -/
def set (d : Dict κ ν) (k : κ) (v : ν) : Dict κ ν :=
  ⟨assign k v d.entries, nodup_assign k v d.nodup⟩

/-- `del d[k]`, and `d.pop(k)` less its result, for a key that is there. -/
def erase (d : Dict κ ν) (k : κ) : Dict κ ν :=
  ⟨d.entries.filter (fun entry => entry.1 ≠ k), d.nodup.sublist (List.filter_sublist.map _)⟩

@[simp] theorem get?_empty (k : κ) : (empty : Dict κ ν).get? k = none := rfl

theorem get?_set (d : Dict κ ν) (k j : κ) (v : ν) :
    (d.set k v).get? j = if j = k then some v else d.get? j := lookup_assign k j v d.entries

theorem get?_erase (d : Dict κ ν) (k j : κ) :
    (d.erase k).get? j = if j = k then none else d.get? j := lookup_filter k j d.entries

@[simp] theorem getD_set_self (d : Dict κ ν) (k : κ) (v default : ν) :
    (d.set k v).getD k default = v := by
  rw [getD, get?_set, if_pos rfl, Option.getD_some]

theorem getD_set_of_ne (d : Dict κ ν) {k j : κ} (h : j ≠ k) (v default : ν) :
    (d.set k v).getD j default = d.getD j default := by
  rw [getD, get?_set, if_neg h, getD]

/-- The entries are what `get?` finds: no key has two of them. -/
theorem get?_eq_some_iff (d : Dict κ ν) (k : κ) (v : ν) :
    d.get? k = some v ↔ (k, v) ∈ d.entries := by
  obtain ⟨entries, nodup⟩ := d
  show entries.lookup k = some v ↔ (k, v) ∈ entries
  induction entries with
  | nil => simp
  | cons entry rest ih =>
      obtain ⟨k', v'⟩ := entry
      rw [List.map_cons, List.nodup_cons] at nodup
      rw [lookup_entry, List.mem_cons, Prod.mk.injEq]
      by_cases hk : k = k'
      · subst hk
        -- a second entry under the same key would break `nodup`
        have hrest : (k, v) ∉ rest := fun h =>
          nodup.1 (List.mem_map.mpr ⟨(k, v), h, rfl⟩)
        rw [if_pos rfl, Option.some.injEq]
        simp only [true_and, hrest, or_false]
        exact eq_comm
      · rw [if_neg hk, ih nodup.2]
        simp only [hk, false_and, false_or]

/-! ## Filling -/

/-- The dictionary after an assignment for each pair. -/
def ofPairs (pairs : List (κ × ν)) : Dict κ ν := pairs.foldl (fun d p => d.set p.1 p.2) empty

/-- Pairs with distinct keys are the entries. -/
theorem entries_ofPairs {pairs : List (κ × ν)} (h : (pairs.map Prod.fst).Nodup) :
    (ofPairs pairs).entries = pairs := by
  have hfold : ∀ (rest : List (κ × ν)) (d : Dict κ ν),
      ((d.entries ++ rest).map Prod.fst).Nodup →
      (rest.foldl (fun d p => d.set p.1 p.2) d).entries = d.entries ++ rest := by
    intro rest
    induction rest with
    | nil =>
        intro d _
        rw [List.foldl_nil, List.append_nil]
    | cons p rest ih =>
        intro d hnodup
        have hnew : p.1 ∉ d.entries.map Prod.fst := by
          rw [List.map_append, List.nodup_append] at hnodup
          exact fun hmem => hnodup.2.2 p.1 hmem p.1 List.mem_cons_self rfl
        have hset : (d.set p.1 p.2).entries = d.entries ++ [p] := assign_of_not_mem p.2 hnew
        have hassoc : (d.set p.1 p.2).entries ++ rest = d.entries ++ p :: rest := by
          rw [hset, List.append_assoc, List.singleton_append]
        rw [List.foldl_cons, ih (d.set p.1 p.2) (by rw [hassoc]; exact hnodup), hassoc]
  exact hfold pairs empty h

/-! ## Nested dictionaries -/

/-- `d.get(i, {}).get(k)`. -/
def getIn (d : Dict ι (Dict κ ν)) (i : ι) (k : κ) : Option ν := (d.getD i empty).get? k

/-- `d.setdefault(i, {})[k] = v`. -/
def setIn (d : Dict ι (Dict κ ν)) (i : ι) (k : κ) (v : ν) : Dict ι (Dict κ ν) :=
  d.set i ((d.getD i empty).set k v)

/-- `del d[i][k]`, for keys that are there. -/
def eraseIn (d : Dict ι (Dict κ ν)) (i : ι) (k : κ) : Dict ι (Dict κ ν) :=
  d.set i ((d.getD i empty).erase k)

@[simp] theorem getIn_empty (i : ι) (k : κ) :
    (empty : Dict ι (Dict κ ν)).getIn i k = none := rfl

theorem getIn_setIn (d : Dict ι (Dict κ ν)) (i j : ι) (k l : κ) (v : ν) :
    (d.setIn i k v).getIn j l = if j = i ∧ l = k then some v else d.getIn j l := by
  by_cases hj : j = i
  · subst hj
    simp only [getIn, setIn, getD_set_self, get?_set, true_and]
  · simp only [getIn, setIn, getD_set_of_ne d hj, hj, false_and, if_false]

theorem getIn_eraseIn (d : Dict ι (Dict κ ν)) (i j : ι) (k l : κ) :
    (d.eraseIn i k).getIn j l = if j = i ∧ l = k then none else d.getIn j l := by
  by_cases hj : j = i
  · subst hj
    simp only [getIn, eraseIn, getD_set_self, get?_erase, true_and]
  · simp only [getIn, eraseIn, getD_set_of_ne d hj, hj, false_and, if_false]

/-- What is found in a nested dictionary is an entry of an entry. -/
theorem getIn_eq_some_iff (d : Dict ι (Dict κ ν)) (i : ι) (k : κ) (v : ν) :
    d.getIn i k = some v ↔ ∃ inner, (i, inner) ∈ d.entries ∧ (k, v) ∈ inner.entries := by
  constructor
  · intro h
    cases hi : d.get? i with
    | none =>
        rw [getIn, getD, hi] at h
        cases h
    | some inner =>
        rw [getIn, getD, hi] at h
        exact ⟨inner, (d.get?_eq_some_iff i inner).mp hi, (inner.get?_eq_some_iff k v).mp h⟩
  · rintro ⟨inner, hi, hk⟩
    rw [getIn, getD, (d.get?_eq_some_iff i inner).mpr hi]
    exact (inner.get?_eq_some_iff k v).mpr hk

end Dict
