import DistWorkshops.Lib.KeyedTable
import DistWorkshops.Sharding.Client

set_option autoImplicit false

/-! # Horizontal shards

The users are split by their id between two databases, the even ones on the first and the odd
ones on the second. Given an id, `coordinator.ps1` asks the shard that has it; given none, it
asks both and sorts what they sent. The parameter says by its sign which of the two is meant, so
an id below zero cannot be looked up.
-/

namespace Sharding

open Sql KeyedTable

open scoped List

/-! ## The shards -/

inductive Shard where
  | shard1
  | shard2
  deriving DecidableEq

def shards : List Shard := [.shard1, .shard2]

def getShardFor (key : Int32) : Shard := if key % 2 = 0 then .shard1 else .shard2

/-- A row of `users`; all columns but the key may be `NULL`. -/
structure User where
  id : Int32
  name : Option (List Char)
  email : Option (List Char)
  city : Option (List Char)

def usersTable : Table User where
  select := "SELECT id, name, email, city FROM users".toList
  columns := [("id".toList, fun u => .int u.id.toInt), ("name".toList, fun u => .ofText u.name),
    ("email".toList, fun u => .ofText u.email), ("city".toList, fun u => .ofText u.city)]

/-- What the two databases hold. The id is a primary key, and the shard of a row that of its
id. -/
structure Shards where
  rows : Shard → List User
  keys : ∀ s, ((rows s).map User.id).Nodup
  placed : ∀ s, ∀ u ∈ rows s, getShardFor u.id = s

/-! ## `coordinator.ps1` -/

/-- A row of the merged table. What a line lacks is `$null`. -/
structure Row where
  id : Int32
  name : Option (List Char)
  email : Option (List Char)
  city : Option (List Char)
  shard : Shard
  deriving DecidableEq

/-- A line whose first value is no integer raises, and the next one is read. -/
def invokeShardQuery (ps : PowerShell) (rows : List User) (shard : Shard) (sql : List Char) :
    List Row :=
  (ps.query usersTable rows sql).filterMap fun f =>
    (f[0]?.bind ps.int?).map fun id =>
      { id := id, name := f[1]?, email := f[2]?, city := f[3]?, shard := shard }

/-- The script; `order` is how each shard enumerates its rows for this run. -/
def coordinator (ps : PowerShell) (db : Shards) (order : Shard → Enumeration User) (Id : Int32) :
    List Row :=
  let sql := "SELECT id, name, email, city FROM users".toList
  if 0 ≤ Id then
    let target := getShardFor Id
    invokeShardQuery ps ((order target).list (db.rows target)) target
      (sql ++ (" WHERE id = ".toList ++ Decimal.intText Id.toInt))
  else
    let all := shards.flatMap fun s => invokeShardQuery ps ((order s).list (db.rows s)) s sql
    sortBy (fun r => r.id.toInt) all

/-- The script without a parameter, whose `Id` is then -1. -/
def mergedTable (ps : PowerShell) (db : Shards) (order : Shard → Enumeration User) : List Row :=
  coordinator ps db order (-1)

/-! ## The rows of the shards -/

/-- How a row of a shard is shown. -/
def User.shown (s : Shard) (u : User) : Row where
  id := u.id
  name := some (Value.ofText u.name).cell
  email := some (Value.ofText u.email).cell
  city := some (Value.ofText u.city).cell
  shard := s

/-- The rows of both shards. -/
def Shards.table (db : Shards) : List Row := shards.flatMap fun s => (db.rows s).map (User.shown s)

/-- No column of a row holds a carriage return. -/
def User.Unbroken (u : User) : Prop :=
  (∀ s, u.name = some s → '\r' ∉ s) ∧ (∀ s, u.email = some s → '\r' ∉ s) ∧
    ∀ s, u.city = some s → '\r' ∉ s

def Shards.Unbroken (db : Shards) : Prop := ∀ s, ∀ u ∈ db.rows s, u.Unbroken

theorem cells_usersTable (u : User) :
    usersTable.cells u =
      [(Value.int u.id.toInt).cell, (Value.ofText u.name).cell, (Value.ofText u.email).cell,
        (Value.ofText u.city).cell] := rfl

theorem value_id (u : User) : usersTable.value u "id".toList = .int u.id.toInt := by
  unfold Table.value usersTable
  simp only [List.lookup_cons_self]

theorem User.Unbroken.clean {u : User} (h : u.Unbroken) : Batch.Clean (usersTable.cells u) := by
  apply usersTable.cells_clean (List.cons_ne_nil _ _)
  intro c hc s hs
  unfold usersTable at hc
  rw [List.mem_cons, List.mem_cons, List.mem_cons, List.mem_singleton] at hc
  rcases hc with rfl | rfl | rfl | rfl
  · exact absurd hs (Value.int_ne_text _ s)
  · exact h.1 s (Value.eq_some_of_ofText hs)
  · exact h.2.1 s (Value.eq_some_of_ofText hs)
  · exact h.2.2 s (Value.eq_some_of_ofText hs)

/-- A carriage return is printed as it is. -/
theorem return_not_mem_of_cell {v : Option (List Char)} (h : '\r' ∉ (Value.ofText v).cell) :
    ∀ s, v = some s → '\r' ∉ s := by
  rintro s rfl hr
  exact h (Batch.mem_escape.2.2.mpr hr)

/-- Both shards are searched. -/
theorem mem_shards (s : Shard) : s ∈ shards := by
  cases s
  · exact List.mem_cons_self
  · exact List.mem_cons_of_mem _ List.mem_cons_self

/-- A shown row sits where its id is routed to. -/
theorem Shards.shown_placed (db : Shards) (s : Shard) :
    ∀ r ∈ (db.rows s).map (User.shown s), getShardFor r.id = s := by
  intro r hr
  obtain ⟨u, hu, rfl⟩ := List.mem_map.mp hr
  exact db.placed s u hu

/-- The id is a key of the whole table. -/
theorem Shards.table_keys (db : Shards) : (db.table.map fun r => r.id.toInt).Nodup := by
  have hkeys : ∀ s, (((db.rows s).map (User.shown s)).map Row.id).Nodup := by
    intro s
    rw [List.map_map]
    exact db.keys s
  have htable : (db.table.map Row.id).Nodup :=
    nodup_of_routed (by decide) hkeys db.shown_placed
  have hints := htable.map (f := Int32.toInt) fun _ _ => Int32.toInt.inj
  rw [List.map_map] at hints
  exact hints

theorem Shards.mem_table {db : Shards} {s : Shard} {u : User} (hu : u ∈ db.rows s) :
    u.shown s ∈ db.table :=
  List.mem_flatMap.mpr ⟨s, mem_shards s, List.mem_map_of_mem hu⟩

/-! ## Queries on a shard -/

section Query

variable {ps : PowerShell} {rows : List User} {s : Shard}

/-- **What a shard sends**: its rows that meet the condition. -/
theorem invokeShardQuery_eq {clause : List Char} {condition : Condition}
    (hquoted : Unquoted (usersTable.select ++ clause))
    (hzero : '\x00' ∉ usersTable.select ++ clause)
    (hread : readCondition? clause = some condition) (hrows : ∀ u ∈ rows, u.Unbroken) :
    invokeShardQuery ps rows s (usersTable.select ++ clause) =
      (rows.filter fun u => condition.holds (usersTable.value u)).map (User.shown s) := by
  have hline : ∀ u : User, (((usersTable.cells u)[0]?.bind ps.int?).map fun id =>
      ({ id := id, name := (usersTable.cells u)[1]?, email := (usersTable.cells u)[2]?,
         city := (usersTable.cells u)[3]?, shard := s } : Row)) = some (u.shown s) := by
    intro u
    have hid : ps.int? (Value.int u.id.toInt).cell = some u.id := ps.int?_intText u.id
    rw [cells_usersTable]
    show ((some (Value.int u.id.toInt).cell).bind ps.int?).map _ = _
    rw [Option.bind_some, hid]
    rfl
  rw [invokeShardQuery, ps.query_eq usersTable hquoted hzero hread fun u hu => (hrows u hu).clean,
    List.filterMap_map]
  have hsome : (fun u => some (User.shown s u)) = some ∘ User.shown s := rfl
  rw [← List.filterMap_eq_map, ← hsome]
  congr 1
  exact funext hline

/-- A row that comes back holds no carriage return. -/
theorem return_not_mem_row {sql : List Char} {r : Row} (hr : r ∈ invokeShardQuery ps rows s sql) :
    (∀ cell, r.name = some cell → '\r' ∉ cell) ∧ (∀ cell, r.email = some cell → '\r' ∉ cell) ∧
      ∀ cell, r.city = some cell → '\r' ∉ cell := by
  obtain ⟨f, hf, hrow⟩ := List.mem_filterMap.mp hr
  obtain ⟨id, -, rfl⟩ := Option.map_eq_some_iff.mp hrow
  exact ⟨fun _ h => ps.return_not_mem_query usersTable hf h,
    fun _ h => ps.return_not_mem_query usersTable hf h,
    fun _ h => ps.return_not_mem_query usersTable hf h⟩

/-- A query for all rows. -/
theorem invokeShardQuery_all (hrows : ∀ u ∈ rows, u.Unbroken) :
    invokeShardQuery ps rows s usersTable.select = rows.map (User.shown s) := by
  have hquery : invokeShardQuery ps rows s (usersTable.select ++ []) =
      (rows.filter fun u => Condition.always.holds (usersTable.value u)).map (User.shown s) :=
    invokeShardQuery_eq ⟨by decide, by decide⟩ (by decide) rfl hrows
  rw [List.append_nil] at hquery
  rw [hquery, List.filter_eq_self.mpr]
  exact fun _ _ => rfl

/-- A query for one id. -/
theorem invokeShardQuery_id (hrows : ∀ u ∈ rows, u.Unbroken) (Id : Int32) :
    invokeShardQuery ps rows s
        (usersTable.select ++ (" WHERE id = ".toList ++ Decimal.intText Id.toInt)) =
      (rows.filter fun u => u.id = Id).map (User.shown s) := by
  have hmem : ∀ c : Char, c ≠ '-' → c.isDigit = false →
      c ∉ usersTable.select ++ " WHERE id = ".toList →
      c ∉ usersTable.select ++ (" WHERE id = ".toList ++ Decimal.intText Id.toInt) := by
    intro c hminus hdigit hwords
    rw [← List.append_assoc, List.mem_append, not_or]
    exact ⟨hwords, not_mem_intText hminus hdigit _⟩
  have hread := readCondition?_isInt (by decide : ' ' ∉ "id".toList) Id.toInt
  rw [invokeShardQuery_eq ⟨hmem _ (by decide) (by decide) (by decide),
    hmem _ (by decide) (by decide) (by decide)⟩ (hmem _ (by decide) (by decide) (by decide))
    hread hrows]
  congr 1
  apply List.filter_congr
  intro u _
  have hvalue : (usersTable.value u "id".toList = .int Id.toInt) ↔ u.id = Id := by
    rw [value_id, Value.int.injEq, Int32.toInt_inj]
  exact decide_eq_decide.mpr hvalue

end Query

/-! ## Runs -/

section Runs

variable {ps : PowerShell} {db : Shards} {order : Shard → Enumeration User} {Id : Int32}

theorem Shards.Unbroken.enumerated (h : db.Unbroken) (order : Shard → Enumeration User)
    (s : Shard) : ∀ u ∈ (order s).list (db.rows s), u.Unbroken :=
  fun u hu => h s u (((order s).perm _).mem_iff.mp hu)

/-- An id below zero is no id for the script. -/
theorem coordinator_of_neg (hId : ¬0 ≤ Id) :
    coordinator ps db order Id = sortBy (fun r => r.id.toInt)
      (shards.flatMap fun s =>
        invokeShardQuery ps ((order s).list (db.rows s)) s usersTable.select) :=
  if_neg hId

/-- **The merged table**: every row of both shards once. -/
theorem coordinator_perm (h : db.Unbroken) (hId : ¬0 ≤ Id) :
    (coordinator ps db order Id).Perm db.table := by
  rw [coordinator_of_neg hId]
  calc sortBy (fun r => r.id.toInt) (shards.flatMap fun s =>
          invokeShardQuery ps ((order s).list (db.rows s)) s usersTable.select)
      ~ shards.flatMap fun s =>
          invokeShardQuery ps ((order s).list (db.rows s)) s usersTable.select := sortBy_perm _ _
    _ ~ db.table := by
        apply List.Perm.flatMap_left
        intro s _
        rw [invokeShardQuery_all (h.enumerated order s)]
        exact ((order s).perm _).map _

theorem coordinator_sorted (hId : ¬0 ≤ Id) :
    (coordinator ps db order Id).Pairwise fun r r' => r.id.toInt ≤ r'.id.toInt := by
  rw [coordinator_of_neg hId]
  exact sortBy_sorted _ _

/-- **The routed lookup**: the rows of the owner with the id, and those of the whole table. -/
theorem coordinator_routed (h : db.Unbroken) (hId : 0 ≤ Id) :
    (coordinator ps db order Id).Perm (db.table.filter fun r => r.id = Id) := by
  have hrun : coordinator ps db order Id =
      (((order (getShardFor Id)).list (db.rows (getShardFor Id))).filter fun u => u.id = Id).map
        (User.shown (getShardFor Id)) := by
    rw [coordinator]
    simp only [if_pos hId]
    exact invokeShardQuery_id (h.enumerated order (getShardFor Id)) Id
  calc coordinator ps db order Id
      ~ ((db.rows (getShardFor Id)).filter fun u => u.id = Id).map
          (User.shown (getShardFor Id)) := by
        rw [hrun]
        exact (((order _).perm _).filter _).map _
    _ ~ ((db.rows (getShardFor Id)).map (User.shown (getShardFor Id))).filter
          fun r => r.id = Id := by
        rw [List.filter_map]
        exact List.Perm.refl _
    _ ~ db.table.filter fun r => r.id = Id := by
        rw [Shards.table, filter_routed (by decide) db.shown_placed (mem_shards _)]

/-- What routing promises: a lookup finds the rows of the merged table with its id, and that table
has every row of both shards once, sorted by id. -/
structure LookupAgrees (ps : PowerShell) (db : Shards)
    (lookupOrder mergeOrder : Shard → Enumeration User) (Id : Int32) : Prop where
  lookup : coordinator ps db lookupOrder Id =
    (mergedTable ps db mergeOrder).filter fun r => r.id = Id
  complete : (mergedTable ps db mergeOrder).Perm db.table
  sorted : (mergedTable ps db mergeOrder).Pairwise fun r r' => r.id.toInt ≤ r'.id.toInt

/-- If the merged table is complete, no line was broken. -/
theorem unbroken_of_complete (h : (mergedTable ps db order).Perm db.table) : db.Unbroken := by
  intro s u hu
  have hrow : u.shown s ∈ mergedTable ps db order := h.mem_iff.mpr (Shards.mem_table hu)
  rw [mergedTable, coordinator_of_neg (by decide)] at hrow
  have hmem := (sortBy_perm _ _).mem_iff.mp hrow
  obtain ⟨s', -, hsent⟩ := List.mem_flatMap.mp hmem
  have hcells := return_not_mem_row hsent
  exact ⟨return_not_mem_of_cell (hcells.1 _ rfl), return_not_mem_of_cell (hcells.2.1 _ rfl),
    return_not_mem_of_cell (hcells.2.2 _ rfl)⟩

/-- Where routing works: the id is not below zero, or a lookup and a merge are the same. -/
def Shards.Routable (db : Shards) (Id : Int32) : Prop := 0 ≤ Id ∨ ∀ s, ∀ u ∈ db.rows s, u.id = Id

/-- A lookup returns the rows of the table with its id. -/
theorem lookup_perm (h : db.Unbroken) (hId : db.Routable Id) :
    (coordinator ps db order Id).Perm (db.table.filter fun r => r.id = Id) := by
  by_cases hpos : 0 ≤ Id
  · exact coordinator_routed h hpos
  · have hids : ∀ s, ∀ u ∈ db.rows s, u.id = Id := hId.resolve_left hpos
    have hall : ∀ r ∈ db.table, decide (r.id = Id) = true := by
      intro r hr
      obtain ⟨s, -, hmem⟩ := List.mem_flatMap.mp hr
      obtain ⟨u, hu, rfl⟩ := List.mem_map.mp hmem
      exact decide_eq_true (hids s u hu)
    rw [List.filter_eq_self.mpr hall]
    exact coordinator_perm h hpos

/-- **Routed lookup and merged table agree** just when no column holds a carriage return and the
id is not below zero, unless every row has that id. -/
theorem lookup_agrees_iff (ps : PowerShell) (db : Shards)
    (lookupOrder mergeOrder : Shard → Enumeration User) (Id : Int32) :
    LookupAgrees ps db lookupOrder mergeOrder Id ↔
      db.Unbroken ∧ db.Routable Id := by
  constructor
  · intro h
    have hunbroken : db.Unbroken := unbroken_of_complete h.complete
    refine ⟨hunbroken, ?_⟩
    by_cases hId : 0 ≤ Id
    · exact Or.inl hId
    · -- the lookup is a merge, and all that it returns must have the id
      refine Or.inr fun s u hu => ?_
      have hrow : u.shown s ∈ coordinator ps db lookupOrder Id :=
        (coordinator_perm hunbroken hId).mem_iff.mpr (Shards.mem_table hu)
      rw [h.lookup, List.mem_filter, decide_eq_true_eq] at hrow
      exact hrow.2
  · rintro ⟨hunbroken, hId⟩
    have hcomplete : (mergedTable ps db mergeOrder).Perm db.table :=
      coordinator_perm hunbroken (by decide)
    have hsorted : (mergedTable ps db mergeOrder).Pairwise fun r r' => r.id.toInt ≤ r'.id.toInt :=
      coordinator_sorted (by decide)
    refine ⟨?_, hcomplete, hsorted⟩
    -- both are the rows with the id, and rows with one id are sorted
    have hlookup : (coordinator ps db lookupOrder Id).Perm (db.table.filter fun r => r.id = Id) :=
      lookup_perm hunbroken hId
    have hperm : (coordinator ps db lookupOrder Id).Perm
        ((mergedTable ps db mergeOrder).filter fun r => r.id = Id) := by
      calc coordinator ps db lookupOrder Id ~ db.table.filter fun r => r.id = Id := hlookup
        _ ~ (mergedTable ps db mergeOrder).filter fun r => r.id = Id := hcomplete.symm.filter _
    have hnodup : ((coordinator ps db lookupOrder Id).map fun r => r.id.toInt).Nodup :=
      nodup_of_perm hlookup.symm (db.table_keys.sublist (List.filter_sublist.map _))
    have hid : ∀ r ∈ coordinator ps db lookupOrder Id, r.id.toInt = Id.toInt := by
      intro r hr
      have hmem := hlookup.mem_iff.mp hr
      rw [List.mem_filter, decide_eq_true_eq] at hmem
      rw [hmem.2]
    exact sorted_unique hnodup hperm (sorted_of_key_eq hid) (hsorted.sublist List.filter_sublist)

end Runs

/-- A user with an id below zero, which the key of the table allows. -/
def workshopShards : Shards where
  rows
    | .shard1 => [⟨2, some "Ana Morales".toList, some "ana.morales@example.com".toList,
        some "Quito".toList⟩]
    | .shard2 => [⟨-1, some "Mateo Salazar".toList, some "mateo.salazar@example.com".toList,
        some "Quito".toList⟩]
  keys s := by
    cases s
    · exact List.nodup_singleton _
    · exact List.nodup_singleton _
  placed s u hu := by
    cases s
    · rw [List.mem_singleton.mp hu]
      decide
    · rw [List.mem_singleton.mp hu]
      decide

theorem workshopShards_unbroken : workshopShards.Unbroken := by
  intro s u hu
  cases s
  · rw [List.mem_singleton.mp hu]
    exact ⟨return_not_mem_of_cell (by decide), return_not_mem_of_cell (by decide),
      return_not_mem_of_cell (by decide)⟩
  · rw [List.mem_singleton.mp hu]
    exact ⟨return_not_mem_of_cell (by decide), return_not_mem_of_cell (by decide),
      return_not_mem_of_cell (by decide)⟩

/-- A lookup of -1 returns the user with id 2 as well. -/
theorem lookup_below_zero :
    ¬LookupAgrees .plain workshopShards (fun _ => .stored User) (fun _ => .stored User) (-1) := by
  intro h
  have hperm : (coordinator .plain workshopShards (fun _ => .stored User) (-1)).Perm
      workshopShards.table := coordinator_perm workshopShards_unbroken (by decide)
  have hrow := hperm.mem_iff.mpr (Shards.mem_table (s := .shard1) List.mem_cons_self)
  rw [h.lookup, List.mem_filter] at hrow
  exact absurd hrow.2 (by decide)

end Sharding
