import DistWorkshops.Lib.Dict
import DistWorkshops.Lib.KeyedTable
import DistWorkshops.Sharding.Client

set_option autoImplicit false

/-! # Vertical fragments

The columns of the users are split between two nodes: who they are on the first, how to reach
them on the second. `vertical_coordinator.ps1` asks the second node, for one city or for all,
then the first for the ids that came back, and joins what it has. The full row is rebuilt, and
asking for a city is choosing its rows from the full table.
-/

namespace Sharding.Vertical

open Sql KeyedTable

/-! ## The nodes -/

structure Identity where
  id : Int32
  name : List Char

structure Contact where
  id : Int32
  email : Option (List Char)
  city : Option (List Char)

def identityTable : Table Identity where
  select := "SELECT id, name FROM identity".toList
  columns := [("id".toList, fun r => .int r.id.toInt), ("name".toList, fun r => .text r.name)]

def contactTable : Table Contact where
  select := "SELECT id, email, city FROM contact".toList
  columns := [("id".toList, fun r => .int r.id.toInt), ("email".toList, fun r => .ofText r.email),
    ("city".toList, fun r => .ofText r.city)]

/-- What the two nodes hold. -/
structure Nodes where
  identity : List Identity
  contact : List Contact

/-- How rows and keys are enumerated in a run: what each node sends, and the keys of the hash
table of contacts, once for the list of ids and once for the join. -/
structure Orders where
  identity : Enumeration Identity
  contact : Enumeration Contact
  ids : Enumeration Int32
  join : Enumeration Int32

/-! ## `vertical_coordinator.ps1` -/

/-- A rebuilt row; what a line lacks is `$null`. -/
structure Row where
  id : Int32
  name : Option (List Char)
  email : Option (List Char)
  city : Option (List Char)
  deriving DecidableEq

/-- A hash table of lines under the ids they start with. -/
def index (ps : PowerShell) (lines : List (List (List Char))) : Dict Int32 (List (List Char)) :=
  Dict.ofPairs (lines.filterMap fun f => (f[0]?.bind ps.int?).map fun id => (id, f))

/-- The query for the contacts; every quote of the city is doubled. -/
def contactSql (City : List Char) : List Char :=
  contactTable.select ++
    if City = [] then [] else " WHERE city = '".toList ++ (doubled City ++ "'".toList)

def identitySql (ids : List Int32) : List Char :=
  identityTable.select ++ (" WHERE id IN (".toList ++
    ([','].intercalate (ids.map fun id => Decimal.intText id.toInt) ++ ")".toList))

/-- The script; `City` is empty when it is not given. -/
def verticalCoordinator (ps : PowerShell) (nodes : Nodes) (orders : Orders) (City : List Char) :
    List Row :=
  let contact := index ps
    (ps.query contactTable (orders.contact.list nodes.contact) (contactSql City))
  let keys := contact.entries.map Prod.fst
  if contact.entries.length = 0 then []
  else
    let ids := sortBy Int32.toInt (orders.ids.list keys)
    let identity := index ps
      (ps.query identityTable (orders.identity.list nodes.identity) (identitySql ids))
    (sortBy Int32.toInt (orders.join.list keys)).map fun id =>
      { id := id
        name := match identity.get? id with
          | some f => f[1]?
          | none => some "<missing on node 1>".toList
        email := (contact.get? id).bind fun f => f[1]?
        city := (contact.get? id).bind fun f => f[2]? }

/-! ## The split table -/

/-- A user as a whole. -/
structure User where
  id : Int32
  name : List Char
  email : List Char
  city : List Char

namespace User

def identity (u : User) : Identity := ⟨u.id, u.name⟩

def contact (u : User) : Contact := ⟨u.id, some u.email, some u.city⟩

def shown (u : User) : Row := ⟨u.id, some u.name, some u.email, some u.city⟩

end User

/-- A text that is one value of one line: no tab, no end of a line, nothing that is escaped. -/
structure Plain (s : List Char) : Prop where
  escaped : Batch.Plain s
  carriage : '\r' ∉ s

/-- A table of users with distinct ids and plain columns. -/
structure Users where
  rows : List User
  keys : (rows.map User.id).Nodup
  name : ∀ u ∈ rows, Plain u.name
  email : ∀ u ∈ rows, Plain u.email
  city : ∀ u ∈ rows, Plain u.city

namespace Users

/-- The two fragments. -/
def split (t : Users) : Nodes := ⟨t.rows.map User.identity, t.rows.map User.contact⟩

/-- The table sorted by id. -/
def table (t : Users) : List Row := (sortBy (fun u => u.id.toInt) t.rows).map User.shown

end Users

/-! ## Lines and their ids -/

theorem value_identity_id (r : Identity) :
    identityTable.value r "id".toList = .int r.id.toInt := by
  unfold Table.value identityTable
  simp only [List.lookup_cons_self]

theorem value_contact_city (u : User) :
    contactTable.value u.contact "city".toList = .text u.city := rfl

theorem cells_identity (r : Identity) :
    identityTable.cells r = [(Value.int r.id.toInt).cell, Batch.escape r.name] := rfl

theorem cells_contact (u : User) :
    contactTable.cells u.contact =
      [(Value.int u.id.toInt).cell, Batch.escape u.email, Batch.escape u.city] := rfl

/-- Lines that start with distinct ids are the entries of the hash table. -/
theorem entries_index {ρ : Type} (ps : PowerShell) {cells : ρ → List (List Char)} {id : ρ → Int32}
    {rows : List ρ} (hcells : ∀ r ∈ rows, (cells r)[0]? = some (Value.int (id r).toInt).cell)
    (hkeys : (rows.map id).Nodup) :
    (index ps (rows.map cells)).entries = rows.map fun r => (id r, cells r) := by
  have hpairs : (rows.map cells).filterMap
      (fun f => (f[0]?.bind ps.int?).map fun i => (i, f)) = rows.map fun r => (id r, cells r) := by
    rw [List.filterMap_map, ← List.filterMap_eq_map]
    apply List.filterMap_congr
    intro r hr
    have hid : ps.int? (Value.int (id r).toInt).cell = some (id r) := ps.int?_intText (id r)
    show ((cells r)[0]?.bind ps.int?).map _ = _
    rw [hcells r hr, Option.bind_some, hid]
    rfl
  rw [index, hpairs]
  apply Dict.entries_ofPairs
  rw [List.map_map]
  exact hkeys

/-! ## The rows of a run -/

section Run

variable {ps : PowerShell} {t : Users} {orders : Orders}

theorem clean_contact {r : Contact} (hr : r ∈ t.split.contact) :
    Batch.Clean (contactTable.cells r) := by
  obtain ⟨u, hu, rfl⟩ := List.mem_map.mp hr
  apply contactTable.cells_clean (List.cons_ne_nil _ _)
  intro c hc s hs
  unfold contactTable at hc
  rw [List.mem_cons, List.mem_cons, List.mem_singleton] at hc
  rcases hc with rfl | rfl | rfl
  · exact absurd hs (Value.int_ne_text _ s)
  · cases hs
    exact (t.email u hu).carriage
  · cases hs
    exact (t.city u hu).carriage

theorem clean_identity {r : Identity} (hr : r ∈ t.split.identity) :
    Batch.Clean (identityTable.cells r) := by
  obtain ⟨u, hu, rfl⟩ := List.mem_map.mp hr
  apply identityTable.cells_clean (List.cons_ne_nil _ _)
  intro c hc s hs
  unfold identityTable at hc
  rw [List.mem_cons, List.mem_singleton] at hc
  rcases hc with rfl | rfl
  · exact absurd hs (Value.int_ne_text _ s)
  · cases hs
    exact (t.name u hu).carriage

/-- The hash table of contacts after a query that chooses the users with `p`. -/
theorem entries_contact (ps : PowerShell) (orders : Orders) {clause : List Char}
    {condition : Condition} {p : User → Bool}
    (hquoted : Unquoted (contactTable.select ++ clause))
    (hzero : '\x00' ∉ contactTable.select ++ clause)
    (hread : readCondition? clause = some condition)
    (hholds : ∀ u ∈ t.rows, condition.holds (contactTable.value u.contact) = p u) :
    ∃ rows : List Contact, rows.Perm ((t.rows.filter p).map User.contact) ∧
      (index ps (ps.query contactTable (orders.contact.list t.split.contact)
        (contactTable.select ++ clause))).entries =
        rows.map fun r => (r.id, contactTable.cells r) := by
  have horder : (orders.contact.list t.split.contact).Perm t.split.contact := orders.contact.perm _
  refine ⟨(orders.contact.list t.split.contact).filter
    fun r => condition.holds (contactTable.value r), ?_, ?_⟩
  · have hfilter : t.split.contact.filter (fun r => condition.holds (contactTable.value r)) =
        (t.rows.filter p).map User.contact := by
      rw [← List.filter_congr hholds]
      exact List.filter_map
    rw [← hfilter]
    exact horder.filter _
  · rw [ps.query_eq contactTable hquoted hzero hread fun r hr =>
      clean_contact (horder.mem_iff.mp hr)]
    apply entries_index ps fun r _ => rfl
    have hkeys : (t.split.contact.map Contact.id).Nodup := by
      rw [Users.split, List.map_map]
      exact t.keys
    exact (nodup_of_perm horder.symm hkeys).sublist (List.filter_sublist.map _)

/-- The query for ids has the characters of its words and of integers. -/
theorem not_mem_identitySql {c : Char} (hminus : c ≠ '-') (hcomma : c ≠ ',')
    (hdigit : c.isDigit = false) (hwords : c ∉ identityTable.select ++ " WHERE id IN (".toList)
    (hclose : c ∉ ")".toList) (ids : List Int32) : c ∉ identitySql ids := by
  have hlist : c ∉ [','].intercalate (ids.map fun id => Decimal.intText id.toInt) := by
    apply Batch.not_mem_intercalate hcomma
    intro cell hcell
    obtain ⟨id, -, rfl⟩ := List.mem_map.mp hcell
    exact not_mem_intText hminus hdigit _
  rw [identitySql, ← List.append_assoc]
  intro hc
  rcases List.mem_append.mp hc with hc | hc
  · exact hwords hc
  · rcases List.mem_append.mp hc with hc | hc
    · exact hlist hc
    · exact hclose hc

/-- The first node sends the identities whose ids are in the list. -/
theorem query_identity {ids : List Int32} (hids : ids ≠ []) :
    ps.query identityTable (orders.identity.list t.split.identity) (identitySql ids) =
      ((orders.identity.list t.split.identity).filter fun r =>
        (Condition.oneOf "id".toList (ids.map Int32.toInt)).holds (identityTable.value r)).map
          identityTable.cells := by
  have hns : ids.map Int32.toInt ≠ [] := fun he => hids (List.map_eq_nil_iff.mp he)
  have hread := readCondition?_oneOf (by decide : ' ' ∉ "id".toList) hns
  rw [List.map_map] at hread
  have hquoted : Unquoted (identitySql ids) :=
    ⟨not_mem_identitySql (by decide) (by decide) (by decide) (by decide) (by decide) ids,
      not_mem_identitySql (by decide) (by decide) (by decide) (by decide) (by decide) ids⟩
  have hzero : '\x00' ∉ identitySql ids :=
    not_mem_identitySql (by decide) (by decide) (by decide) (by decide) (by decide) ids
  exact ps.query_eq identityTable hquoted hzero hread fun r hr =>
    clean_identity ((orders.identity.perm _).mem_iff.mp hr)

/-- **No name is missing**: the identities of the ids asked for are in the hash table. -/
theorem get?_identity (ps : PowerShell) (orders : Orders) {ids : List Int32} {u : User}
    (hu : u ∈ t.rows) (hid : u.id ∈ ids) :
    (index ps (ps.query identityTable (orders.identity.list t.split.identity)
      (identitySql ids))).get? u.id = some (identityTable.cells u.identity) := by
  have horder : (orders.identity.list t.split.identity).Perm t.split.identity :=
    orders.identity.perm _
  have hkeys : (t.split.identity.map Identity.id).Nodup := by
    rw [Users.split, List.map_map]
    exact t.keys
  rw [query_identity (List.ne_nil_of_mem hid), Dict.get?_eq_some_iff, entries_index ps
    (fun r _ => rfl) ((nodup_of_perm horder.symm hkeys).sublist (List.filter_sublist.map _))]
  apply List.mem_map.mpr
  refine ⟨u.identity, List.mem_filter.mpr ⟨?_, ?_⟩, rfl⟩
  · exact horder.mem_iff.mpr (List.mem_map_of_mem hu)
  · rw [Condition.holds, List.any_eq_true]
    refine ⟨u.id.toInt, List.mem_map_of_mem hid, ?_⟩
    rw [decide_eq_true_eq]
    exact value_identity_id u.identity

/-- The ids of users in any order sort to the ids of the sorted users. -/
theorem sortBy_ids {ids : List Int32} {users : List User} (hkeys : (users.map User.id).Nodup)
    (hperm : ids.Perm (users.map User.id)) :
    sortBy Int32.toInt ids = (sortBy (fun u => u.id.toInt) users).map User.id := by
  have hnodup : (ids.map Int32.toInt).Nodup :=
    (hperm.nodup_iff.mpr hkeys).map fun _ _ => Int32.toInt.inj
  rw [sortBy_eq_of_perm hnodup hperm]
  exact sortBy_map (fun _ => rfl) _

/-- A row whose two lines were found is the user as a whole. -/
theorem row_eq {u : User} (hu : u ∈ t.rows) {identity contact : Dict Int32 (List (List Char))}
    (hidentity : identity.get? u.id = some (identityTable.cells u.identity))
    (hcontact : contact.get? u.id = some (contactTable.cells u.contact)) :
    Row.mk u.id
      (match identity.get? u.id with
        | some f => f[1]?
        | none => some "<missing on node 1>".toList)
      ((contact.get? u.id).bind fun f => f[1]?) ((contact.get? u.id).bind fun f => f[2]?) =
        u.shown := by
  rw [hidentity, hcontact, cells_identity, cells_contact]
  show Row.mk u.id (some (Batch.escape u.name)) (some (Batch.escape u.email))
    (some (Batch.escape u.city)) = u.shown
  rw [Batch.escape_plain (t.name u hu).escaped, Batch.escape_plain (t.email u hu).escaped,
    Batch.escape_plain (t.city u hu).escaped]
  rfl

/-- **The join**: when the second node is asked for the users that `p` chooses, their full rows
are rebuilt, sorted by id. -/
theorem verticalCoordinator_eq {City clause : List Char} {condition : Condition} {p : User → Bool}
    (hsql : contactSql City = contactTable.select ++ clause)
    (hquoted : Unquoted (contactSql City)) (hzero : '\x00' ∉ contactSql City)
    (hread : readCondition? clause = some condition)
    (hholds : ∀ u ∈ t.rows, condition.holds (contactTable.value u.contact) = p u) :
    verticalCoordinator ps t.split orders City =
      (sortBy (fun u => u.id.toInt) (t.rows.filter p)).map User.shown := by
  rw [hsql] at hquoted hzero
  obtain ⟨rows, hrows, hentries⟩ :=
    entries_contact ps orders hquoted hzero hread hholds
  have hkeys : ((t.rows.filter p).map User.id).Nodup := t.keys.sublist (List.filter_sublist.map _)
  have hids : (rows.map Contact.id).Perm ((t.rows.filter p).map User.id) := by
    have hmap := hrows.map Contact.id
    rw [List.map_map] at hmap
    exact hmap
  -- the keys of the hash table, however they are enumerated, sort to the ids of those users
  have hsorted : ∀ order : Enumeration Int32,
      sortBy Int32.toInt (order.list (rows.map Contact.id)) =
        (sortBy (fun u => u.id.toInt) (t.rows.filter p)).map User.id :=
    fun order => sortBy_ids hkeys ((order.perm _).trans hids)
  have hfst : (rows.map fun r => (r.id, contactTable.cells r)).map Prod.fst =
      rows.map Contact.id := by
    rw [List.map_map]
    rfl
  rw [verticalCoordinator, hsql]
  simp only [hentries, hfst, hsorted, List.length_map]
  by_cases hnone : rows.length = 0
  · have hnil : (t.rows.filter p).map User.contact = [] := by
      rw [List.length_eq_zero_iff.mp hnone] at hrows
      exact hrows.nil_eq.symm
    rw [if_pos hnone, List.map_eq_nil_iff.mp hnil]
    rfl
  · rw [if_neg hnone, List.map_map]
    apply List.map_congr_left
    intro u hu
    have hmem : u ∈ t.rows.filter p := (sortBy_perm _ _).mem_iff.mp hu
    have hrow : u ∈ t.rows := List.mem_of_mem_filter hmem
    have hidentity := get?_identity ps orders hrow (List.mem_map_of_mem hu)
    have hcontact : (index ps (ps.query contactTable (orders.contact.list t.split.contact)
        (contactTable.select ++ clause))).get? u.id = some (contactTable.cells u.contact) := by
      rw [Dict.get?_eq_some_iff, hentries]
      exact List.mem_map.mpr ⟨u.contact, hrows.mem_iff.mpr (List.mem_map_of_mem hmem), rfl⟩
    exact row_eq hrow hidentity hcontact

/-! ## The two plans -/

theorem rebuild_all : verticalCoordinator ps t.split orders [] = t.table := by
  have hsql : contactSql [] = contactTable.select ++ [] := rfl
  have hrun : verticalCoordinator ps t.split orders [] =
      (sortBy (fun u => u.id.toInt) (t.rows.filter fun _ => true)).map User.shown :=
    verticalCoordinator_eq hsql ⟨by decide, by decide⟩ (by decide) rfl fun _ _ => rfl
  rw [hrun, List.filter_eq_self.mpr fun _ _ => rfl]
  rfl

/-- The query for a city. -/
theorem contactSql_city {City : List Char} (hne : City ≠ []) :
    contactSql City = contactTable.select ++
      (" WHERE ".toList ++ ("city".toList ++ (" = '".toList ++ (doubled City ++ ['\''])))) := by
  rw [contactSql, if_neg hne]
  rfl

theorem not_mem_contactSql {c : Char} {City : List Char}
    (hwords : c ∉ contactTable.select ++ " WHERE city = '".toList) (hquote : c ≠ '\'')
    (hCity : c ∉ City) : c ∉ contactSql City := by
  by_cases hne : City = []
  · subst hne
    rw [List.mem_append, not_or] at hwords
    rw [contactSql, if_pos rfl, List.append_nil]
    exact hwords.1
  · rw [contactSql, if_neg hne, ← List.append_assoc]
    intro hc
    rcases List.mem_append.mp hc with hc | hc
    · exact hwords hc
    · rcases List.mem_append.mp hc with hc | hc
      · exact hCity (mem_doubled.mp hc)
      · exact hquote (List.mem_singleton.mp hc)

/-- No user lives in a city with a character zero, and the query for it never gets there. -/
theorem rebuild_zero {City : List Char} (hquoted : Unquoted (contactSql City)) (hback : '\\' ∉ City)
    (hzero : '\x00' ∈ City) :
    verticalCoordinator ps t.split orders City = t.table.filter fun r => r.city = some City := by
  have hnil : t.table.filter (fun r => r.city = some City) = [] := by
    rw [List.filter_eq_nil_iff]
    intro r hr hcity
    obtain ⟨u, hu, rfl⟩ := List.mem_map.mp hr
    have hrow : u ∈ t.rows := (sortBy_perm _ _).mem_iff.mp hu
    rw [decide_eq_true_eq] at hcity
    have hcity' : u.city = City := Option.some.inj hcity
    rw [← hcity'] at hzero
    exact ((t.city u hrow).escaped _ hzero).1 rfl
  have hsql := contactSql_city (List.ne_nil_of_mem hzero)
  have hcut : (" WHERE ".toList ++ ("city".toList ++ (" = '".toList ++
      (doubled City ++ ['\''])))).takeWhile (· ≠ '\x00') =
      " WHERE ".toList ++ ("city".toList ++ (" = '".toList ++
        doubled (City.takeWhile (· ≠ '\x00')))) := by
    rw [takeWhile_words (by decide), takeWhile_words (by decide), takeWhile_words (by decide),
      takeWhile_doubled (by decide) hzero]
  have hback' : '\\' ∉ City.takeWhile (· ≠ '\x00') := fun h =>
    hback ((List.takeWhile_prefix _).subset h)
  have hquery : ps.query contactTable (orders.contact.list t.split.contact) (contactSql City) =
      [] := by
    rw [hsql] at hquoted ⊢
    apply ps.query_cut contactTable _ hquoted (by decide)
    rw [hcut]
    exact readCondition?_open (by decide) hback'
  rw [hnil, verticalCoordinator, hquery]
  rfl

/-- **A filter on the second node is a filter on the full table.** -/
theorem rebuild_city {City : List Char} (hne : City ≠ []) (hquote : '"' ∉ City)
    (hback : '\\' ∉ City) :
    verticalCoordinator ps t.split orders City = t.table.filter fun r => r.city = some City := by
  have hquoted : Unquoted (contactSql City) :=
    ⟨not_mem_contactSql (by decide) (by decide) hquote,
      not_mem_contactSql (by decide) (by decide) hback⟩
  by_cases hzero : '\x00' ∈ City
  · exact rebuild_zero hquoted hback hzero
  · have hread := readCondition?_isText (by decide : ' ' ∉ "city".toList) hback
    have hholds : ∀ u ∈ t.rows, (Condition.isText "city".toList City).holds
        (contactTable.value u.contact) = decide (u.city = City) := by
      intro u _
      have hvalue : contactTable.value u.contact "city".toList = .text City ↔ u.city = City := by
        rw [value_contact_city, Value.text.injEq]
      exact decide_eq_decide.mpr hvalue
    rw [verticalCoordinator_eq (contactSql_city hne) hquoted
      (not_mem_contactSql (by decide) (by decide) hzero) hread hholds]
    have hkeys : (t.rows.map fun u => u.id.toInt).Nodup := by
      have hids := t.keys.map (f := Int32.toInt) fun _ _ => Int32.toInt.inj
      rw [List.map_map] at hids
      exact hids
    rw [sortBy_filter hkeys, Users.table, List.filter_map]
    congr 1
    apply List.filter_congr
    intro u _
    exact decide_eq_decide.mpr (Option.some_inj).symm

end Run

/-- **The split is lossless, and the filter can be pushed down**: without a city the script
rebuilds the table sorted by id, and with one it gives the rows of that table with the city. -/
theorem vertical_lossless (ps : PowerShell) (t : Users) (orders : Orders) :
    verticalCoordinator ps t.split orders [] = t.table ∧
      ∀ (cityOrders : Orders) (City : List Char), City ≠ [] → '"' ∉ City → '\\' ∉ City →
        verticalCoordinator ps t.split cityOrders City =
          (verticalCoordinator ps t.split orders []).filter fun r => r.city = some City := by
  refine ⟨rebuild_all, ?_⟩
  intro cityOrders City hne hquote hback
  rw [rebuild_all]
  exact rebuild_city hne hquote hback

def workshopUsers : Users where
  rows := [⟨3, "Valeria Ortiz".toList, "valeria.ortiz@example.com".toList, "Loja".toList⟩,
    ⟨2, "Ana Morales".toList, "ana.morales@example.com".toList, "Quito".toList⟩,
    ⟨1, "Mateo Salazar".toList, "mateo.salazar@example.com".toList, "Quito".toList⟩]
  keys := by decide
  name := by
    simp only [List.forall_mem_cons]
    exact ⟨⟨by decide, by decide⟩, ⟨by decide, by decide⟩, ⟨by decide, by decide⟩, nofun⟩
  email := by
    simp only [List.forall_mem_cons]
    exact ⟨⟨by decide, by decide⟩, ⟨by decide, by decide⟩, ⟨by decide, by decide⟩, nofun⟩
  city := by
    simp only [List.forall_mem_cons]
    exact ⟨⟨by decide, by decide⟩, ⟨by decide, by decide⟩, ⟨by decide, by decide⟩, nofun⟩

def storedOrders : Orders where
  identity := .stored Identity
  contact := .stored Contact
  ids := .stored Int32
  join := .stored Int32

theorem vertical_lossless_workshop :
    verticalCoordinator .plain workshopUsers.split storedOrders "Quito".toList =
      [⟨1, some "Mateo Salazar".toList, some "mateo.salazar@example.com".toList,
          some "Quito".toList⟩,
        ⟨2, some "Ana Morales".toList, some "ana.morales@example.com".toList,
          some "Quito".toList⟩] := by
  have hlossless := vertical_lossless .plain workshopUsers storedOrders
  rw [hlossless.2 storedOrders "Quito".toList (by decide) (by decide) (by decide), hlossless.1]
  decide

end Sharding.Vertical
