import Mathlib.Algebra.Order.BigOperators.Group.List
import DistWorkshops.Lib.Dict
import DistWorkshops.Lib.PyFloat
import DistWorkshops.Python

/-!
# Stage timing

`StageTimer` and `parse_server_timing` of `timing.py`. A lap stores the time since the lap before
it, the header lists the stages with three decimals and their sum as `total`, and the parser turns
the header back into numbers. A clock is a list of readings in nanoseconds; durations are exact
rationals, in milliseconds.
-/

set_option autoImplicit false

namespace Webhook.Timing

open Text Decimal

abbrev Name := List Char

structure StageTimer where
  stagesMs : Dict Name ℚ
  last : ℤ

/-- `StageTimer()`, when the clock shows `now`. -/
def StageTimer.new (now : ℤ) : StageTimer := ⟨Dict.empty, now⟩

/-- `lap(name)`, when the clock shows `now`. -/
def StageTimer.lap (timer : StageTimer) (name : Name) (now : ℤ) : StageTimer where
  stagesMs := timer.stagesMs.set name ((now - timer.last : ℤ) / 10 ^ 6)
  last := now

def total : Name := "total".toList

/-- `";dur="`, between a name and its duration. -/
def separator : List Char := ";dur=".toList

/-- `sum(self.stages_ms.values())`. -/
def StageTimer.sum (timer : StageTimer) : ℚ := (timer.stagesMs.entries.map Prod.snd).sum

def item (stage : Name × ℚ) : List Char := stage.1 ++ separator ++ fixed 3 stage.2

def StageTimer.serverTiming (timer : StageTimer) : List Char :=
  let stages := timer.stagesMs.set total timer.sum
  (", ".toList).intercalate (stages.entries.map item)

/-- One pass of the loop of `parse_server_timing`. -/
def parseItem (unicode : Unicode) (stages : Dict Name PyFloat) (item : List Char) :
    Except PyError (Dict Name PyFloat) :=
  let (name, duration) := partition separator (strip item)
  match PyFloat.float? unicode duration with
  | some ms => .ok (stages.set name ms)
  | none => .error .valueError

def parseServerTiming (unicode : Unicode) (header : List Char) :
    Except PyError (Dict Name PyFloat) :=
  ((header.splitOn ',').filter fun item => !item.isEmpty).foldlM (parseItem unicode) Dict.empty

/-! ## Laps -/

/-- A lap: its name, and the reading of the clock. -/
abbrev Lap := Name × ℤ

/-- The laps of one timer. -/
def StageTimer.run (timer : StageTimer) (laps : List Lap) : StageTimer :=
  laps.foldl (fun timer lap => timer.lap lap.1 lap.2) timer

/-- The time of each lap since the one before it. -/
def durations (start : ℤ) : List Lap → List (Name × ℚ)
  | [] => []
  | (name, now) :: laps => (name, ((now - start : ℤ) : ℚ) / 10 ^ 6) :: durations now laps

/-- What the clock shows at the last lap. -/
def lastReading (start : ℤ) (laps : List Lap) : ℤ := (laps.map Prod.snd).getLastD start

theorem names_durations (start : ℤ) (laps : List Lap) :
    (durations start laps).map Prod.fst = laps.map Prod.fst := by
  induction laps generalizing start with
  | nil => rfl
  | cons lap laps ih =>
      obtain ⟨name, now⟩ := lap
      rw [durations, List.map_cons, List.map_cons, ih]

theorem length_durations (start : ℤ) (laps : List Lap) :
    (durations start laps).length = laps.length := by
  have h := congrArg List.length (names_durations start laps)
  rwa [List.length_map, List.length_map] at h

theorem lastReading_cons (start now : ℤ) (name : Name) (laps : List Lap) :
    lastReading start ((name, now) :: laps) = lastReading now laps := by
  rw [lastReading, lastReading, List.map_cons, List.getLastD_cons]

/-- **The durations add up** to the time from the start to the last lap. -/
theorem sum_durations (start : ℤ) (laps : List Lap) :
    ((durations start laps).map Prod.snd).sum
      = ((lastReading start laps - start : ℤ) : ℚ) / 10 ^ 6 := by
  induction laps generalizing start with
  | nil =>
      show (0 : ℚ) = ((start - start : ℤ) : ℚ) / 10 ^ 6
      rw [sub_self, Int.cast_zero, zero_div]
  | cons lap laps ih =>
      obtain ⟨name, now⟩ := lap
      rw [durations, List.map_cons, List.sum_cons, ih, lastReading_cons, ← add_div]
      congr 1
      push_cast
      ring

theorem nonneg_of_durations {start : ℤ} {laps : List Lap}
    (hclock : (start :: laps.map Prod.snd).IsChain (· ≤ ·)) :
    ∀ stage ∈ durations start laps, 0 ≤ stage.2 := by
  induction laps generalizing start with
  | nil => nofun
  | cons lap laps ih =>
      obtain ⟨name, now⟩ := lap
      rw [List.map_cons, List.isChain_cons_cons] at hclock
      intro stage hstage
      rcases List.mem_cons.mp hstage with rfl | hstage
      · apply div_nonneg _ (pow_nonneg (by decide) 6)
        exact_mod_cast Int.sub_nonneg.mpr hclock.1
      · exact ih hclock.2 stage hstage

/-- **What the laps leave in the timer.** -/
theorem entries_run {start : ℤ} {laps : List Lap} (hnames : (laps.map Prod.fst).Nodup) :
    ((StageTimer.new start).run laps).stagesMs.entries = durations start laps := by
  have hrun : ∀ (laps : List Lap) (timer : StageTimer), (timer.run laps).stagesMs =
      (durations timer.last laps).foldl (fun d p => d.set p.1 p.2) timer.stagesMs := by
    intro laps
    induction laps with
    | nil => exact fun _ => rfl
    | cons lap laps ih => exact fun timer => ih (timer.lap lap.1 lap.2)
  rw [hrun]
  apply Dict.entries_ofPairs
  rw [names_durations]
  exact hnames

/-! ## The header -/

/-- Names that the header keeps apart. -/
structure Proper (names : List Name) : Prop where
  distinct : names.Nodup
  notTotal : total ∉ names
  noComma : ∀ name ∈ names, ',' ∉ name
  noSeparator : ∀ name ∈ names, ¬ separator <:+: name
  stripped : ∀ name ∈ names, strip name = name

theorem Proper.concat_total {names : List Name} (h : Proper names) :
    (names ++ [total]).Nodup ∧ (∀ name ∈ names ++ [total], ',' ∉ name) ∧
      (∀ name ∈ names ++ [total], ¬ separator <:+: name) ∧
        ∀ name ∈ names ++ [total], strip name = name := by
  have hall : ∀ {P : Name → Prop}, (∀ name ∈ names, P name) → P total →
      ∀ name ∈ names ++ [total], P name := by
    intro P hnames htotal name hname
    rcases List.mem_append.mp hname with hname | hname
    · exact hnames name hname
    · rw [List.mem_singleton.mp hname]
      exact htotal
  refine ⟨?_, hall h.noComma (by decide), hall h.noSeparator (by decide),
    hall h.stripped (by decide)⟩
  exact h.distinct.append (List.nodup_singleton total) (by simpa using h.notTotal)

/-- Items without commas are split apart again; each but the first has a blank before it. -/
theorem splitOn_items {x : List Char} {xs : List (List Char)} (h : ∀ y ∈ x :: xs, ',' ∉ y) :
    ((", ".toList).intercalate (x :: xs)).splitOn ',' = x :: xs.map (' ' :: ·) := by
  have hblank : (", ".toList).intercalate (x :: xs) =
      [','].intercalate (x :: xs.map (' ' :: ·)) := by
    induction xs generalizing x with
    | nil => rw [List.map_nil, List.intercalate_singleton, List.intercalate_singleton]
    | cons y ys ih =>
        have hcons : ∀ z zs, [','].intercalate ((' ' :: z) :: zs) =
            ' ' :: [','].intercalate (z :: zs) := by
          intro z zs
          cases zs with
          | nil => rw [List.intercalate_singleton, List.intercalate_singleton]
          | cons w ws => rw [List.intercalate_cons_cons, List.intercalate_cons_cons]; rfl
        rw [List.intercalate_cons_cons, List.map_cons, List.intercalate_cons_cons,
          ih fun z hz => h z (List.mem_cons_of_mem x hz), hcons]
        rw [List.append_assoc, List.append_assoc]
        rfl
  rw [hblank]
  apply List.splitOn_intercalate
  · intro y hy
    rcases List.mem_cons.mp hy with rfl | hy
    · exact h y List.mem_cons_self
    · obtain ⟨z, hz, rfl⟩ := List.mem_map.mp hy
      rw [List.mem_cons, not_or]
      exact ⟨by decide, h z (List.mem_cons_of_mem x hz)⟩
  · exact List.cons_ne_nil _ _

theorem comma_not_mem_item {stage : Name × ℚ} (hcomma : ',' ∉ stage.1) (hq : 0 ≤ stage.2) :
    ',' ∉ item stage := by
  rw [item, List.mem_append, List.mem_append, not_or, not_or]
  refine ⟨⟨hcomma, by decide⟩, fun hc => ?_⟩
  rcases mem_fixed hq hc with hdigit | hpoint
  · exact absurd hdigit (by decide)
  · exact absurd hpoint (by decide)

theorem item_not_isEmpty (stage : Name × ℚ) : (!(item stage).isEmpty) = true := by
  rw [item, List.append_assoc]
  simp [separator]

/-- The format of a duration ends in a digit. -/
theorem fixed_last {q : ℚ} (hq : 0 ≤ q) : ∃ cs c, fixed 3 q = cs ++ [c] ∧ isSpace c = false := by
  obtain ⟨d, ds, hcons, -⟩ := fixed_head 3 hq
  obtain ⟨cs, c, hlast⟩ := (List.eq_nil_or_concat' (fixed 3 q)).resolve_left (by
    rw [hcons]
    exact List.cons_ne_nil d ds)
  have hsolid : Solid (fixed 3 q) := fixed_solid hq
  refine ⟨cs, c, hlast, hsolid c ?_⟩
  rw [hlast]
  exact List.mem_append_right cs List.mem_cons_self

theorem strip_item {name : Name} (hname : strip name = name) {q : ℚ} (hq : 0 ≤ q)
    {front : List Char} (hfront : ∀ d ∈ front, isSpace d = true) :
    strip (front ++ item (name, q)) = item (name, q) := by
  obtain ⟨cs, c, hlast, hc⟩ := fixed_last hq
  have hitem : item (name, q) = (name ++ separator ++ cs) ++ [c] := by
    rw [item, hlast, ← List.append_assoc]
  have hdrop : (item (name, q)).dropWhile isSpace = item (name, q) := by
    rw [item, List.append_assoc]
    cases name with
    | nil => rfl
    | cons d name => exact dropWhile_append_of_stripped (List.cons_ne_nil d name) hname _
  rw [hitem] at hdrop ⊢
  exact strip_of_ends hfront hdrop hc

/-- **An item is read back.** -/
theorem parseItem_item (unicode : Unicode) (stages : Dict Name PyFloat) {name : Name}
    (hname : strip name = name) (hsep : ¬ separator <:+: name) {q : ℚ} (hq : 0 ≤ q)
    {front : List Char} (hfront : ∀ d ∈ front, isSpace d = true) :
    parseItem unicode stages (front ++ item (name, q))
      = .ok (stages.set name (.num (roundTo 3 q))) := by
  have hpart : partition separator (item (name, q)) = (name, fixed 3 q) := by
    rw [item, List.append_assoc]
    exact partition_append (by decide) hsep (fixed 3 q)
  rw [parseItem, strip_item hname hq hfront, hpart]
  simp only [PyFloat.float?_fixed unicode (by decide : 0 < 3) hq]

/-- What the parser makes of a stage. -/
def parsedStage (stage : Name × ℚ) : Name × PyFloat := (stage.1, .num (roundTo 3 stage.2))

theorem parseItems (unicode : Unicode) {stages : List (Name × ℚ)}
    (hstages : ∀ stage ∈ stages, strip stage.1 = stage.1 ∧ ¬ separator <:+: stage.1 ∧ 0 ≤ stage.2)
    (parsed : Dict Name PyFloat) :
    (stages.map fun stage => ' ' :: item stage).foldlM (parseItem unicode) parsed
      = .ok ((stages.map parsedStage).foldl (fun d p => d.set p.1 p.2) parsed) := by
  induction stages generalizing parsed with
  | nil => rfl
  | cons stage stages ih =>
      obtain ⟨name, q⟩ := stage
      obtain ⟨hname, hsep, hq⟩ := hstages (name, q) List.mem_cons_self
      have hblank : ∀ d ∈ [' '], isSpace d = true := by decide
      have hitem := parseItem_item unicode parsed hname hsep hq hblank
      rw [List.map_cons, List.foldlM_cons]
      show parseItem unicode parsed ([' '] ++ item (name, q)) >>= _ = _
      rw [hitem]
      exact ih (fun s hs => hstages s (List.mem_cons_of_mem (name, q) hs)) _

/-- **The parser undoes the header**, for stages that the header keeps apart. -/
theorem parseServerTiming_items (unicode : Unicode) {stages : List (Name × ℚ)} (hne : stages ≠ [])
    (hnames : (stages.map Prod.fst).Nodup) (hcomma : ∀ stage ∈ stages, ',' ∉ stage.1)
    (hstages : ∀ stage ∈ stages, strip stage.1 = stage.1 ∧ ¬ separator <:+: stage.1 ∧ 0 ≤ stage.2) :
    ∃ parsed, parseServerTiming unicode ((", ".toList).intercalate (stages.map item)) = .ok parsed ∧
      parsed.entries = stages.map parsedStage := by
  obtain ⟨first, rest, rfl⟩ := List.exists_cons_of_ne_nil hne
  have hitems : ∀ y ∈ item first :: rest.map item, ',' ∉ y := by
    rw [← List.map_cons]
    intro y hy
    obtain ⟨stage, hstage, rfl⟩ := List.mem_map.mp hy
    exact comma_not_mem_item (hcomma stage hstage) (hstages stage hstage).2.2
  have hkept : ((", ".toList).intercalate ((first :: rest).map item)).splitOn ',' =
      item first :: (rest.map fun stage => ' ' :: item stage) := by
    rw [List.map_cons, splitOn_items hitems, List.map_map]
    rfl
  have hfilter : (item first :: (rest.map fun stage => ' ' :: item stage)).filter
      (fun item => !item.isEmpty) = item first :: (rest.map fun stage => ' ' :: item stage) := by
    rw [List.filter_eq_self]
    intro y hy
    rcases List.mem_cons.mp hy with rfl | hy
    · exact item_not_isEmpty first
    · obtain ⟨stage, -, rfl⟩ := List.mem_map.mp hy
      rfl
  refine ⟨Dict.ofPairs ((first :: rest).map parsedStage), ?_, ?_⟩
  · obtain ⟨name, q⟩ := first
    obtain ⟨hname, hsep, hq⟩ := hstages (name, q) List.mem_cons_self
    have hempty : ∀ d ∈ ([] : List Char), isSpace d = true := by decide
    have hitem := parseItem_item unicode Dict.empty hname hsep hq hempty
    rw [List.nil_append] at hitem
    rw [parseServerTiming, hkept, hfilter, List.foldlM_cons, hitem]
    exact parseItems unicode (fun s hs => hstages s (List.mem_cons_of_mem (name, q) hs)) _
  · apply Dict.entries_ofPairs
    rw [List.map_map]
    exact hnames

/-! ## Rounding -/

/-- Rounding every number of a list moves the sum by a rounding error for each. -/
theorem abs_sum_roundTo_sub_le (qs : List ℚ) :
    |(qs.map (roundTo 3)).sum - qs.sum| ≤ qs.length * (1 / 2 / 10 ^ 3) := by
  induction qs with
  | nil => simp
  | cons q qs ih =>
      calc |((q :: qs).map (roundTo 3)).sum - (q :: qs).sum|
          = |(roundTo 3 q - q) + ((qs.map (roundTo 3)).sum - qs.sum)| := by
            rw [List.map_cons, List.sum_cons, List.sum_cons]
            congr 1
            ring
        _ ≤ |roundTo 3 q - q| + |(qs.map (roundTo 3)).sum - qs.sum| := abs_add_le _ _
        _ ≤ 1 / 2 / 10 ^ 3 + qs.length * (1 / 2 / 10 ^ 3) :=
            add_le_add (abs_roundTo_sub_le 3 q) ih
        _ = (q :: qs).length * (1 / 2 / 10 ^ 3) := by
            rw [List.length_cons]
            push_cast
            ring

/-- The sum of rounded numbers against their rounded sum. -/
theorem abs_sum_roundTo_sub_roundTo_sum_le (qs : List ℚ) :
    |(qs.map (roundTo 3)).sum - roundTo 3 qs.sum| ≤ (qs.length + 1) * (1 / 2 / 10 ^ 3) := by
  calc |(qs.map (roundTo 3)).sum - roundTo 3 qs.sum|
      ≤ |(qs.map (roundTo 3)).sum - qs.sum| + |qs.sum - roundTo 3 qs.sum| :=
        abs_sub_le _ _ _
    _ ≤ qs.length * (1 / 2 / 10 ^ 3) + 1 / 2 / 10 ^ 3 := by
        rw [abs_sub_comm qs.sum]
        exact add_le_add (abs_sum_roundTo_sub_le qs) (abs_roundTo_sub_le 3 _)
    _ = (qs.length + 1) * (1 / 2 / 10 ^ 3) := by ring

/-! ## The round trip -/

section Run

variable {start : ℤ} {laps : List Lap}

/-- The total is the sum of the durations. -/
theorem sum_run (hnames : (laps.map Prod.fst).Nodup) :
    ((StageTimer.new start).run laps).sum = ((durations start laps).map Prod.snd).sum := by
  rw [StageTimer.sum, entries_run hnames]

theorem sum_run_nonneg (hnames : (laps.map Prod.fst).Nodup)
    (hclock : (start :: laps.map Prod.snd).IsChain (· ≤ ·)) :
    0 ≤ ((StageTimer.new start).run laps).sum := by
  rw [sum_run hnames]
  apply List.sum_nonneg
  intro q hq
  obtain ⟨stage, hstage, rfl⟩ := List.mem_map.mp hq
  exact nonneg_of_durations hclock stage hstage

/-- The stages of the header: those of the laps, and the total. -/
theorem header_stages (hnames : Proper (laps.map Prod.fst)) :
    (((StageTimer.new start).run laps).stagesMs.set total
        ((StageTimer.new start).run laps).sum).entries =
      durations start laps ++ [(total, ((StageTimer.new start).run laps).sum)] := by
  have hentries : ((StageTimer.new start).run laps).stagesMs.entries = durations start laps :=
    entries_run hnames.distinct
  have hnew : total ∉ (durations start laps).map Prod.fst := by
    rw [names_durations]
    exact hnames.notTotal
  rw [← hentries] at hnew ⊢
  exact Dict.assign_of_not_mem _ hnew

/-- The header of a timer is read back. -/
theorem parseServerTiming_run (unicode : Unicode) (hnames : Proper (laps.map Prod.fst))
    (hclock : (start :: laps.map Prod.snd).IsChain (· ≤ ·)) :
    ∃ parsed, parseServerTiming unicode ((StageTimer.new start).run laps).serverTiming
        = .ok parsed ∧
      parsed.entries = (durations start laps ++
        [(total, ((StageTimer.new start).run laps).sum)]).map parsedStage := by
  obtain ⟨hnodup, hcomma, hsep, hstrip⟩ := hnames.concat_total
  have hmap : (durations start laps ++ [(total, ((StageTimer.new start).run laps).sum)]).map
      Prod.fst = laps.map Prod.fst ++ [total] := by
    rw [List.map_append, names_durations]
    rfl
  have hstages : ∀ stage ∈ durations start laps ++
      [(total, ((StageTimer.new start).run laps).sum)],
      stage.1 ∈ laps.map Prod.fst ++ [total] ∧ 0 ≤ stage.2 := by
    intro stage hstage
    refine ⟨hmap ▸ List.mem_map_of_mem hstage, ?_⟩
    rcases List.mem_append.mp hstage with hstage | hstage
    · exact nonneg_of_durations hclock stage hstage
    · rw [List.mem_singleton.mp hstage]
      exact sum_run_nonneg hnames.distinct hclock
  rw [← hmap] at hnodup
  obtain ⟨parsed, hparsed, hresult⟩ := parseServerTiming_items unicode
    (List.append_ne_nil_of_right_ne_nil _ (List.cons_ne_nil _ _)) hnodup
    (fun s hs => hcomma s.1 (hstages s hs).1)
    (fun s hs => ⟨hstrip s.1 (hstages s hs).1, hsep s.1 (hstages s hs).1, (hstages s hs).2⟩)
  refine ⟨parsed, ?_, hresult⟩
  rw [StageTimer.serverTiming]
  simp only [header_stages hnames]
  exact hparsed

end Run

/-- **The header of a timer is read back, and its stages account for the total.** The parser gives
the stages in the order of the laps and then the total, each rounded to three decimals; the total
is the time from the creation of the timer to the last lap, and the parsed stages add up to the
parsed total but for a rounding error each. -/
theorem server_timing_round_trip (unicode : Unicode) (start : ℤ) (laps : List Lap)
    (hnames : Proper (laps.map Prod.fst))
    (hclock : (start :: laps.map Prod.snd).IsChain (· ≤ ·)) :
    ((StageTimer.new start).run laps).sum
        = ((lastReading start laps - start : ℤ) : ℚ) / 10 ^ 6 ∧
      (∃ parsed, parseServerTiming unicode ((StageTimer.new start).run laps).serverTiming
          = .ok parsed ∧
        parsed.entries = (durations start laps).map (fun stage =>
            (stage.1, PyFloat.num (roundTo 3 stage.2))) ++
          [(total, PyFloat.num (roundTo 3 ((StageTimer.new start).run laps).sum))]) ∧
      |((durations start laps).map fun stage => roundTo 3 stage.2).sum
          - roundTo 3 ((StageTimer.new start).run laps).sum| ≤ (laps.length + 1) * 0.0005 := by
  have hsum : ((StageTimer.new start).run laps).sum = ((durations start laps).map Prod.snd).sum :=
    sum_run hnames.distinct
  refine ⟨hsum.trans (sum_durations start laps), ?_, ?_⟩
  · obtain ⟨parsed, hparsed, hresult⟩ := parseServerTiming_run unicode hnames hclock
    refine ⟨parsed, hparsed, ?_⟩
    rw [hresult, List.map_append]
    rfl
  · have hbound := abs_sum_roundTo_sub_roundTo_sum_le ((durations start laps).map Prod.snd)
    rw [List.map_map, List.length_map, length_durations, ← hsum] at hbound
    norm_num at hbound ⊢
    exact hbound

theorem server_timing_round_trip_two :
    let laps : List Lap := [("parse".toList, 1500), ("handle".toList, 2001500)]
    Proper (laps.map Prod.fst) ∧
      ((StageTimer.new 0).run laps).sum = ((lastReading 0 laps - 0 : ℤ) : ℚ) / 10 ^ 6 ∧
        |((durations 0 laps).map fun stage => roundTo 3 stage.2).sum
          - roundTo 3 ((StageTimer.new 0).run laps).sum| ≤ (laps.length + 1) * 0.0005 := by
  have hproper : Proper (([("parse".toList, 1500), ("handle".toList, 2001500)] : List Lap).map
      Prod.fst) := ⟨by decide, by decide, by decide, by decide, by decide⟩
  have hlaps := server_timing_round_trip Unicode.ascii 0
    [("parse".toList, 1500), ("handle".toList, 2001500)] hproper (by decide)
  exact ⟨hproper, hlaps.1, hlaps.2.2⟩

end Webhook.Timing
