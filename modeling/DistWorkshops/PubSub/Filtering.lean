import Mathlib.Data.Fintype.Basic
import Mathlib.Tactic.FinCases
import DistWorkshops.Lib.Decimal
import DistWorkshops.Lib.Utf8

/-!
# The topics of a subscriber

The publishers and the subscriber of `Part4-PubSub`. A publisher sends the name of its service, a
space, and free text; the subscriber subscribes to the topics of its argument, and a socket
receives the messages that have one of its subscriptions as a prefix, in bytes. A prefix of a
message need not be its service: a name may extend a topic, a blank topic is a prefix of
everything, and a topic may reach into the weekday. `receives_iff` says that nothing else goes
wrong.
-/

set_option autoImplicit false

namespace PubSub

open Text Decimal

/-! ## Messages -/

/-- The fields of a `struct_time` that `asctime` prints; Monday is day 0 of the week and January
month 0 of the year. -/
structure StructTime where
  year : ℕ
  mon : Fin 12
  mday : ℕ
  hour : ℕ
  min : ℕ
  sec : ℕ
  wday : Fin 7

def weekdays : List String := ["Mon", "Tue", "Wed", "Thu", "Fri", "Sat", "Sun"]

def months : List String :=
  ["Jan", "Feb", "Mar", "Apr", "May", "Jun", "Jul", "Aug", "Sep", "Oct", "Nov", "Dec"]

def weekday (t : StructTime) : List Char := (weekdays.get t.wday).toList

/-- `time.asctime()`, as in `Thu Nov  5 10:15:30 2026`. -/
def asctime (t : StructTime) : List Char :=
  let two (n : ℕ) : List Char := (digits n).leftpad 2 '0'
  weekday t ++ ' ' :: (months.get t.mon).toList ++ (digits t.mday).leftpad 3 ' ' ++
    ' ' :: two t.hour ++ ':' :: two t.min ++ ':' :: two t.sec ++ ' ' :: digits t.year

/-- One message of a publisher: its argument, and what it puts after the service. -/
structure Sending where
  argument : List Char
  time : StructTime
  cont : ℕ
  payload : List Char

variable (unicode : Unicode)

def service (sending : Sending) : List Char := unicode.upper (strip sending.argument)

def msg (sending : Sending) : List Char :=
  service unicode sending ++ ' ' :: (asctime sending.time ++ " - #".toList ++
    digits sending.cont ++ ' ' :: sending.payload)

/-! ## Topics -/

/-- The topics of the command line. Of those typed at the prompt, the blank ones are left out. -/
def topics (argument : List Char) : List (List Char) :=
  (argument.splitOn ',').map fun t => unicode.upper (strip t)

/-- What a SUB socket receives: the messages that start with one of its subscriptions. -/
def delivered (subscriptions : List (List UInt8)) (message : List UInt8) : Bool :=
  subscriptions.any fun subscription => subscription.isPrefixOf message

/-- `setsockopt_string` and `send_string` encode in UTF-8. -/
def receives (argument : List Char) (sending : Sending) : Bool :=
  delivered ((topics unicode argument).map Utf8.encode) (Utf8.encode (msg unicode sending))

/-- The service is one of the topics that are not blank. -/
def Asked (argument : List Char) (sending : Sending) : Prop :=
  service unicode sending ∈ (topics unicode argument).filter fun topic => !topic.isEmpty

/-! ## What a topic matches -/

theorem receives_iff_topic (argument : List Char) (sending : Sending) :
    receives unicode argument sending = true ↔
      ∃ topic ∈ topics unicode argument, topic <+: msg unicode sending := by
  simp only [receives, delivered, List.any_map, List.any_eq_true, Function.comp_apply,
    List.isPrefixOf_iff_prefix, Utf8.encode_prefix_iff]

theorem asked_iff (argument : List Char) (sending : Sending) :
    Asked unicode argument sending ↔
      service unicode sending ≠ [] ∧ service unicode sending ∈ topics unicode argument := by
  rw [Asked, List.mem_filter, Bool.not_eq_true', List.isEmpty_eq_false_iff, and_comm]

/-- The first letter of the weekday. -/
def initial (sending : Sending) : Char := (weekday sending.time).headD ' '

/-- A weekday is its initial and lower case letters. -/
theorem weekday_eq (sending : Sending) :
    ∃ c rest, weekday sending.time = initial sending :: c :: rest ∧ c.isLower = true := by
  unfold initial weekday
  generalize sending.time.wday = d
  fin_cases d
  all_goals exact ⟨_, _, rfl, by decide⟩

/-- **What a topic matches**: the services it is the beginning of, and a service with the initial
of the day after it. -/
theorem topic_prefix_iff {argument topic : List Char} (htopic : topic ∈ topics unicode argument)
    (sending : Sending) :
    topic <+: msg unicode sending ↔
      topic <+: service unicode sending ∨
        topic = service unicode sending ++ [' ', initial sending] := by
  obtain ⟨t, -, rfl⟩ := List.mem_map.mp htopic
  obtain ⟨c, rest, hweekday, hlower⟩ := weekday_eq sending
  have hmsg : ∃ tail, msg unicode sending =
      service unicode sending ++ ' ' :: initial sending :: c :: tail := by
    simp only [msg, asctime, hweekday, List.cons_append, List.append_assoc]
    exact ⟨_, rfl⟩
  obtain ⟨tail, hmsg⟩ := hmsg
  rw [hmsg]
  constructor
  · intro h
    rcases List.prefix_or_prefix_of_prefix h (List.prefix_append _ _) with hin | ⟨after, hafter⟩
    · exact Or.inl hin
    · rw [← hafter, List.prefix_append_right_inj] at h
      rcases List.prefix_cons_iff.mp h with rfl | ⟨after, rfl, h₁⟩
      · rw [List.append_nil] at hafter
        exact Or.inl (hafter ▸ List.prefix_refl _)
      rcases List.prefix_cons_iff.mp h₁ with rfl | ⟨after, rfl, h₂⟩
      · -- a stripped topic does not end in a space
        have hspace := unicode.upper_strip_last hafter.symm
        exact absurd hspace (by decide)
      rcases List.prefix_cons_iff.mp h₂ with rfl | ⟨after, rfl, -⟩
      · exact Or.inr hafter.symm
      · -- an upper case topic has no letter of the weekday but the first
        have hmem : c ∈ unicode.upper (strip t) := by
          rw [← hafter]
          exact List.mem_append_right _ (by simp)
        rw [unicode.upper_not_lower (strip t) c hmem] at hlower
        cases hlower
  · rintro (h | h)
    · exact h.trans (List.prefix_append _ _)
    · rw [h]
      refine ⟨c :: tail, ?_⟩
      rw [List.append_assoc]
      rfl

/-- A service is received when it is asked for. -/
theorem receives_of_asked {argument : List Char} {sending : Sending}
    (h : Asked unicode argument sending) : receives unicode argument sending = true := by
  have hmem := ((asked_iff unicode argument sending).mp h).2
  exact (receives_iff_topic unicode argument sending).mpr ⟨_, hmem, List.prefix_append _ _⟩

/-- **Which messages are filtered right**: those of the services that are asked for, and those
whose service no topic begins, as a text, nor reaches past into the weekday. -/
theorem receives_iff (argument : List Char) (sending : Sending) :
    (receives unicode argument sending = true ↔ Asked unicode argument sending) ↔
      Asked unicode argument sending ∨
        ∀ topic ∈ topics unicode argument, ¬ topic <+: service unicode sending ∧
          topic ≠ service unicode sending ++ [' ', initial sending] := by
  have hnone : ¬ receives unicode argument sending = true ↔
      ∀ topic ∈ topics unicode argument, ¬ topic <+: service unicode sending ∧
        topic ≠ service unicode sending ++ [' ', initial sending] := by
    rw [receives_iff_topic, not_exists]
    refine forall_congr' fun topic => ?_
    rw [not_and]
    refine forall_congr' fun htopic => ?_
    rw [topic_prefix_iff unicode htopic, not_or]
  rw [← hnone]
  constructor
  · intro h
    by_cases hasked : Asked unicode argument sending
    · exact Or.inl hasked
    · exact Or.inr fun hreceives => hasked (h.mp hreceives)
  · rintro (hasked | hnot)
    · exact iff_of_true (receives_of_asked unicode hasked) hasked
    · exact iff_of_false hnot fun hasked => hnot (receives_of_asked unicode hasked)

/-- The topic `WEATHER` and the service `WEATHER2`, then a topic argument that ends in a comma. -/
theorem receives_others :
    let sending : Sending :=
      ⟨"WEATHER2".toList, ⟨2026, 10, 5, 10, 15, 30, 3⟩, 1, "value=7".toList⟩
    (receives .ascii "WEATHER".toList sending = true ∧
        ¬ Asked .ascii "WEATHER".toList sending) ∧
      receives .ascii "STOCKS,".toList sending = true ∧
        ¬ Asked .ascii "STOCKS,".toList sending := by
  refine ⟨⟨?_, ?_⟩, ?_, ?_⟩
  · decide
  · rw [asked_iff]
    decide
  · decide
  · rw [asked_iff]
    decide

end PubSub
