import Mathlib.Data.List.Basic
import Mathlib.Data.Nat.Notation

/-!
# Servers that handle one request at a time

A handler maps a state and a request to the next state and an answer. `serve` is the record of a
whole sequence of requests, `final` the state after it. When exactly the requests of a kind
advance a counter, and their answers carry its new value, then the answers of that kind are
numbered without gap or repetition (`numbered`).
-/

set_option autoImplicit false

namespace Server

variable {σ ι ω : Type}

/-- One request, with the states around it. -/
structure Exchange (σ ι ω : Type) where
  before : σ
  request : ι
  answer : ω
  after : σ

/-- The exchange of one request. -/
def exchange (handler : σ → ι → σ × ω) (s : σ) (request : ι) : Exchange σ ι ω where
  before := s
  request := request
  answer := (handler s request).2
  after := (handler s request).1

def serve (handler : σ → ι → σ × ω) : σ → List ι → List (Exchange σ ι ω)
  | _, [] => []
  | s, request :: rest =>
      exchange handler s request :: serve handler (handler s request).1 rest

def final (handler : σ → ι → σ × ω) : σ → List ι → σ
  | s, [] => s
  | s, request :: rest => final handler (handler s request).1 rest

variable {handler : σ → ι → σ × ω}

/-- Every record is of one request in one state. -/
theorem mem_serve {s : σ} {requests : List ι} {x : Exchange σ ι ω}
    (h : x ∈ serve handler s requests) : x = exchange handler x.before x.request := by
  induction requests generalizing s with
  | nil => cases h
  | cons request rest ih =>
      rcases List.mem_cons.mp h with rfl | h
      · rfl
      · exact ih h

/-- **Numbering.** In each exchange either the counter goes up by one and the label is its new
value, or the exchange is not of the kind and the counter stays. Then the labels of the kind
count up from the counter's value at the start to its value at the end. -/
theorem numbered {α : Type} (kind : Exchange σ ι ω → Bool) (label : Exchange σ ι ω → α)
    (counter : σ → ℕ) (number : ℕ → α)
    (step : ∀ s request,
      (kind (exchange handler s request) = true ∧
          counter (handler s request).1 = counter s + 1 ∧
          label (exchange handler s request) = number (counter s + 1)) ∨
        (kind (exchange handler s request) = false ∧
          counter (handler s request).1 = counter s))
    (s : σ) (requests : List ι) :
    ∃ k, counter (final handler s requests) = counter s + k ∧
      ((serve handler s requests).filter kind).map label =
        (List.range k).map fun i => number (counter s + i + 1) := by
  induction requests generalizing s with
  | nil => exact ⟨0, rfl, rfl⟩
  | cons request rest ih =>
      obtain ⟨k, hcount, hlabels⟩ := ih (handler s request).1
      rcases step s request with ⟨hkind, hup, hlabel⟩ | ⟨hkind, hsame⟩
      · refine ⟨k + 1, ?_, ?_⟩
        · show counter (final handler (handler s request).1 rest) = counter s + (k + 1)
          omega
        · rw [serve, List.filter_cons_of_pos hkind, List.map_cons, hlabel, hlabels,
            List.range_succ_eq_map, List.map_cons, List.map_map, hup]
          -- the later labels count on from the one just given
          refine congrArg (number (counter s + 1) :: ·) (List.map_congr_left ?_)
          intro i _
          show number (counter s + 1 + i + 1) = number (counter s + (i + 1) + 1)
          rw [Nat.add_right_comm (counter s) 1 i, Nat.add_assoc (counter s) i 1]
      · refine ⟨k, ?_, ?_⟩
        · show counter (final handler (handler s request).1 rest) = counter s + k
          omega
        · have hneg : ¬ kind (exchange handler s request) = true := by
            rw [hkind]
            exact Bool.false_ne_true
          rw [serve, List.filter_cons_of_neg hneg, hlabels, hsame]

end Server
