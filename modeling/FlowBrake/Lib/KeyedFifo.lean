import Mathlib.Logic.Function.Basic
import FlowBrake.Lib.Transition

/-! One first-in first-out queue per key, as the specification of an ordering service. -/
namespace KeyedFifo
open Transition

variable {α κ : Type*} [DecidableEq κ] (key : α → κ)

inductive Event (α : Type*)
  | accept (a : α)
  | deliver (a : α)

/-- An accepted element joins the queue of its key; only the head of a queue is delivered. -/
inductive Step : (κ → List α) → Event α → (κ → List α) → Prop
  | accept (s : κ → List α) (a : α) :
      Step s (.accept a) (Function.update s (key a) (s (key a) ++ [a]))
  | deliver (s : κ → List α) (a : α) (rest : List α) (h : s (key a) = a :: rest) :
      Step s (.deliver a) (Function.update s (key a) rest)

def accepted (k : κ) (events : List (Event α)) : List α :=
  events.filterMap fun
    | .accept a => if key a = k then some a else none
    | .deliver _ => none

def delivered (k : κ) (events : List (Event α)) : List α :=
  events.filterMap fun
    | .accept _ => none
    | .deliver a => if key a = k then some a else none

variable {key} {s t : κ → List α} {events : List (Event α)}

theorem Step.conserves {event : Event α} (h : Step key s event t) (k : κ) :
    s k ++ accepted key k [event] = delivered key k [event] ++ t k := by
  cases h with
  | accept a =>
    by_cases hk : key a = k
    · subst hk
      simp [accepted, delivered]
    · simp [accepted, delivered, hk, Function.update_of_ne (Ne.symm hk)]
  | deliver a rest h =>
    by_cases hk : key a = k
    · subst hk
      simp [accepted, delivered, h]
    · simp [accepted, delivered, hk, Function.update_of_ne (Ne.symm hk)]

/-- What was waiting and what was accepted since is delivered in that order or still waits. -/
theorem conserves (h : Run (Step key) s events t) (k : κ) :
    s k ++ accepted key k events = delivered key k events ++ t k := by
  induction h with
  | nil => simp [accepted, delivered]
  | @cons s t u event events hs _ ih =>
    calc s k ++ accepted key k (event :: events)
        = (s k ++ accepted key k [event]) ++ accepted key k events := by
          rw [List.append_assoc, accepted, accepted, accepted, ← List.filterMap_append]
          rfl
      _ = delivered key k [event] ++ (t k ++ accepted key k events) := by
          rw [hs.conserves k, List.append_assoc]
      _ = delivered key k (event :: events) ++ u k := by
          rw [ih, ← List.append_assoc, delivered, delivered, ← List.filterMap_append]
          rfl

end KeyedFifo
