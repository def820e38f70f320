-- SUMMARY: Operations on a queue as data, and whole histories of them under any executor.
import Combo.Queue.Basic

/-!
# Histories of a queue

An operation is one call to a queue. A history is a row of operations, each made
at an instant of its own, on a queue together with whatever stands for its
executor.
-/

namespace Combo.Queue

/-- One call to a queue. -/
inductive Operation where
  | add (now : Nat) (script : String)
  | next (now : Nat)
  | complete (report : Report)
  | resetErrors
  | clear
  | stop
  deriving DecidableEq

variable {σ : Type} [Control σ]

/-- A queue and its executor after one operation. -/
def perform (state : Queue × σ) : Operation → Queue × σ
  | .add now script => (state.1.add now script state.2).2
  | .next now => ((state.1.next now).2, state.2)
  | .complete report => (state.1.complete report, state.2)
  | .resetErrors => (state.1.resetErrors, state.2)
  | .clear => state.1.clear state.2
  | .stop => state.1.stop state.2

/-- A queue and its executor after a history. -/
def performAll (state : Queue × σ) (history : List Operation) : Queue × σ :=
  history.foldl perform state

/-! ## Small laws -/

@[simp] theorem performAll_nil (state : Queue × σ) : performAll state [] = state := rfl

@[simp] theorem performAll_cons (state : Queue × σ) (o : Operation) (history : List Operation) :
    performAll state (o :: history) = performAll (perform state o) history := rfl

theorem performAll_append (state : Queue × σ) (first second : List Operation) :
    performAll state (first ++ second) = performAll (performAll state first) second := by
  simp [performAll, List.foldl_append]

end Combo.Queue
