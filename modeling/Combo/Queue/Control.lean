-- SUMMARY: What a queue may ask of an executor, and a stand-in that notes what it is asked.
import Combo.Executor.Basic

/-!
# Control over an executor

A queue reaches its executor through three calls only. Any type that offers them
can stand in for one: an executor itself, nothing at all, or a stand-in that
notes the calls.
-/

namespace Combo

/-- The calls a queue makes to its executor. -/
class Control (σ : Type) where
  /-- Cancels every running action; how many there were. -/
  interruptAll : σ → σ × Nat
  /-- Cancels the running actions that conflict with a group; how many there were. -/
  interruptConflicting : Group → σ → σ × Nat
  /-- Starts a group's actions alongside the running group, or refuses. -/
  layer : Group → σ → σ × Bool

instance : Control Executor where
  interruptAll := Executor.interruptAll
  interruptConflicting := Executor.interruptConflicting
  layer := Executor.layer

/-- Without an executor nothing is interrupted and nothing is layered. -/
instance : Control Unit where
  interruptAll u := (u, 0)
  interruptConflicting _ u := (u, 0)
  layer _ u := (u, false)

/-- Notes the calls it gets and answers layering as it is told to. -/
structure StandIn where
  /-- Whether a call still reaches the stand-in. -/
  attached : Bool := false
  /-- Whether groups are accepted for layering. -/
  layers : Bool := false
  /-- The calls, oldest first. -/
  calls : List Request := []
  deriving DecidableEq, Inhabited

namespace StandIn

/-- Notes a call. -/
def note (s : StandIn) (request : Request) : StandIn :=
  if s.attached then { s with calls := s.calls ++ [request] } else s

instance : Control StandIn where
  interruptAll s := (s.note .interruptAll, if s.attached then 1 else 0)
  interruptConflicting g s := (s.note (.interruptConflicting g), if s.attached then 1 else 0)
  layer g s := (s.note (.layer g), s.attached && s.layers)

end StandIn

/-- A request as a list of calls shows it. -/
def Request.text : Request → String
  | .interruptAll => "all"
  | .interruptConflicting g => "conflicting:" ++ g.text
  | .layer g => "layer:" ++ g.text

end Combo
