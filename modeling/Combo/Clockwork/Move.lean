-- SUMMARY: Moves: everything that can happen to an executor with its feed, one at a time, and plays of many moves.
import Combo.Clockwork.Step

/-!
# Moves

A move is a step of the worker, a poll of one action, the passing of a
millisecond, or a call from outside. A play is a row of moves in any order, so
what holds after every play holds for every interleaving. A move that cannot be
made changes nothing.
-/

namespace Combo

/-- One thing that can happen to an executor with its feed. -/
inductive Move where
  /-- The worker takes a step. -/
  | work
  /-- The worker closes a run for layering while actions still wait to be started. -/
  | closeLate
  /-- The action at a position of the run is polled. -/
  | poll (position : Nat)
  /-- A millisecond passes. -/
  | tick
  | start
  | request (request : Request)
  | requestStop
  /-- The worker is taken away where it stands. -/
  | abort
  /-- The game window gains or loses the focus, or its activation begins or ceases to fail. -/
  | setFocus (active failing : Bool)
  /-- The device begins or ceases to refuse inputs or to crash on them. -/
  | setDevice (device : Device)
  deriving DecidableEq

namespace Clockwork

variable {φ : Type}

/-- An executor that nothing has happened to yet, with its feed. -/
def new (feed : φ) (engine : Engine) (target : Target) (device : Device) (focus : Focus) :
    Clockwork φ where
  feed
  executor := { engine, target, device, focus }

variable [Feed φ]

/-- Makes a move. -/
def move (s : Clockwork φ) : Move → Clockwork φ
  | .work => s.workerStep
  | .closeLate => s.closeLate
  | .poll position => s.poll position
  | .tick => s.tick
  | .start => { s with executor := s.executor.start }
  | .request r => { s with executor := (s.executor.serve r).1 }
  | .requestStop => { s with executor := s.executor.requestStop }
  | .abort => { s with executor := s.executor.abort s.now }
  | .setFocus active failing =>
    { s with executor := { s.executor with focus := { s.executor.focus with active, failing } } }
  | .setDevice device => { s with executor := { s.executor with device } }

/-- Makes moves one after another. -/
def play (s : Clockwork φ) (moves : List Move) : Clockwork φ := moves.foldl move s

/-! ## Small laws -/

@[simp] theorem play_nil (s : Clockwork φ) : s.play [] = s := rfl

@[simp] theorem play_cons (s : Clockwork φ) (m : Move) (moves : List Move) :
    s.play (m :: moves) = (s.move m).play moves := rfl

theorem play_append (s : Clockwork φ) (first second : List Move) :
    s.play (first ++ second) = (s.play first).play second := by
  simp [play, List.foldl_append]

end Clockwork

end Combo
