-- SUMMARY: An undisturbed action takes the same steps however it is scheduled, so two runs of it agree as far as both go.
import Mathlib.Logic.Function.Iterate
import Combo.Proofs.Executor.Solo

/-!
# Undisturbed actions

As long as an action is not cancelled anew and the driver stays the same, each of
its moves either does nothing or is the one step it can take: a poll if a poll
gets on with it, else a millisecond. So every schedule runs through the same
iterates of `advance`. Of two runs one has sent what the other has sent and
perhaps more, and once both have ended they agree.
-/

namespace Combo.Solo

/-- Whether a move leaves an action undisturbed: a poll under the one driver, or time that passes. -/
def IsCalm (driver : Command → Response) (m : Move) : Prop := m = .poll driver ∨ m = .tick

/-- The action one step on: polled if a poll gets on with it, else a millisecond later. -/
def advance (driver : Command → Response) (x : Solo) : Solo :=
  if x.isRunnable then x.move (.poll driver) else x.move .tick

/-- What is sent in so many steps. -/
def trail (driver : Command → Response) : Nat → Solo → List (Nat × Exchange)
  | 0, _ => []
  | k + 1, x => x.sent (.poll driver) ++ trail driver k (x.advance driver)

variable {driver : Command → Response} {x : Solo} {m : Move} {first second : List Move} {k : Nat}

/-- A calm move does nothing, or takes the action the one step on. -/
theorem IsCalm.move_cases (h : IsCalm driver m) (x : Solo) :
    (x.move m = x ∧ x.sent m = []) ∨
      (x.move m = x.advance driver ∧ x.sent m = x.sent (.poll driver)) := by
  cases ready : x.isRunnable with
  | true =>
      rcases h with rfl | rfl
      · exact .inr ⟨by simp [advance, ready], rfl⟩
      · exact .inl ⟨by simp [move, ready], rfl⟩
  | false =>
      rcases h with rfl | rfl
      · exact .inl ⟨by simp [move, ready], by simp [sent, ready]⟩
      · exact .inr ⟨by simp [advance, ready], by simp [sent, ready]⟩

/-- Whatever the schedule, an undisturbed action is some steps on and has sent what is sent in them. -/
theorem exists_iterate (x : Solo) (calm : ∀ m ∈ first, IsCalm driver m) :
    ∃ k, x.play first = (advance driver)^[k] x ∧ x.exchanges first = trail driver k x := by
  induction first generalizing x with
  | nil => exact ⟨0, rfl, rfl⟩
  | cons m first ih =>
      obtain ⟨k, play, exchanges⟩ := ih (x.move m) fun m' hm' => calm m' (List.mem_cons_of_mem _ hm')
      rcases (calm m List.mem_cons_self).move_cases x with ⟨same, silent⟩ | ⟨step, sent⟩
      · refine ⟨k, ?_, ?_⟩
        · rw [play_cons, play, same]
        · rw [Solo.exchanges, exchanges, silent, same, List.nil_append]
      · refine ⟨k + 1, ?_, ?_⟩
        · rw [play_cons, play, step, Function.iterate_succ_apply]
        · rw [Solo.exchanges, exchanges, sent, step, trail]

theorem trail_add (k k' : Nat) (x : Solo) :
    trail driver (k + k') x = trail driver k x ++ trail driver k' ((advance driver)^[k] x) := by
  induction k generalizing x with
  | zero => simp [trail]
  | succ k ih =>
      rw [Nat.add_right_comm, trail, trail, ih, Function.iterate_succ_apply, List.append_assoc]

/-- Nothing comes of an action that has ended, however many steps are taken. -/
theorem iterate_of_ended (k : Nat) (ended : x.progress.isEnded = true) :
    ((advance driver)^[k] x).progress = x.progress ∧ trail driver k x = [] := by
  induction k generalizing x with
  | zero => exact ⟨rfl, rfl⟩
  | succ k ih =>
      have still := not_runnable_of_idle (.inr ended)
      have next : (x.advance driver).progress = x.progress := by simp [advance, move, still]
      obtain ⟨progress, silent⟩ := ih (x := x.advance driver) (next ▸ ended)
      refine ⟨?_, ?_⟩
      · rw [Function.iterate_succ_apply, progress, next]
      · rw [trail, silent, List.append_nil]
        simp [sent, still]

/-- Of two schedules of an undisturbed action one has sent what the other has sent, and perhaps more. -/
theorem exchanges_prefix (x : Solo) (calm₁ : ∀ m ∈ first, IsCalm driver m)
    (calm₂ : ∀ m ∈ second, IsCalm driver m) :
    x.exchanges first <+: x.exchanges second ∨ x.exchanges second <+: x.exchanges first := by
  obtain ⟨k₁, -, sent₁⟩ := exists_iterate x calm₁
  obtain ⟨k₂, -, sent₂⟩ := exists_iterate x calm₂
  rw [sent₁, sent₂]
  rcases Nat.le_total k₁ k₂ with hle | hle <;> obtain ⟨k, rfl⟩ := Nat.exists_eq_add_of_le hle
  · exact .inl ⟨_, (trail_add k₁ k x).symm⟩
  · exact .inr ⟨_, (trail_add k₂ k x).symm⟩

/-- Two schedules of an undisturbed action under which it has ended agree on what it sent and how it ended. -/
theorem agree_of_ended (x : Solo) (calm₁ : ∀ m ∈ first, IsCalm driver m)
    (calm₂ : ∀ m ∈ second, IsCalm driver m) (ended₁ : (x.play first).progress.isEnded = true)
    (ended₂ : (x.play second).progress.isEnded = true) :
    x.exchanges first = x.exchanges second ∧
      (x.play first).progress = (x.play second).progress := by
  -- the schedule with more steps only has the action rest after its end
  have longer (k k' : Nat) (ended : ((advance driver)^[k] x).progress.isEnded = true) :
      trail driver (k + k') x = trail driver k x ∧
        ((advance driver)^[k + k'] x).progress = ((advance driver)^[k] x).progress := by
    obtain ⟨progress, silent⟩ : ((advance driver)^[k'] ((advance driver)^[k] x)).progress = _ ∧
        trail driver k' _ = [] := iterate_of_ended k' ended
    refine ⟨by rw [trail_add, silent, List.append_nil], ?_⟩
    rw [Nat.add_comm, Function.iterate_add_apply, progress]
  obtain ⟨k₁, play₁, sent₁⟩ := exists_iterate x calm₁
  obtain ⟨k₂, play₂, sent₂⟩ := exists_iterate x calm₂
  rw [play₁] at ended₁
  rw [play₂] at ended₂
  rw [sent₁, sent₂, play₁, play₂]
  rcases Nat.le_total k₁ k₂ with hle | hle <;> obtain ⟨k, rfl⟩ := Nat.exists_eq_add_of_le hle
  · obtain ⟨same, progress⟩ := longer k₁ k ended₁
    exact ⟨same.symm, progress.symm⟩
  · exact longer k₂ k ended₂

end Combo.Solo
