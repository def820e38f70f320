-- SUMMARY: Plays in which no worker is hired before the last one has left: who is seen, and what the phase tells.
import Combo.Proofs.Crew.Fare
import Combo.Proofs.Crew.Single

/-!
# Successive workers

When no worker is hired before the last one has left, all workers but the last are
gone. Then whatever is seen of the workers is seen of the last one, and the phase is
running while the last one is at a run.
-/

namespace Combo

/-- Whether a worker at a post is at a run. -/
def Post.isRunning : Post → Bool
  | .running _ _ _ => true
  | _ => false

namespace Crew

variable {φ : Type} [Feed φ] {c : Crew φ}

/-- Whether all workers but the last have left. -/
def IsSole (c : Crew φ) : Prop :=
  ∀ (w : Nat) (m : Member), c.members[w]? = some m → w + 1 < c.members.length → m.post = .gone

/-- While all workers but the last have left, what is seen of the workers is seen of the last one. -/
theorem IsSole.filter_notes (sole : c.IsSole) (mv : Move) :
    (((c.notes mv).filter fun n => n.worker.isSome).map (·.event)) =
      c.eventsOf (c.members.length - 1) mv := by
  rw [eventsOf]
  congr 1
  refine List.filter_congr fun n hn => ?_
  cases about : n.worker with
  | none => rfl
  | some w =>
    obtain ⟨m, hm, there⟩ := exists_there_of_notes hn about
    have lt := (List.getElem?_eq_some_iff.1 hm).1
    by_cases last : w = c.members.length - 1
    · simp [last]
    · exact absurd (sole w m hm (by omega)) there

omit [Feed φ] in
/-- A start that hires nobody before all have left changes nothing, or finds all gone. -/
theorem start_cases (next : c.isSuccessive .start = true) :
    c.start = c ∨
      c.start.members = c.members ++ [({} : Member)] ∧ ∀ m ∈ c.members, m.post = .gone := by
  cases slot : c.slot with
  | some worker => exact .inl (by simp [start, slot])
  | none => exact .inr ⟨by simp [start, slot], by simpa [isSuccessive, slot] using next⟩

theorem IsSole.move (sole : c.IsSole) {mv : Move} (next : c.isSuccessive mv = true) : (c.move mv).IsSole := by
  by_cases h : mv = .start
  · subst h
    rcases start_cases next with still | ⟨hired, gone⟩
    · rwa [Crew.move, still]
    · intro w m hm within
      rw [Crew.move, hired] at hm within
      rw [List.getElem?_append_left (by simpa using within)] at hm
      exact gone m (List.mem_of_getElem? hm)
  · intro w m' hm' within
    rw [length_move h] at within
    have lt : w < c.members.length := by omega
    have hm : c.members[w]? = some c.members[w] := List.getElem?_eq_getElem lt
    obtain ⟨-, m'', hm'', gone⟩ := gone_move hm (sole w _ hm within) mv
    cases hm'.symm.trans hm''
    exact gone

theorem isSole_play (feed : φ) (engine : Engine) (target : Target) (device : Device) (focus : Focus)
    (moves : List Move) (successive : (new feed engine target device focus).Successive moves) :
    ((new feed engine target device focus).play moves).IsSole := by
  induction moves using List.reverseRecOn with
  | nil => exact fun w m hm => by cases hm
  | append_singleton moves mv ih =>
    obtain ⟨before, now, -⟩ := successive_append.1 successive
    rw [play_append]
    exact (ih before).move now

/-! ## The phase -/

/-- Whether the phase is running while a worker is at a run. -/
def ShowsRuns (c : Crew φ) : Prop :=
  ∀ (w : Nat) (m : Member), c.members[w]? = some m → m.post.isRunning = true → c.board.phase = .running

/-- The phase is set by steps of workers only. -/
theorem phase_move {mv : Move} (h : ∀ worker, mv ≠ .work worker) :
    (c.move mv).board.phase = c.board.phase := by
  cases mv with
  | work worker => exact absurd rfl (h worker)
  | request r =>
    cases r with
    | interruptAll => rfl
    | interruptConflicting g =>
      simp only [move, serve, interruptConflicting]
      split <;> rfl
    | layer g =>
      simp only [move, serve, layer]
      (repeat' split) <;> rfl
  | stop =>
    simp only [move, stop]
    split <;> rfl
  | setFocus | setDevice => rfl
  | _ =>
    simp only [move, start, closeLate, poll, join, notice, giveUp, abort, letGo, tick, close]
    (repeat' split) <;> rfl

/-- Only the worker that takes a step is at another post after it. -/
theorem work_elsewhere {w worker : Nat} (h : worker ≠ w) :
    (c.work worker).members[w]? = c.members[w]? := by
  simp only [work, beginRound, ask, dispatch, stepRun, seeToFocus, wait, handIn, close]
  (repeat' split) <;> simp [setPost, enter, setMember, h]

omit [Feed φ] in
@[simp] theorem map_round_setPost (c : Crew φ) (worker w : Nat) (post : Post) :
    ((c.setPost worker post).members[w]?).map (·.round) = (c.members[w]?).map (·.round) := by
  simp only [setPost, List.getElem?_modify]
  cases c.members[w]? with
  | none => rfl
  | some m => by_cases h : worker = w <;> simp [h]

omit [Feed φ] in
@[simp] theorem map_round_mapRuns (f : Nat → Shift → Ledger → Run → Run) (c : Crew φ) (w : Nat) :
    ((c.mapRuns f).members[w]?).map (·.round) = (c.members[w]?).map (·.round) := by
  simp only [mapRuns, List.getElem?_mapIdx, Option.map_map]
  cases c.members[w]? with
  | none => rfl
  | some m =>
    simp only [Option.map_some, Function.comp_apply, Member.mapRun]
    split <;> rfl

/-- A worker comes to another round by a step of its own only. -/
theorem round_move {mv : Move} {w : Nat} (there : w < c.members.length) (h : mv ≠ .work w) :
    ((c.move mv).members[w]?).map (·.round) = (c.members[w]?).map (·.round) := by
  cases mv with
  | work worker => rw [move, work_elsewhere fun same => h (by rw [same])]
  | start =>
    simp only [move, start]
    split
    · rfl
    · rw [List.getElem?_append_left there]
  | stop =>
    simp only [move, stop]
    split
    · rfl
    · simp only [interruptAll, cancelListed, cancelUnder, map_round_mapRuns, List.getElem?_modify]
      cases c.members[w]? with
      | none => rfl
      | some m => simp only [Option.map_some, Member.stop]; split <;> rfl
  | request r =>
    cases r with
    | interruptAll => simp [move, serve, interruptAll, cancelListed, cancelUnder]
    | interruptConflicting g =>
      simp only [move, serve, interruptConflicting]
      split
      · rfl
      · simp [cancelListed]
    | layer g =>
      rcases layer_cases g c with refused | ⟨worker, b, k, run, ledger, _, _, gate, member, -, layered⟩
      · simp [move, serve, refused]
      · simp only [move, serve, layered, setMember, List.getElem?_set]
        by_cases same : worker = w
        · subst same
          rw [member]
          simp [there]
        · simp [same]
  | setFocus | setDevice => rfl
  | _ =>
    simp only [move, closeLate, poll, join, notice, giveUp, abort, letGo, tick, close]
    (repeat' split) <;> simp

/-- A worker at a run was at one before, or has taken a step. -/
theorem wasRunning_move {mv : Move} {w : Nat} {m' : Member} (hm' : (c.move mv).members[w]? = some m')
    (running : m'.post.isRunning = true) (h : mv ≠ .work w) :
    ∃ m, c.members[w]? = some m ∧ m.post.isRunning = true := by
  cases hm : c.members[w]? with
  | none =>
    rcases hired_move hm mv with nobody | hired
    · cases nobody.symm.trans hm'
    · cases hired.symm.trans hm'
      cases running
  | some m =>
    refine ⟨m, rfl, ?_⟩
    have same := round_move (List.getElem?_eq_some_iff.1 hm).1 h
    rw [hm', hm] at same
    obtain ⟨m'', hm'', fares | spends⟩ := allGoOn mv w m hm
    · cases hm'.symm.trans hm''
      generalize c.eventsOf w mv = es at fares
      cases fares with
      | told => exact running
      | go | layer => rfl
      | dispatch => simp at same
      | bury | leave | begin | hand | miss | finish => cases running
      | crash now dead => rcases dead with rfl | rfl <;> cases running
      | handIn top => rcases top with rfl | ⟨due, rfl⟩ <;> cases running
    · cases hm'.symm.trans hm''
      generalize c.eventsOf w mv = es at spends
      cases spends with
      | poll | giveUp => rfl
      | abort => cases running

/-- A worker is at a run after a step of its own only when the phase says so. -/
theorem phase_work {w : Nat} {m' : Member} (shows : c.ShowsRuns) (hm' : (c.work w).members[w]? = some m')
    (running : m'.post.isRunning = true) : (c.work w).board.phase = .running := by
  cases hm : c.members[w]? with
  | none =>
    have still : c.work w = c := by simp [work, hm]
    rw [still] at hm'
    cases hm.symm.trans hm'
  | some m =>
    obtain ⟨b, k, post⟩ := m
    by_cases ready : Member.isReady c.now ⟨b, k, post⟩ = true
    · have there := (List.getElem?_eq_some_iff.1 hm).1
      cases post with
      | taken t => simp [work, hm, Member.isReady, dispatch, Board.dispatched]
      | running step run ledger =>
        have was := shows w _ hm rfl
        have steps : c.work w = c.stepRun w run ledger step := by simp only [work, hm, if_pos ready]
        rw [steps] at hm' ⊢
        cases step with
        | closing fault =>
          simp [stepRun, setPost, hm] at hm'
          subst hm'
          cases running
        | _ =>
          simp only [stepRun, seeToFocus, wait, close]
          (repeat' split) <;> exact was
      | _ =>
        simp only [work, hm, if_pos ready, beginRound, ask, handIn, enter] at hm'
        (repeat' split at hm') <;>
          simp [setPost, hm] at hm' <;> subst hm' <;> simp [Post.isRunning] at running
    · have still : c.work w = c := by simp [work, hm, ready]
      rw [still] at hm' ⊢
      exact shows w m' hm' running

theorem IsSole.showsRuns_move (sole : c.IsSole) (shows : c.ShowsRuns) (mv : Move) : (c.move mv).ShowsRuns := by
  intro w m' hm' running
  by_cases own : mv = .work w
  · subst own
    exact phase_work shows hm' running
  · obtain ⟨m, hm, was⟩ := wasRunning_move hm' running own
    by_cases steps : ∃ worker, mv = .work worker
    · obtain ⟨worker, rfl⟩ := steps
      have other : worker ≠ w := fun same => own (by rw [same])
      have last : ¬w + 1 < c.members.length := fun within => by
        have gone := sole w m hm within
        rw [gone] at was
        cases was
      have still : c.work worker = c := by
        cases hm₁ : c.members[worker]? with
        | none => simp [work, hm₁]
        | some m₁ =>
          have within := (List.getElem?_eq_some_iff.1 hm).1
          have within₁ := (List.getElem?_eq_some_iff.1 hm₁).1
          have gone := sole worker m₁ hm₁ (by omega)
          simp [work, hm₁, Member.isReady, gone]
      rw [Crew.move, still]
      exact shows w m hm was
    · rw [phase_move fun worker same => steps ⟨worker, same⟩]
      exact shows w m hm was

theorem showsRuns_play (feed : φ) (engine : Engine) (target : Target) (device : Device) (focus : Focus)
    (moves : List Move) (successive : (new feed engine target device focus).Successive moves) :
    ((new feed engine target device focus).play moves).ShowsRuns := by
  induction moves using List.reverseRecOn with
  | nil => exact fun w m hm => by cases hm
  | append_singleton moves mv ih =>
    obtain ⟨before, -⟩ := successive_append.1 successive
    rw [play_append]
    exact (isSole_play feed engine target device focus moves before).showsRuns_move (ih before) mv

end Crew

end Combo
