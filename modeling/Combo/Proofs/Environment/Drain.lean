-- SUMMARY: Settling and advancing the clock drain an undisturbed environment in the time of its groups, and an idle worker lets the queue be.
import Combo.Proofs.Clockwork.Parallel
import Combo.Proofs.Environment.Completion

/-!
# Drained environments

`Clockwork.settle` makes as many moves as `Clockwork.work` allows for, which are
enough: after it the queue is drained or nothing is left to do. So the clock
can be advanced from one due instant to the next and groups stay on time. Once the
end of the last group is past, the queue is drained.

What an idle worker does while nothing is pending leaves the queue as it is, also
when the worker has been told to stop.
-/

namespace Combo

theorem Plan.polls_le (attackMs : Nat) (a : Action) :
    (a.plan attackMs).polls ≤ Clockwork.actionWork attackMs a := by
  unfold Clockwork.actionWork
  cases a.plan attackMs <;> simp only [polls] <;> omega

theorem Entry.pollsLeft_le (attackMs : Nat) (e : Entry) :
    e.progress.pollsLeft (e.action.plan attackMs) ≤ Clockwork.entryWork attackMs e := by
  unfold Clockwork.entryWork Clockwork.pressesLeft
  cases e.progress with
  | queued | ready =>
      simp only [Progress.pollsLeft]
      cases e.action.plan attackMs <;> simp only [Plan.polls] <;> omega
  | pressing left due =>
      simp only [Progress.pollsLeft]
      omega
  | holding | pausing | ended =>
      simp only [Progress.pollsLeft]
      omega

theorem Stage.movesLeft_pos {stage : Stage} (alive : stage ≠ .crashed) (attackMs : Nat) :
    0 < stage.movesLeft attackMs := by
  cases stage with
  | crashed => exact absurd rfl alive
  | running step run =>
      have pos : 0 < step.movesLeft := by
        cases step with
        | joining accepting => cases accepting <;> simp [Step.movesLeft]
        | _ => simp [Step.movesLeft]
      simp only [movesLeft]
      omega
  | taken t d =>
      simp only [movesLeft, Group.movesLeft]
      omega
  | checking | asking | reporting | sleeping => simp [movesLeft]

/-- A sum is bounded term by term. -/
theorem sum_map_le {α : Type} {f g : α → Nat} {l : List α} (h : ∀ a ∈ l, f a ≤ g a) :
    (l.map f).sum ≤ (l.map g).foldr (· + ·) 0 := by
  induction l with
  | nil => exact Nat.le_refl 0
  | cons a l ih =>
      have head := h a List.mem_cons_self
      have tail := ih fun b hb => h b (List.mem_cons_of_mem _ hb)
      simp only [List.map_cons, List.sum_cons, List.foldr_cons]
      omega

theorem Group.movesLeft_le (attackMs : Nat) (g : Group) :
    g.movesLeft attackMs ≤ Clockwork.groupWork attackMs g := by
  have polls : (g.actions.map fun a => (a.plan attackMs).polls).sum ≤
      (g.actions.map (Clockwork.actionWork attackMs)).foldr (· + ·) 0 :=
    sum_map_le fun a _ => Plan.polls_le attackMs a
  unfold movesLeft Clockwork.groupWork
  omega

namespace Environment

variable {base : Queue} {start : Nat} {ts : List Ticket} {j : List Event} {e : Environment} {m : Move}

/-! ## Settling -/

/-- Until the queue is drained there is something left to do. -/
theorem Runs.movesLeft_pos (h : Runs base start ts j e) (undrained : ¬ e.IsDrained) :
    0 < e.movesLeft := by
  obtain ⟨done, current, left, -, h⟩ := h
  have at_work {stage : Stage} (hw : e.executor.worker = some ⟨false, stage⟩)
      (alive : stage ≠ .crashed) : 0 < e.movesLeft := by
    have pos := Stage.movesLeft_pos alive e.executor.engine.attackMs
    simp only [movesLeft, hw, Option.map_some, Option.getD_some]
    omega
  have station := h.station
  generalize hw : e.executor.worker = w at station
  cases station with
  | awake hstage => exact at_work hw (by rcases hstage with rfl | rfl <;> simp)
  | away hw' none_left => exact absurd (h.isDrained_iff.2 ⟨rfl, none_left⟩) undrained
  | taken | opening | joining | closing | reporting => exact at_work hw (by simp)

/-- Unless a group was just handed out, settling makes enough moves. -/
theorem movesLeft_le_work (untaken : ∀ b t d, e.executor.worker ≠ some ⟨b, .taken t d⟩) :
    e.movesLeft ≤ e.work := by
  have pending : (e.feed.pending.map (·.group.movesLeft e.executor.engine.attackMs)).sum ≤
      ((Feed.left e.feed).map (Clockwork.groupWork e.executor.engine.attackMs)).foldr (· + ·) 0 := by
    have bound := sum_map_le (l := e.feed.pending) (f := (·.group.movesLeft e.executor.engine.attackMs))
      (g := fun t => Clockwork.groupWork e.executor.engine.attackMs t.group)
      fun t _ => Group.movesLeft_le _ t.group
    simpa [Feed.left, Function.comp_def] using bound
  have steps (step : Step) : step.movesLeft ≤ 9 := by
    cases step with
    | joining accepting => cases accepting <;> simp [Step.movesLeft]
    | _ => simp [Step.movesLeft]
  unfold movesLeft Clockwork.work
  rcases hw : e.executor.worker with _ | ⟨b, stage⟩
  · simp only [Executor.run?_of_none hw, Option.map_none, Option.getD_none]
    omega
  · rw [Executor.run?_of_some hw]
    cases stage with
    | taken t d => exact absurd hw (untaken b t d)
    | running step run =>
        have entries : run.pollsLeft e.executor.engine.attackMs ≤
            (run.entries.map (Clockwork.entryWork e.executor.engine.attackMs)).foldr (· + ·) 0 :=
          sum_map_le fun entry _ => Entry.pollsLeft_le _ entry
        have := steps step
        simp only [Option.map_some, Option.getD_some, Stage.movesLeft, Stage.run?]
        omega
    | checking | asking | reporting | sleeping | crashed =>
        simp only [Option.map_some, Option.getD_some, Stage.movesLeft, Stage.run?]
        omega

/-- Without anybody stepping in, the next state is that after the next move. -/
theorem next?_id (e : Environment) : e.next? id = e.nextMove?.map e.move := by
  simp [Clockwork.next?]

/-- Whether the queue is drained, or nothing is left to do at this instant. -/
def IsSettled (e : Environment) : Prop := e.IsDrained ∨ e.isQuiet = true

/-- Enough moves of the standard schedule settle groups on time. -/
theorem Runs.steps (h : Runs base start ts j e) (fit : Ticket.Fit base.engine.attackMs ts) (n : Nat)
    (enough : e.IsDrained ∨ e.movesLeft ≤ n) :
    ∃ j', Runs base start ts j' (Clockwork.steps id n e) ∧ IsSettled (Clockwork.steps id n e) ∧
      (Clockwork.steps id n e).now = e.now := by
  induction n generalizing j e with
  | zero =>
      refine ⟨j, h, .inl ?_, rfl⟩
      by_contra undrained
      have := h.movesLeft_pos undrained
      have := enough.resolve_left undrained
      omega
  | succ n ih =>
      rw [Clockwork.steps, next?_id]
      rcases hnext : e.nextMove? with _ | m
      · exact ⟨j, h, .inr (Clockwork.nextMove?_eq_none_iff.1 hnext), rfl⟩
      · obtain ⟨-, runs, proceeds⟩ := h.nextMove fit hnext
        obtain ⟨j', runs', settled, now⟩ := ih runs (by
          rcases proceeds with drained | ⟨undrained, fewer⟩
          · exact .inl drained
          · have := enough.resolve_left undrained
            exact .inr (by omega))
        refine ⟨j', runs', settled, now.trans ?_⟩
        -- the clock only goes on when there is no next move
        rcases (Clockwork.turn_move (s := e) m).now_cases with now | ⟨quiet, -⟩
        · exact now
        · cases (Clockwork.nextMove?_eq_none_iff.2 quiet).symm.trans hnext

/-! ## The clock -/

/-- Groups that are done stay so, whatever time passes. -/
theorem Runs.shift_of_drained (h : Runs base start ts j e) (drained : e.IsDrained) (now : Nat) :
    Runs base start ts j { e with now } := by
  obtain ⟨done, current, left, all, h⟩ := h
  obtain ⟨rfl, rfl⟩ := h.isDrained_iff.1 drained
  refine ⟨done, none, [], all,
    { h with
      serene := ⟨h.serene.engine, h.serene.works, h.serene.active⟩
      station := ?_ }⟩
  have station := h.station
  change Station _ _ now e.executor.focus.isActive [] j none e.executor.worker
  generalize e.executor.worker = w at station ⊢
  cases station with
  | awake hstage => exact .awake hstage (.inl rfl)
  | away hw => exact .away hw rfl

theorem foldl_min_le (l : List Nat) (limit : Nat) :
    l.foldl min limit ≤ limit ∧ ∀ n ∈ l, l.foldl min limit ≤ n := by
  induction l generalizing limit with
  | nil => simp
  | cons n l ih =>
      obtain ⟨here, rest⟩ := ih (min limit n)
      refine ⟨Nat.le_trans here (Nat.min_le_left _ _), fun m hm => ?_⟩
      rcases List.mem_cons.1 hm with rfl | hm
      · exact Nat.le_trans here (Nat.min_le_right _ _)
      · exact rest m hm

/-- The pause before the next due instant fits into the time to advance. -/
theorem pause_le (e : Environment) {ms : Nat} (pos : ms ≠ 0) :
    max 1 (e.nextInstant (e.now + ms) - e.now) ≤ ms := by
  have := (foldl_min_le (e.dues.filter (e.now < ·)) (e.now + ms)).1
  unfold Clockwork.nextInstant
  omega

/-- The pause before the next due instant is over when something is due, if nothing is left to do. -/
theorem pause_due (quiet : e.isQuiet = true) (ms : Nat) :
    ∀ due ∈ e.dues, e.now + max 1 (e.nextInstant (e.now + ms) - e.now) ≤ due := by
  intro due hdue
  have later := Clockwork.lt_of_mem_dues quiet hdue
  have := (foldl_min_le (e.dues.filter (e.now < ·)) (e.now + ms)).2 due
    (List.mem_filter.2 ⟨hdue, by simpa using later⟩)
  unfold Clockwork.nextInstant
  omega

/-- Whether settling makes enough moves from here. -/
def IsReady (e : Environment) : Prop :=
  e.IsDrained ∨ ∀ b t d, e.executor.worker ≠ some ⟨b, .taken t d⟩

theorem IsSettled.isReady (h : e.IsSettled) : e.IsReady := by
  refine h.imp_right fun quiet b t d hw => ?_
  simp [Clockwork.isQuiet, Clockwork.workerReady, hw] at quiet

/-- Settling brings groups on time as far as they come at this instant. -/
theorem Runs.settle (h : Runs base start ts j e) (fit : Ticket.Fit base.engine.attackMs ts)
    (ready : e.IsReady) :
    ∃ j', Runs base start ts j' (Clockwork.settle id e) ∧ IsSettled (Clockwork.settle id e) ∧
      (Clockwork.settle id e).now = e.now :=
  h.steps fit e.work (ready.imp_right movesLeft_le_work)

/-- Settled groups are on time until the next due instant, and are then ready to go on. -/
theorem Runs.pause (h : Runs base start ts j e) (fit : Ticket.Fit base.engine.attackMs ts)
    (settled : e.IsSettled) (ms : Nat) :
    let pause := max 1 (e.nextInstant (e.now + ms) - e.now)
    Runs base start ts j { e with now := e.now + pause } ∧
      IsReady { e with now := e.now + pause } := by
  intro pause
  have ready : IsReady { e with now := e.now + pause } := settled.isReady
  refine ⟨?_, ready⟩
  rcases settled with drained | quiet
  · exact h.shift_of_drained drained _
  · exact h.shift fit quiet (Nat.le_add_right _ _) (pause_due quiet ms)

/-- To advance the clock keeps groups on time and leaves them settled. -/
theorem Runs.advance (h : Runs base start ts j e) (fit : Ticket.Fit base.engine.attackMs ts)
    (ready : e.IsReady) (ms : Nat) :
    ∃ j', Runs base start ts j' (e.advance ms) ∧ IsSettled (e.advance ms) ∧
      (e.advance ms).now = e.now + ms := by
  unfold Environment.advance
  induction ms using Nat.strong_induction_on generalizing j e with
  | _ ms ih =>
  obtain ⟨j', runs, settled, now⟩ := h.settle fit ready
  rw [Clockwork.advance]
  simp only
  split
  · rename_i zero
    exact ⟨j', runs, settled, by rw [now, zero, Nat.add_zero]⟩
  · rename_i pos
    obtain ⟨next, ready'⟩ := runs.pause fit settled ms
    have within := pause_le (Clockwork.settle id e) pos
    obtain ⟨j'', runs', settled', now'⟩ :=
      ih _ (Nat.sub_lt_self (Nat.le_max_left 1 _) within) next ready'
    exact ⟨j'', runs', settled', by rw [now']; simp only; omega⟩

/-! ## Idle workers -/

/-- Whether a worker is between two rounds, or gone, while nothing is pending. -/
structure Rests (e : Environment) : Prop where
  pending : e.feed.pending = []
  top : ∀ b stage, e.executor.worker = some ⟨b, stage⟩ →
    stage = .checking ∨ (∃ d, stage = .asking d) ∨ ∃ due, stage = .sleeping due

/-- When the queue is drained the worker rests. -/
theorem Runs.rests (h : Runs base start ts j e) (drained : e.IsDrained) : e.Rests := by
  refine ⟨drained.1, fun b stage hw => ?_⟩
  obtain ⟨done, current, left, -, h⟩ := h
  obtain ⟨rfl, rfl⟩ := h.isDrained_iff.1 drained
  have station := h.station
  rw [hw] at station
  cases station with
  | awake hstage => exact hstage.imp_right fun hstage => .inl ⟨{}, hstage⟩
  | away hw' =>
      obtain ⟨due, hdue⟩ := hw'.resolve_left (by simp)
      cases hdue
      exact .inr (.inr ⟨due, rfl⟩)

/-- Without a call from outside a worker that rests leaves the queue as it is, and goes on to rest. -/
theorem Rests.stride {es : List Event} {e' : Environment} (h : e.Rests) (stride : Clockwork.Stride e es e') :
    e'.feed = e.feed ∧ e'.Rests := by
  have next : Feed.next e.now e.feed = (.empty, e.feed) := by
    simp [Feed.next, Queue.next, h.pending]
  -- a step of a worker that does not rest
  have busy {b : Bool} {stage : Stage} (hw : e.executor.worker = some ⟨b, stage⟩)
      (top : ¬ (stage = .checking ∨ (∃ d, stage = .asking d) ∨ ∃ due, stage = .sleeping due)) :
      e'.feed = e.feed ∧ e'.Rests := absurd (h.top b stage hw) top
  cases stride with
  | rest | tick | refocus | rewire => exact ⟨rfl, h.pending, h.top⟩
  | start => exact ⟨rfl, h.pending, fun _ _ hw => by cases hw; exact .inl rfl⟩
  | leave => exact ⟨rfl, h.pending, fun _ _ hw => by cases hw⟩
  | begin => exact ⟨rfl, h.pending, fun _ _ hw => by cases hw; exact .inr (.inl ⟨_, rfl⟩)⟩
  | hand _ next' => cases next.symm.trans next'
  | crash _ next' => cases next.symm.trans next'
  | miss _ next' =>
      cases next.symm.trans next'
      exact ⟨rfl, h.pending, fun _ _ hw => by cases hw; exact .inr (.inr ⟨_, rfl⟩)⟩
  | dispatch hw | focused hw | activated hw | unfocused hw | settled hw | opened hw | receive hw
  | closeEmpty hw | closeLate hw | joined hw | finish hw | handIn hw | poll hw =>
      exact busy hw (by simp)

/-- Whatever a worker that rests does at an instant, the queue stays as it is. -/
theorem Rests.steps (h : e.Rests) (n : Nat) : (Clockwork.steps id n e).feed = e.feed := by
  induction n generalizing e with
  | zero => rfl
  | succ n ih =>
      rw [Clockwork.steps, next?_id]
      rcases hnext : e.nextMove? with _ | m
      · rfl
      · rcases Clockwork.nextMove?_eq_some hnext with ⟨position, rfl, ready⟩ | ⟨rfl, -⟩
        · obtain ⟨b, accepting, run, entry, hw, -⟩ := Clockwork.runnable?_eq_some ready
          rcases h.top _ _ hw with hstage | ⟨d, hstage⟩ | ⟨due, hstage⟩ <;> cases hstage
        · obtain ⟨feed, rests⟩ := h.stride Clockwork.stride_work
          exact (ih rests).trans feed

/-- The queue refuses scripts from now on, and a worker that rests is told to stop. -/
theorem Rests.told (h : e.Rests) (running : e.feed.running = []) :
    (e.after .stop).feed = { e.feed with stopped := true } ∧ Rests (e.after .stop) := by
  have closed : e.feed.stop e.executor = ({ e.feed with stopped := true }, e.executor) := by
    simp [Queue.stop, Queue.dropWork, running, ← h.pending]
  simp only [Environment.after, closed, Clockwork.move]
  refine ⟨trivial, h.pending, fun b stage hw => ?_⟩
  rcases hw' : e.executor.worker with _ | ⟨b', stage'⟩
  · simp [Executor.requestStop, hw'] at hw
  · rcases h.top b' stage' hw' with rfl | ⟨d, rfl⟩ | ⟨due, rfl⟩ <;>
      simp [Executor.requestStop, hw', Executor.interruptAll, Executor.setStage] at hw <;>
      simp [← hw.2]

/-- To stop a worker that rests closes the queue and changes nothing else of it. -/
theorem Rests.stop (h : e.Rests) (running : e.feed.running = []) :
    (Environment.stop e).feed = { e.feed with stopped := true } := by
  obtain ⟨closed, told⟩ := h.told running
  simp only [Environment.stop, Clockwork.stop]
  split
  · exact closed
  · exact (told.steps _).trans closed

end Environment

end Combo
