-- SUMMARY: Turns: what a move can do to an executor with its feed and the clock, said once as a relation.
import Combo.Proofs.Clockwork.Journal
import Combo.Proofs.Executor.Stage

/-!
# Turns

`Turn s events s'` says that one move can take the system from `s` to `s'` while
`events` are seen. It has one rule for each thing that can happen, with its
guard and its whole effect, so that a fact about all plays is a case split over
the rules, and no proof opens the functions of the worker again. What happens
without a call from outside is a `Stride`: what the worker and the actions do,
the passing of time, and what becomes of the focus and the device. `turn_move`
shows that every move is a turn.
-/

namespace Combo

/-- The commands that one exchange of an action adds to the record. -/
def Exchange.calls (now group position : Nat) : Option Exchange → List Call
  | some (command, response) => [⟨now, group, position, command, response⟩]
  | none => []

namespace Clockwork

variable {φ : Type}

/-- The system with another worker. -/
abbrev withWorker (s : Clockwork φ) (worker : Option Worker) : Clockwork φ :=
  { s with executor := { s.executor with worker } }

/-- The system with another worker and phase. -/
abbrev withPhase (s : Clockwork φ) (phase : Phase) (worker : Option Worker) : Clockwork φ :=
  { s with executor := { s.executor with phase, worker } }

section Pieces

variable {s : Clockwork φ}

theorem setStage_of_some {b : Bool} {stage stage' : Stage}
    (h : s.executor.worker = some ⟨b, stage⟩) :
    s.setStage stage' = s.withWorker (some ⟨b, stage'⟩) := by
  simp only [setStage, Executor.setStage_of_some h]

theorem enter_of_some {b : Bool} {phase : Phase} {stage stage' : Stage}
    (h : s.executor.worker = some ⟨b, stage⟩) :
    s.enter phase stage' = s.withPhase phase (some ⟨b, stage'⟩) := by
  simp only [enter, Executor.setStage_of_some h]

/-- The system that goes on with the worker it has is the system itself. -/
theorem withWorker_self {w : Option Worker} (h : s.executor.worker = w) : s.withWorker w = s := by
  subst h
  rfl

theorem callsSince_of_append {s' : Clockwork φ} (calls : List Call)
    (h : s'.executor.calls = s.executor.calls ++ calls) :
    callsSince s s' = calls.map .called := by
  simp [callsSince, h]

end Pieces

variable [Feed φ]

/-- One thing that happens without a call from outside, with what is seen of it. -/
inductive Stride (s : Clockwork φ) : List Event → Clockwork φ → Prop where
  | rest : Stride s [] s
  | tick (quiet : s.isQuiet = true) : Stride s [] { s with now := s.now + 1 }
  | refocus (focus : Focus) : Stride s [] { s with executor := { s.executor with focus } }
  | rewire (device : Device) : Stride s [] { s with executor := { s.executor with device } }
  | start (h : s.executor.worker = none) : Stride s [] (s.withWorker (some ⟨false, .checking⟩))
  | leave {stage : Stage} (h : s.executor.worker = some ⟨true, stage⟩)
      (top : stage = .checking ∨ ∃ due, stage = .sleeping due) :
      Stride s [.left] (s.withPhase .idle none)
  | begin {stage : Stage} (h : s.executor.worker = some ⟨false, stage⟩)
      (top : stage = .checking ∨ ∃ due, stage = .sleeping due ∧ due ≤ s.now) :
      Stride s [] (s.withPhase .dequeuing (some ⟨false, .asking {}⟩))
  | hand {b : Bool} {d : Deferred} {t : Ticket} {feed : φ}
      (h : s.executor.worker = some ⟨b, .asking d⟩)
      (next : Feed.next s.now s.feed = (.group t, feed)) :
      Stride s [.asked s.now (.group t)] ({ s with feed }.withWorker (some ⟨b, .taken t d⟩))
  | miss {b : Bool} {d : Deferred} {feed : φ} (h : s.executor.worker = some ⟨b, .asking d⟩)
      (next : Feed.next s.now s.feed = (.empty, feed)) :
      Stride s [.asked s.now .empty] ({ s with feed }.withPhase .idle
        (some ⟨b, .sleeping (s.now + s.executor.engine.pollMs)⟩))
  | crash {b : Bool} {d : Deferred} {feed : φ} (h : s.executor.worker = some ⟨b, .asking d⟩)
      (next : Feed.next s.now s.feed = (.crash, feed)) :
      Stride s [.asked s.now .crash] ({ s with feed }.withWorker (some ⟨b, .crashed⟩))
  | dispatch {b : Bool} {t : Ticket} {d : Deferred} {run : Run}
      (h : s.executor.worker = some ⟨b, .taken t d⟩)
      (hrun : run = Run.dispatch s.executor.target.requireFocus d t) :
      Stride s [] (s.withPhase .running
        (some ⟨b, .running (if run.needsFocus then .focusing else .opening) run⟩))
  | focused {b : Bool} {run : Run} (h : s.executor.worker = some ⟨b, .running .focusing run⟩)
      (active : s.executor.focus.isActive = true) :
      Stride s [] (s.withWorker (some ⟨b, .running .opening run⟩))
  | activated {b : Bool} {run : Run} {focus : Focus}
      (h : s.executor.worker = some ⟨b, .running .focusing run⟩)
      (inactive : s.executor.focus.isActive = false)
      (tried : s.executor.focus.activate = (focus, none)) :
      Stride s [] { s with executor := { s.executor with
        focus
        worker := some ⟨b, .running (.settling (s.now + s.executor.target.settleMs)) run⟩ } }
  | unfocused {b : Bool} {run : Run} {focus : Focus} {e : InputError}
      (h : s.executor.worker = some ⟨b, .running .focusing run⟩)
      (inactive : s.executor.focus.isActive = false)
      (tried : s.executor.focus.activate = (focus, some e)) :
      Stride s [] { s with executor := { s.executor with
        focus
        worker := some ⟨b, .running (.closing (some e)) (run.failAll e.message)⟩ } }
  | settled {b : Bool} {run : Run} {due : Nat}
      (h : s.executor.worker = some ⟨b, .running (.settling due) run⟩)
      (ready : run.cancelled = true ∨ due ≤ s.now) :
      Stride s [] (s.withWorker (some ⟨b, .running .opening run⟩))
  | opened {b : Bool} {run : Run} (h : s.executor.worker = some ⟨b, .running .opening run⟩) :
      Stride s [] (s.withWorker (some ⟨b, .running (.joining true) run.releaseAll⟩))
  | receive {b : Bool} {run : Run} (h : s.executor.worker = some ⟨b, .running (.joining true) run⟩)
      (queued : run.hasQueued = true) :
      Stride s [] (s.withWorker (some ⟨b, .running (.joining true) run.receive⟩))
  | closeEmpty {b : Bool} {run : Run}
      (h : s.executor.worker = some ⟨b, .running (.joining true) run⟩)
      (drained : run.isDrained = true) (queued : run.hasQueued = false) :
      Stride s [] (s.withWorker (some ⟨b, .running (.joining false) run⟩))
  | closeLate {b : Bool} {run : Run}
      (h : s.executor.worker = some ⟨b, .running (.joining true) run⟩)
      (drained : run.isDrained = true) :
      Stride s [] (s.withWorker (some ⟨b, .running (.joining false) run.releaseAll⟩))
  | joined {b : Bool} {run : Run}
      (h : s.executor.worker = some ⟨b, .running (.joining false) run⟩)
      (drained : run.isDrained = true) :
      Stride s [] (s.withWorker (some ⟨b, .running (.closing none) run⟩))
  | finish {b : Bool} {run : Run} {fault : Option InputError}
      (h : s.executor.worker = some ⟨b, .running (.closing fault) run⟩) :
      Stride s [] (s.withPhase .idle (some ⟨b, .reporting run.report fault.isSome⟩))
  | handIn {b : Bool} {report : Report} {faulty : Bool} {stage : Stage}
      (h : s.executor.worker = some ⟨b, .reporting report faulty⟩)
      (hstage : stage = if faulty then .sleeping (s.now + s.executor.engine.backoffMs)
        else .checking) :
      Stride s [.reported report]
        ({ s with feed := Feed.complete report s.feed }.withWorker (some ⟨b, stage⟩))
  | poll {b accepting : Bool} {run : Run} {position : Nat} {entry : Entry} {progress : Progress}
      {exchange : Option Exchange}
      (h : s.executor.worker = some ⟨b, .running (.joining accepting) run⟩)
      (hentry : run.entries[position]? = some entry)
      (ready : entry.runnable s.now = true)
      (hpoll : entry.progress.poll s.executor.device s.executor.engine.attackMs s.now entry.action
        entry.cancelled = (progress, exchange)) :
      Stride s ((Exchange.calls s.now run.id position exchange).map .called)
        { s with executor := { s.executor with
          calls := s.executor.calls ++ Exchange.calls s.now run.id position exchange
          worker := some ⟨b, .running (.joining accepting)
            { run with entries := run.entries.set position { entry with progress } }⟩ } }

/-- One thing that can happen, with what is seen of it. -/
inductive Turn (s : Clockwork φ) : List Event → Clockwork φ → Prop where
  | stride {es : List Event} {s' : Clockwork φ} (h : Stride s es s') : Turn s es s'
  | bury {b : Bool} (h : s.executor.worker = some ⟨b, .crashed⟩) : Turn s [] (s.withWorker none)
  /-- An interrupt, on its own or because the worker is told to stop. -/
  | interruptAll {b stopping : Bool} {stage : Stage} (h : s.executor.worker = some ⟨b, stage⟩)
      (hstop : b = true → stopping = true) :
      Turn s [] (s.withWorker (some ⟨stopping, stage.interruptAll⟩))
  | interruptConflicting {b : Bool} {stage : Stage} (group : Group)
      (h : s.executor.worker = some ⟨b, stage⟩) :
      Turn s [] (s.withWorker (some ⟨b, stage.interruptConflicting group.kinds⟩))
  | layer {b : Bool} {run : Run} (group : Group)
      (h : s.executor.worker = some ⟨b, .running (.joining true) run⟩)
      (alive : run.cancelled = false)
      (focus : s.executor.needsFocus group = true → run.needsFocus = true) :
      Turn s [.layered group]
        (s.withWorker (some ⟨b, .running (.joining true) (run.layer group.actions)⟩))
  | abort {b : Bool} {step : Step} {run : Run} (h : s.executor.worker = some ⟨b, .running step run⟩) :
      Turn s ((Executor.dropCalls s.executor.device s.now run).map .called ++ [.aborted])
        { s with executor := { s.executor with
          worker := none
          calls := s.executor.calls ++ Executor.dropCalls s.executor.device s.now run } }
  | vanish {b : Bool} {stage : Stage} (h : s.executor.worker = some ⟨b, stage⟩)
      (idle : stage.run? = none) : Turn s [.aborted] (s.withWorker none)

/-- A group is handed out in a turn of its own; it is the worker's from then on. -/
theorem Turn.hands {s s' : Clockwork φ} {es : List Event} (turn : Turn s es s') {now : Nat}
    {t : Ticket} (handed : .asked now (.group t) ∈ es) :
    es = [.asked now (.group t)] ∧ ∃ b d feed, s.executor.worker = some ⟨b, .asking d⟩ ∧
      Feed.next s.now s.feed = (.group t, feed) ∧
      s' = { s with feed }.withWorker (some ⟨b, .taken t d⟩) := by
  cases turn with
  | stride stride =>
      cases stride with
      | hand hw next =>
          cases List.mem_singleton.1 handed
          exact ⟨rfl, _, _, _, hw, next, rfl⟩
      | _ => simp at handed
  | _ => simp at handed

/-! ## Every move is a turn -/

variable {s : Clockwork φ}

theorem stride_beginRound {b : Bool} {stage : Stage} (h : s.executor.worker = some ⟨b, stage⟩)
    (top : stage = .checking ∨ ∃ due, stage = .sleeping due ∧ (b = true ∨ due ≤ s.now)) :
    Stride s (if b then [.left] else []) (s.beginRound b) := by
  cases b with
  | true =>
      refine Stride.leave h ?_
      rcases top with rfl | ⟨due, rfl, -⟩
      · exact .inl rfl
      · exact .inr ⟨due, rfl⟩
  | false =>
      simp only [beginRound, Bool.false_eq_true, if_false, enter_of_some h]
      refine Stride.begin h ?_
      rcases top with rfl | ⟨due, rfl, hdue⟩
      · exact .inl rfl
      · exact .inr ⟨due, rfl, by simpa using hdue⟩

theorem stride_ask {b : Bool} {d : Deferred} (h : s.executor.worker = some ⟨b, .asking d⟩) :
    Stride s [.asked s.now (Feed.next s.now s.feed).1] (s.ask d) := by
  unfold ask
  split <;> rename_i feed next <;> rw [next]
  · rw [setStage_of_some (s := { s with feed }) h]
    exact Stride.hand h next
  · rw [enter_of_some (s := { s with feed }) h]
    exact Stride.miss h next
  · rw [setStage_of_some (s := { s with feed }) h]
    exact Stride.crash h next

theorem stride_stepRun {b : Bool} {step : Step} {run : Run}
    (h : s.executor.worker = some ⟨b, .running step run⟩)
    (ready : stepReady s.now run step = true) : Stride s [] (s.stepRun run step) := by
  cases step with
  | focusing =>
      simp only [stepRun, seeToFocus]
      split
      · rename_i active
        rw [setStage_of_some h]
        exact Stride.focused h active
      · rename_i inactive
        rcases tried : s.executor.focus.activate with ⟨focus, _ | e⟩
        · simp only [setStage, Executor.setStage, h]
          exact Stride.activated h (by simpa using inactive) tried
        · simp only [setStage, Executor.setStage, h]
          exact Stride.unfocused h (by simpa using inactive) tried
  | settling due =>
      simp only [stepRun, setStage_of_some h]
      exact Stride.settled h (by simpa [stepReady] using ready)
  | opening =>
      simp only [stepRun, setStage_of_some h]
      exact Stride.opened h
  | joining accepting =>
      simp only [stepReady, Bool.or_eq_true, Bool.and_eq_true] at ready
      cases accepting with
      | true =>
          simp only [stepRun, join, if_true]
          split
          · rename_i queued
            rw [setStage_of_some h]
            exact Stride.receive h queued
          · rename_i queued
            rw [setStage_of_some h]
            exact Stride.closeEmpty h (ready.resolve_left fun hq => queued hq.2) (by simpa using queued)
      | false =>
          simp only [stepRun, join, Bool.false_eq_true, if_false, setStage_of_some h]
          exact Stride.joined h (ready.resolve_left fun hq => by simp at hq)
  | closing fault =>
      simp only [stepRun, enter_of_some h]
      exact Stride.finish h

/-- A worker that cannot go on is not seen doing anything. -/
theorem workEvents_of_not_ready (idle : s.workerReady = false) : s.workEvents = [] := by
  rcases h : s.executor.worker with _ | ⟨b, stage⟩
  · simp [workEvents, h]
  · cases stage <;> cases b <;> simp_all [workEvents, workerReady]

theorem stride_work : Stride s s.workEvents s.workerStep := by
  unfold workerStep
  split
  · rename_i ready
    split
    · rename_i h
      simp only [workEvents, h]
      exact Stride.rest
    · rename_i w h
      obtain ⟨b, stage⟩ := w
      simp only [workerReady, h] at ready
      cases stage with
      | checking =>
          have := stride_beginRound h (.inl rfl)
          cases b <;> simpa [workEvents, h] using this
      | sleeping due =>
          have := stride_beginRound h (.inr ⟨due, rfl, by simpa using ready⟩)
          cases b <;> simpa [workEvents, h] using this
      | asking d =>
          simp only [workEvents, h]
          exact stride_ask h
      | taken t d =>
          simp only [workEvents, h, dispatch, enter_of_some h]
          exact Stride.dispatch h rfl
      | running step run =>
          simp only [workEvents, h]
          exact stride_stepRun h ready
      | reporting report faulty =>
          simp only [workEvents, h, handIn]
          rw [setStage_of_some (s := { s with feed := Feed.complete report s.feed }) h]
          exact Stride.handIn h rfl
      | crashed => simp at ready
  · rename_i idle
    rw [workEvents_of_not_ready (by simpa using idle)]
    exact Stride.rest

theorem stride_closeLate : Stride s [] s.closeLate := by
  unfold closeLate
  split
  · rename_i b run h
    split
    · rename_i drained
      rw [setStage_of_some h]
      exact Stride.closeLate h drained
    · exact Stride.rest
  · exact Stride.rest

theorem stride_poll (position : Nat) : Stride s (callsSince s (s.poll position)) (s.poll position) := by
  have still : Stride s (callsSince s s) s := by
    rw [callsSince_of_append [] (by simp)]
    exact Stride.rest
  unfold poll
  split
  · rename_i b accepting run h
    split
    · exact still
    · rename_i entry hentry
      split
      · rename_i ready
        rcases hpoll : entry.progress.poll s.executor.device s.executor.engine.attackMs s.now
          entry.action entry.cancelled with ⟨progress, exchange⟩
        simp only [setStage, Executor.setStage, h]
        rw [callsSince_of_append (Exchange.calls s.now run.id position exchange) rfl]
        exact Stride.poll h hentry ready hpoll
      · exact still
  · exact still

theorem turn_interruptAll : Turn s [] { s with executor := s.executor.interruptAll.1 } := by
  rw [Executor.interruptAll_fst]
  rcases h : s.executor.worker with _ | ⟨b, stage⟩
  · rw [Executor.mapStage_of_none h]
    exact .stride .rest
  · rw [Executor.mapStage_of_some h]
    exact Turn.interruptAll h id

theorem turn_interruptConflicting (group : Group) :
    Turn s [] { s with executor := (s.executor.interruptConflicting group).1 } := by
  rw [Executor.interruptConflicting_fst]
  rcases h : s.executor.worker with _ | ⟨b, stage⟩
  · rw [Executor.mapStage_of_none h]
    exact .stride .rest
  · rw [Executor.mapStage_of_some h]
    exact Turn.interruptConflicting group h

theorem turn_layer (group : Group) :
    Turn s (if (s.executor.layer group).2 then [.layered group] else [])
      { s with executor := (s.executor.layer group).1 } := by
  rcases Executor.layer_cases group s.executor with ⟨b, run, h, alive, focus, heq⟩ | heq
  · rw [heq]
    exact Turn.layer group h alive focus
  · rw [heq]
    exact .stride .rest

theorem turn_requestStop : Turn s [] { s with executor := s.executor.requestStop } := by
  unfold Executor.requestStop
  split
  · exact .stride .rest
  · rename_i b h
    exact Turn.bury h
  · rename_i w _ h
    obtain ⟨b, stage⟩ := w
    rw [Executor.interruptAll_fst, Executor.mapStage_of_some rfl]
    exact Turn.interruptAll h fun _ => rfl

theorem turn_abort : Turn s (s.events .abort) { s with executor := s.executor.abort s.now } := by
  simp only [events]
  rcases h : s.executor.worker with _ | ⟨b, stage⟩
  · have hrun := Executor.run?_of_none h
    rw [callsSince_of_append [] (by simp [move, Executor.abort, hrun])]
    simp only [Executor.abort, hrun]
    change Turn s _ (s.withWorker none)
    rw [withWorker_self h]
    exact .stride .rest
  · have hrun := Executor.run?_of_some h
    cases stage with
    | running step run =>
        simp only [Stage.run?] at hrun
        rw [callsSince_of_append (Executor.dropCalls s.executor.device s.now run)
          (by simp [move, Executor.abort, hrun])]
        simp only [Executor.abort, hrun]
        exact Turn.abort h
    | _ =>
        simp only [Stage.run?] at hrun
        rw [callsSince_of_append [] (by simp [move, Executor.abort, hrun])]
        simp only [Executor.abort, hrun]
        exact Turn.vanish h rfl

theorem stride_start : Stride s [] { s with executor := s.executor.start } := by
  unfold Executor.start
  split
  · exact Stride.rest
  · rename_i h
    exact Stride.start h

theorem stride_tick : Stride s [] s.tick := by
  unfold tick
  split
  · rename_i quiet
    exact Stride.tick quiet
  · exact Stride.rest

/-- Every move is a turn that is seen as the move is. -/
theorem turn_move (m : Move) : Turn s (s.events m) (s.move m) := by
  cases m with
  | work => exact .stride stride_work
  | closeLate => exact .stride stride_closeLate
  | poll position => exact .stride (stride_poll position)
  | tick => exact .stride stride_tick
  | start => exact .stride stride_start
  | request r =>
      cases r with
      | interruptAll => exact turn_interruptAll
      | interruptConflicting group => exact turn_interruptConflicting group
      | layer group => exact turn_layer group
  | requestStop => exact turn_requestStop
  | abort => exact turn_abort
  | setFocus active failing => exact .stride (.refocus _)
  | setDevice device => exact .stride (.rewire device)

/-- What holds at the start and is kept by every turn holds after every play, with its journal. -/
theorem play_induct {P : List Event → Clockwork φ → Prop} (init : P [] s)
    (turn : ∀ {j s es s'}, P j s → Turn s es s' → P (j ++ es) s') (moves : List Move) :
    P (s.journal moves) (s.play moves) := by
  suffices ∀ j s, P j s → P (j ++ s.journal moves) (s.play moves) from this [] s init
  induction moves with
  | nil =>
      intro j s h
      simpa using h
  | cons m moves ih =>
      intro j s h
      have := ih _ _ (turn h (turn_move m))
      simpa using this

/-! ## The journal tells the truth -/

/-- The record of commands is the old one with the commands of the journal. -/
theorem calls_play (moves : List Move) :
    (s.play moves).executor.calls =
      s.executor.calls ++ (s.journal moves).filterMap Event.call? := by
  have single : ∀ calls : List Call, (calls.map Event.called).filterMap Event.call? = calls := by
    intro calls
    rw [List.filterMap_map]
    exact List.filterMap_some
  refine play_induct (P := fun j s' => s'.executor.calls = s.executor.calls ++ j.filterMap Event.call?)
    (by simp) ?_ moves
  intro j s₁ es s₂ ih turn
  have hcalls : s₂.executor.calls = s₁.executor.calls ++ es.filterMap Event.call? := by
    cases turn with
    | stride stride => cases stride <;> simp [single, Event.call?]
    | _ => simp [single, Event.call?]
  rw [hcalls, ih]
  simp

/-- The feed is the old one after all it was asked and handed. -/
theorem feed_play (moves : List Move) :
    (s.play moves).feed = (s.journal moves).foldl Event.onFeed s.feed := by
  have called : ∀ (calls : List Call) (feed : φ),
      (calls.map Event.called).foldl Event.onFeed feed = feed := by
    intro calls feed
    induction calls with
    | nil => rfl
    | cons c calls ih => exact ih
  refine play_induct (P := fun j s' => s'.feed = j.foldl Event.onFeed s.feed) (by simp) ?_ moves
  intro j s₁ es s₂ ih turn
  have hfeed : s₂.feed = es.foldl Event.onFeed s₁.feed := by
    cases turn with
    | stride stride => cases stride <;> simp_all [Event.onFeed]
    | _ => simp_all [Event.onFeed]
  rw [hfeed, ih, List.foldl_append]

end Clockwork

end Combo
