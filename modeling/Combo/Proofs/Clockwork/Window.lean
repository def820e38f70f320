-- SUMMARY: Interrupts that arrive while a group is being dequeued are noted, and change nothing else.
import Mathlib.Data.List.Induction
import Combo.Proofs.Clockwork.Turn

/-!
# The dequeuing window

From the moment the worker begins to ask for a group until it dispatches one or
finds none, interrupts are only noted. `defer` puts a note of interrupts into a
system, and `play_window` says that a play within the window comes to the play
without its interrupts, with the note of them put in at the end. `exists_window`
finds the window that a worker is in: it began with an empty note, so no
interrupt of an earlier window is in it.
-/

namespace Combo

/-! ## Notes -/

namespace Deferred

/-- A note of interrupts with more of them added. -/
def join (d d' : Deferred) : Deferred := ⟨d.all || d'.all, d.kinds ++ d'.kinds⟩

@[simp] theorem join_none (d : Deferred) : d.join {} = d := by
  simp [join]

end Deferred

namespace Move

/-- What a move asks to interrupt. -/
def deferral : Move → Deferred
  | .request .interruptAll | .requestStop => { all := true }
  | .request (.interruptConflicting g) => { kinds := g.kinds }
  | .request (.layer _) | .work | .closeLate | .poll _ | .tick | .start | .abort | .setFocus _ _
  | .setDevice _ => {}

/-- Whether a move asks to interrupt something and does nothing else. -/
def isInterrupt : Move → Bool
  | .request .interruptAll | .request (.interruptConflicting _) => true
  | .request (.layer _) | .requestStop | .work | .closeLate | .poll _ | .tick | .start | .abort
  | .setFocus _ _ | .setDevice _ => false

end Move

/-- The note of all interrupts among some moves, in their order. -/
def Deferred.of (moves : List Move) : Deferred :=
  ⟨moves.any (·.deferral.all), moves.flatMap (·.deferral.kinds)⟩

theorem Deferred.of_append_singleton (moves : List Move) (m : Move) :
    Deferred.of (moves ++ [m]) = (Deferred.of moves).join m.deferral := by
  simp [Deferred.of, join]

namespace Stage

/-- The note of interrupts of a worker that is dequeuing. -/
def deferred? : Stage → Option Deferred
  | .asking d => some d
  | .taken _ d => some d
  | .checking | .running _ _ | .reporting _ _ | .sleeping _ | .crashed => none

/-- The stage with another note of interrupts, if it has one. -/
def defer (d : Deferred) : Stage → Stage
  | .asking _ => .asking d
  | .taken t _ => .taken t d
  | stage => stage

theorem deferred?_cases {stage : Stage} (h : stage.deferred?.isSome = true) :
    ∃ d, stage = .asking d ∨ ∃ t, stage = .taken t d := by
  cases stage with
  | asking d => exact ⟨d, .inl rfl⟩
  | taken t d => exact ⟨d, .inr ⟨t, rfl⟩⟩
  | checking | running | reporting | sleeping | crashed => cases h

end Stage

namespace Clockwork

variable {φ : Type} {s s' : Clockwork φ} {es : List Event}

/-- The note of interrupts, while the worker is dequeuing. -/
def deferred? (s : Clockwork φ) : Option Deferred := s.executor.worker.bind (·.stage.deferred?)

/-- The system with another note of interrupts, if it has one. -/
def defer (d : Deferred) (s : Clockwork φ) : Clockwork φ :=
  { s with executor := s.executor.mapStage (Stage.defer d) }

theorem deferred?_of_some {b : Bool} {stage : Stage} (h : s.executor.worker = some ⟨b, stage⟩) :
    s.deferred? = stage.deferred? := by
  simp [deferred?, h]

/-- A worker that is dequeuing is about to ask for a group, or holds one. -/
theorem exists_of_deferred? (h : s.deferred?.isSome = true) :
    ∃ b d, s.executor.worker = some ⟨b, .asking d⟩ ∨
      ∃ t, s.executor.worker = some ⟨b, .taken t d⟩ := by
  cases hw : s.executor.worker with
  | none => simp [deferred?, hw] at h
  | some w =>
      obtain ⟨b, stage⟩ := w
      rw [deferred?_of_some hw] at h
      obtain ⟨d, rfl | ⟨t, rfl⟩⟩ := Stage.deferred?_cases h
      · exact ⟨b, d, .inl rfl⟩
      · exact ⟨b, d, .inr ⟨t, rfl⟩⟩

theorem defer_of_some {b : Bool} {stage : Stage} (h : s.executor.worker = some ⟨b, stage⟩)
    (d : Deferred) : s.defer d = s.withWorker (some ⟨b, stage.defer d⟩) := by
  simp only [defer, Executor.mapStage_of_some h]

theorem deferred?_defer (h : s.deferred?.isSome = true) (d : Deferred) :
    (s.defer d).deferred? = some d := by
  obtain ⟨b, d', hw | ⟨t, hw⟩⟩ := exists_of_deferred? h <;> rw [defer_of_some hw] <;> rfl

theorem isSome_deferred?_defer (s : Clockwork φ) (d : Deferred) :
    (s.defer d).deferred?.isSome = s.deferred?.isSome := by
  cases hw : s.executor.worker with
  | none => simp [deferred?, defer, Executor.mapStage, hw]
  | some w =>
      obtain ⟨b, stage⟩ := w
      rw [defer_of_some hw, deferred?_of_some hw]
      cases stage <;> rfl

/-- To put a note in where there is the same one changes nothing. -/
theorem defer_self {d : Deferred} (h : s.deferred? = some d) : s.defer d = s := by
  obtain ⟨b, d', hw | ⟨t, hw⟩⟩ := exists_of_deferred? (s := s) (by rw [h]; rfl)
  · rw [deferred?_of_some hw] at h
    cases h
    rw [defer_of_some hw]
    exact withWorker_self hw
  · rw [deferred?_of_some hw] at h
    cases h
    rw [defer_of_some hw]
    exact withWorker_self hw

/-- Where no group is being dequeued there is no note to change. -/
theorem defer_of_none (h : s.deferred? = none) (d : Deferred) : s.defer d = s := by
  cases hw : s.executor.worker with
  | none => simp [defer, Executor.mapStage_of_none hw]
  | some w =>
      obtain ⟨b, stage⟩ := w
      rw [deferred?_of_some hw] at h
      rw [defer_of_some hw]
      cases stage with
      | asking | taken => cases h
      | checking | running | reporting | sleeping | crashed => exact withWorker_self hw

variable [Feed φ]

/-! ## One move in the window -/

/-- In the window an interrupt is noted, and nothing else comes of it. -/
theorem move_interrupt {m : Move} (interrupt : m.isInterrupt = true)
    (dequeuing : s.deferred?.isSome = true) (d : Deferred) :
    (s.defer d).move m = s.defer (d.join m.deferral) ∧ (s.defer d).events m = [] := by
  cases m with
  | request r =>
      obtain ⟨b, d', hw | ⟨t, hw⟩⟩ := exists_of_deferred? dequeuing <;>
        simp only [defer_of_some hw, move, Executor.serve] <;>
        cases r with
        | interruptAll =>
            simp [Executor.interruptAll_fst, Executor.mapStage, Stage.defer, Stage.interruptAll,
              Deferred.join, Move.deferral, events]
        | interruptConflicting g =>
            simp [Executor.interruptConflicting_fst, Executor.mapStage, Stage.defer,
              Stage.interruptConflicting, Deferred.join, Move.deferral, events]
        | layer g => cases interrupt
  | _ => cases interrupt

/-- A worker that is dequeuing has no action to poll, no run to close, and no time to lose. -/
theorem move_idle {m : Move} (dequeuing : s.deferred?.isSome = true)
    (idle : m = .closeLate ∨ (∃ i, m = .poll i) ∨ m = .tick ∨ m = .start ∨
      ∃ g, m = .request (.layer g)) : s.move m = s ∧ s.events m = [] := by
  obtain ⟨b, d, hw | ⟨t, hw⟩⟩ := exists_of_deferred? dequeuing <;>
    obtain rfl | ⟨i, rfl⟩ | rfl | rfl | ⟨g, rfl⟩ := idle <;>
    simp [move, events, closeLate, poll, callsSince, tick, isQuiet, workerReady, Executor.start,
      Executor.serve, Executor.layer, hw]

/-- What the feed hands out has nothing to do with the note. -/
theorem work_defer {b : Bool} {d' : Deferred} (hw : s.executor.worker = some ⟨b, .asking d'⟩)
    (d : Deferred) : (s.defer d).move .work = (s.move .work).defer d ∧
      (s.defer d).events .work = s.events .work := by
  refine ⟨?_, by simp [defer_of_some hw, events, workEvents, hw, Stage.defer]⟩
  rcases next : Feed.next s.now s.feed with ⟨handout, feed⟩
  cases handout <;>
    simp [defer, move, workerStep, workerReady, hw, ask, next, setStage, enter, Executor.setStage,
      Executor.mapStage, Stage.defer]

/-- In the window any other move does what it does without the note, and the note stays. -/
theorem move_defer {m : Move} (calm : m.isInterrupt = false) (dequeuing : s.deferred?.isSome = true)
    (d : Deferred) (stays : ((s.defer d).move m).deferred?.isSome = true) :
    (s.defer d).move m = (s.move m).defer (d.join m.deferral) ∧
      (s.defer d).events m = s.events m := by
  have noted : (s.defer d).deferred?.isSome = true := by
    rw [deferred?_defer dequeuing]
    rfl
  have idle : (m = .closeLate ∨ (∃ i, m = .poll i) ∨ m = .tick ∨ m = .start ∨
      ∃ g, m = .request (.layer g)) → m.deferral = {} →
      (s.defer d).move m = (s.move m).defer (d.join m.deferral) ∧
        (s.defer d).events m = s.events m := by
    intro hm hdeferral
    rw [(move_idle dequeuing hm).1, (move_idle dequeuing hm).2, (move_idle noted hm).1,
      (move_idle noted hm).2, hdeferral, Deferred.join_none]
    exact ⟨rfl, rfl⟩
  cases m with
  | closeLate => exact idle (.inl rfl) rfl
  | poll position => exact idle (.inr (.inl ⟨position, rfl⟩)) rfl
  | tick => exact idle (.inr (.inr (.inl rfl))) rfl
  | start => exact idle (.inr (.inr (.inr (.inl rfl)))) rfl
  | request r =>
      cases r with
      | layer g => exact idle (.inr (.inr (.inr (.inr ⟨g, rfl⟩)))) rfl
      | interruptAll | interruptConflicting => cases calm
  | setFocus active failing | setDevice device =>
      refine ⟨?_, rfl⟩
      simp only [Move.deferral, Deferred.join_none]
      rfl
  | requestStop =>
      refine ⟨?_, rfl⟩
      obtain ⟨b, d', hw | ⟨t, hw⟩⟩ := exists_of_deferred? dequeuing <;>
        simp [defer, move, Executor.requestStop, hw, Executor.interruptAll_fst,
          Executor.mapStage, Stage.defer, Stage.interruptAll, Deferred.join, Move.deferral]
  | abort =>
      obtain ⟨b, d', hw | ⟨t, hw⟩⟩ := exists_of_deferred? dequeuing <;>
        simp [defer_of_some hw, move, Executor.abort, Executor.run?, Stage.defer, deferred?] at stays
  | work =>
      obtain ⟨b, d', hw | ⟨t, hw⟩⟩ := exists_of_deferred? dequeuing
      · rw [Move.deferral, Deferred.join_none]
        exact work_defer hw d
      · -- the group would be dispatched, and the window over
        simp [defer_of_some hw, move, workerStep, workerReady, dispatch, enter, Executor.setStage,
          Stage.defer, deferred?, Stage.deferred?] at stays

/-! ## Whole windows -/

/-- The moves that are not interrupts. -/
def calm (moves : List Move) : List Move := moves.filter fun m => !m.isInterrupt

theorem calm_append_singleton (moves : List Move) (m : Move) :
    calm (moves ++ [m]) = if m.isInterrupt then calm moves else calm moves ++ [m] := by
  cases h : m.isInterrupt <;> simp [calm, h]

/-- Whether the worker began to ask for a group with a move, and was dequeuing in all others. -/
structure IsWindow (s : Clockwork φ) (m : Move) (window : List Move) : Prop where
  before : s.deferred? = none
  opened : ∃ b, (s.move m).executor.worker = some ⟨b, .asking {}⟩
  within : ∀ first rest, window = first ++ rest →
    ((s.move m).play first).deferred?.isSome = true ∧
      ((s.move m).play first).executor.phase = .dequeuing

theorem IsWindow.of_append {m : Move} {first rest : List Move}
    (h : s.IsWindow m (first ++ rest)) : s.IsWindow m first where
  before := h.before
  opened := h.opened
  within := fun front back hfirst => h.within front (back ++ rest) (by rw [hfirst, List.append_assoc])

/--
A play within a window is the play without its interrupts, with the note of exactly these
interrupts put in at the end.
-/
theorem play_window {m : Move} {window : List Move} (h : s.IsWindow m window) :
    (s.move m).play window = ((s.move m).play (calm window)).defer (.of window) ∧
      (s.move m).journal window = (s.move m).journal (calm window) ∧
      ((s.move m).play (calm window)).deferred?.isSome = true := by
  induction window using List.reverseRecOn with
  | nil =>
      obtain ⟨b, hw⟩ := h.opened
      have hnote : (s.move m).deferred? = some {} := deferred?_of_some hw
      exact ⟨(defer_self hnote).symm, rfl, by rw [calm, List.filter_nil, play_nil, hnote]; rfl⟩
  | append_singleton window m' ih =>
      obtain ⟨hplay, hjournal, dequeuing⟩ := ih h.of_append
      have stays := (h.within (window ++ [m']) [] (by simp)).1
      rw [play_append, play_cons, play_nil, hplay] at stays
      have hlast : (s.move m).play (window ++ [m']) = ((s.move m).play window).move m' := by
        rw [play_append, play_cons, play_nil]
      have hseen : (s.move m).journal (window ++ [m']) =
          (s.move m).journal window ++ ((s.move m).play window).events m' := by
        rw [journal_append, journal_cons, journal_nil, List.append_nil]
      rw [hlast, hseen, hplay, hjournal, Deferred.of_append_singleton, calm_append_singleton]
      cases interrupt : m'.isInterrupt with
      | true =>
          obtain ⟨hmove, hevents⟩ := move_interrupt interrupt dequeuing (.of window)
          rw [hmove, hevents, List.append_nil]
          exact ⟨rfl, rfl, dequeuing⟩
      | false =>
          obtain ⟨hmove, hevents⟩ := move_defer interrupt dequeuing (.of window) stays
          rw [hmove, isSome_deferred?_defer] at stays
          rw [hmove, hevents]
          simp only [Bool.false_eq_true, if_false, play_append, play_cons, play_nil, journal_append,
            journal_cons, journal_nil, List.append_nil]
          exact ⟨trivial, trivial, stays⟩

/-! ## Every dequeuing worker is in a window -/

/-- A worker that was not dequeuing and is now has just begun to ask, with an empty note. -/
theorem Turn.opens (turn : Turn s es s') (before : s.deferred? = none)
    (after : s'.deferred?.isSome = true) :
    (∃ b, s'.executor.worker = some ⟨b, .asking {}⟩) ∧ s'.executor.phase = .dequeuing := by
  have same : s'.executor.worker = s.executor.worker → False := by
    intro hw
    rw [show s'.deferred? = s.deferred? by simp only [deferred?, hw], before] at after
    cases after
  cases turn with
  | stride stride =>
      cases stride with
      | begin => exact ⟨⟨false, rfl⟩, rfl⟩
      | rest | tick | refocus | rewire => exact (same rfl).elim
      | hand hw | miss hw | crash hw => simp [deferred?, hw, Stage.deferred?] at before
      | handIn hw hstage =>
          split at hstage <;> simp [deferred?, hstage, Stage.deferred?] at after
      | start | leave | dispatch | focused | activated | unfocused | settled | opened | receive
      | closeEmpty | closeLate | joined | finish | poll =>
          simp [deferred?, Stage.deferred?] at after
  | @interruptAll b stopping stage hw | @interruptConflicting b stage group hw =>
      rw [deferred?_of_some hw] at before
      cases stage <;>
        simp_all [deferred?, Stage.deferred?, Stage.interruptAll, Stage.interruptConflicting]
  | bury | layer | abort | vanish => simp [deferred?, Stage.deferred?] at after

/-- While a worker goes on dequeuing the phase stays. -/
theorem Turn.phase_eq (turn : Turn s es s') (before : s.deferred?.isSome = true)
    (after : s'.deferred?.isSome = true) : s'.executor.phase = s.executor.phase := by
  cases turn with
  | stride stride =>
      cases stride with
      | begin hw top =>
          rcases top with rfl | ⟨due, rfl, -⟩ <;> simp [deferred?, hw, Stage.deferred?] at before
      | finish hw => simp [deferred?, hw, Stage.deferred?] at before
      | leave | miss | dispatch => simp [deferred?, Stage.deferred?] at after
      | _ => rfl
  | _ => rfl

/-- A window goes on as long as the worker is dequeuing. -/
theorem IsWindow.append_singleton {m m' : Move} {window : List Move} (h : s.IsWindow m window)
    (dequeuing : ((s.move m).play (window ++ [m'])).deferred?.isSome = true) :
    s.IsWindow m (window ++ [m']) where
  before := h.before
  opened := h.opened
  within := by
    intro first rest hfirst
    cases rest using List.reverseRecOn with
    | nil =>
        obtain ⟨before, phase⟩ := h.within window [] (by simp)
        have turn := turn_move (s := (s.move m).play window) m'
        rw [List.append_nil] at hfirst
        rw [← hfirst]
        refine ⟨dequeuing, ?_⟩
        rw [play_append, play_cons, play_nil] at dequeuing ⊢
        exact (turn.phase_eq before dequeuing).trans phase
    | append_singleton rest m'' =>
        rw [← List.append_assoc] at hfirst
        exact h.within first rest (List.append_inj_left' hfirst rfl)

/-- A worker that is dequeuing at the end of a play is in a window. -/
theorem exists_window (feed : φ) (engine : Engine) (target : Target) (device : Device)
    (focus : Focus) (moves : List Move)
    (dequeuing : ((new feed engine target device focus).play moves).deferred?.isSome = true) :
    ∃ before m window, moves = before ++ m :: window ∧
      ((new feed engine target device focus).play before).IsWindow m window := by
  induction moves using List.reverseRecOn with
  | nil => simp [deferred?, new] at dequeuing
  | append_singleton moves m ih =>
      cases h : ((new feed engine target device focus).play moves).deferred? with
      | none =>
          rw [play_append, play_cons, play_nil] at dequeuing
          obtain ⟨opened, phase⟩ := (turn_move m).opens h dequeuing
          refine ⟨moves, m, [], rfl, h, opened, fun first rest hnil => ?_⟩
          rw [(List.append_eq_nil_iff.1 hnil.symm).1]
          exact ⟨dequeuing, phase⟩
      | some d =>
          obtain ⟨before, m', window, rfl, hwindow⟩ := ih (by rw [h]; rfl)
          refine ⟨before, m', window ++ [m], by simp, hwindow.append_singleton ?_⟩
          rw [List.append_assoc, List.cons_append, play_append, play_cons] at dequeuing
          exact dequeuing

end Clockwork

end Combo
