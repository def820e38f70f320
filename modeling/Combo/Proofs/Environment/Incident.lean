-- SUMMARY: Finer runs of an environment: what happens between the two calls of a script, and calls others make to the executor.
import Combo.Proofs.Clockwork.Turn
import Combo.Proofs.Queue.Effect

/-!
# Incidents

In merge mode a script that is taken in makes two calls to the executor: an
interrupt, and a request to layer. The queue is locked meanwhile, so that the
worker can neither ask for a group nor hand in a report, but everything else may
go on between them. An incident is a happening that tells what does. It may also be
any call to the executor from outside, except that only the queue layers.

No other operation of the queue makes two calls. What comes between a call and
the end of an operation does not reach the queue, so it may as well come after it.
-/

namespace Combo

/-- Whether a move asks for layering. -/
def Move.isLayering : Move → Bool
  | .request (.layer _) => true
  | .request .interruptAll | .request (.interruptConflicting _) => false
  | .work | .closeLate | .poll _ | .tick | .start | .requestStop | .abort | .setFocus _ _
  | .setDevice _ => false

namespace Environment

/-! ## While the queue is locked -/

/-- Whether the next step of the worker reaches for the queue. -/
def isAtQueue (e : Environment) : Bool :=
  match e.executor.worker with
  | some ⟨_, .asking _⟩ => true
  | some ⟨_, .reporting _ _⟩ => true
  | _ => false

/-- Whether a move can be made while the queue takes in a script, which takes no time. -/
def isFree (e : Environment) : Move → Bool
  | .work => !e.isAtQueue
  | .tick => false
  | m => !m.isLayering

/-- Makes a move if the lock of the queue does not keep it from being made. -/
def moveFree (e : Environment) (m : Move) : Environment := if e.isFree m then e.move m else e

/-- Makes moves one after another while the queue is locked. -/
def playFree (e : Environment) (moves : List Move) : Environment := moves.foldl moveFree e

/-- The environment after the interrupt of a merge and what happens before its second call. -/
def halfway (e : Environment) (g : Group) (between : List Move) : Environment :=
  playFree (e.move (.request (.interruptConflicting g))) between

/-- An environment whose queue is about to call the executor. -/
structure Midway where
  system : Environment
  /-- What happens after the interrupt of a merge. -/
  between : List Move

instance : Control Midway where
  interruptAll m :=
    ({ m with system := m.system.move (.request .interruptAll) },
      m.system.executor.interruptAll.2)
  interruptConflicting g m :=
    ({ m with system := m.system.halfway g m.between },
      (m.system.executor.interruptConflicting g).2)
  layer g m :=
    ({ m with system := m.system.move (.request (.layer g)) }, (m.system.executor.layer g).2)

/-! ## Runs -/

/-- One thing that can happen to an environment in which only the worker takes groups. -/
inductive Incident where
  /-- A script is submitted; the moves are made between the two calls of a merge. -/
  | add (script : String) (between : List Move)
  | clear
  | resetErrors
  /-- The queue drops all work and refuses scripts from now on. -/
  | stopQueue
  | move (m : Move)
  deriving DecidableEq

/-- The environment after an incident. -/
def undergo (e : Environment) : Incident → Environment
  | .add script between =>
    let (_, feed, midway) := e.feed.add e.now script ({ system := e, between } : Midway)
    { midway.system with feed }
  | .clear => e.clear
  | .resetErrors => e.resetErrors
  | .stopQueue =>
    let (feed, executor) := e.feed.stop e.executor
    { e with feed, executor }
  | .move m => if m.isLayering then e else e.move m

/-- The environment after many incidents, one after another. -/
def undergoAll (e : Environment) (incidents : List Incident) : Environment :=
  incidents.foldl undergo e

/-- The groups that an incident takes in. -/
def accepted (e : Environment) : Incident → List Group
  | .add script _ =>
    if e.feed.stopped then []
    else match Script.check e.feed.engine.maxActionSeconds script with
      | .ok groups => groups
      | .error _ => []
  | .clear | .resetErrors | .stopQueue | .move _ => []

/-- The groups that incidents take in, one after another. -/
def acceptedAll (e : Environment) : List Incident → List Group
  | [] => []
  | incident :: rest => e.accepted incident ++ (e.undergo incident).acceptedAll rest

/-! ## What is seen of moves -/

variable {e : Environment}

/-- Only a request to layer is seen as layering. -/
theorem isLayering_of_layered {m : Move} {g : Group}
    (h : .layered g ∈ Clockwork.events e m) : m.isLayering = true := by
  cases m with
  | work =>
      simp only [Clockwork.events, Clockwork.workEvents] at h
      split at h <;> simp at h
  | poll position =>
      obtain ⟨call, -, heq⟩ := List.mem_map.1 h
      cases heq
  | abort =>
      rcases List.mem_append.1 h with h | h
      · obtain ⟨call, -, heq⟩ := List.mem_map.1 h
        cases heq
      · split at h <;> simp at h
  | request r =>
      cases r with
      | layer g => rfl
      | interruptAll | interruptConflicting g => cases h
  | closeLate | tick | start | requestStop | setFocus | setDevice => cases h

/-- What is seen of a move that is made while the queue is locked does not concern the queue. -/
theorem events_of_isFree {m : Move} (free : e.isFree m = true) {event : Event}
    (h : event ∈ Clockwork.events e m) :
    (∃ call, event = .called call) ∨ event = .left ∨ event = .aborted := by
  cases m with
  | work =>
      simp only [isFree, isAtQueue, Bool.not_eq_true'] at free
      simp only [Clockwork.events, Clockwork.workEvents] at h
      split at h <;> simp_all
  | poll position =>
      obtain ⟨call, -, rfl⟩ := List.mem_map.1 h
      exact .inl ⟨call, rfl⟩
  | abort =>
      rcases List.mem_append.1 h with h | h
      · obtain ⟨call, -, rfl⟩ := List.mem_map.1 h
        exact .inl ⟨call, rfl⟩
      · split at h
        · exact .inr (.inr (List.mem_singleton.1 h))
        · cases h
  | request r =>
      cases r with
      | layer g => cases free
      | interruptAll | interruptConflicting g => cases h
  | closeLate | tick | start | requestStop | setFocus | setDevice => cases h

/-- A move that is made while the queue is locked leaves the queue as it is. -/
theorem moveFree_feed (e : Environment) (m : Move) : (e.moveFree m).feed = e.feed := by
  unfold moveFree
  split
  · rename_i free
    refine (Clockwork.feed_play [m]).trans ?_
    rw [Clockwork.journal_cons, Clockwork.journal_nil, List.append_nil]
    refine List.foldlRecOn (motive := fun feed => feed = e.feed) _ _ rfl fun feed same event h => ?_
    rcases events_of_isFree free h with ⟨call, rfl⟩ | rfl | rfl <;> exact same
  · rfl

/-! ## What an incident comes to -/

/-- The calls with which room is made for a script, and what happens between them. -/
theorem makeRoom_midway_cases (q : Queue) (groups : List Group) (m : Midway) :
    q.makeRoom groups m = (m, false) ∨
    q.makeRoom groups m = ({ m with system := m.system.move (.request .interruptAll) }, false) ∨
    ∃ first rest, groups = first :: rest ∧
      let e := m.system.halfway first m.between
      q.makeRoom groups m =
        ({ m with system := e.move (.request (.layer first)) }, (e.executor.layer first).2) := by
  unfold Queue.makeRoom
  split
  · exact .inl rfl
  · split
    · exact .inr (.inl rfl)
    · exact .inr (.inr ⟨_, _, rfl, rfl⟩)
    · exact .inl rfl

/-- A script is refused and only the count of refusals changes, or its groups are taken in. -/
theorem undergo_add (e : Environment) (script : String) (between : List Move) :
    (∃ errors, e.undergo (.add script between) = { e with feed := { e.feed with errors } }) ∨
    (e.feed.stopped = false ∧
      let groups := e.accepted (.add script between)
      let room := e.feed.makeRoom groups ({ system := e, between } : Midway)
      e.undergo (.add script between) =
        { room.1.system with feed := e.feed.accept e.now script groups room.2 }) := by
  rcases Queue.add_cases e.now script e.feed ({ system := e, between } : Midway) with
    ⟨fault, errors, heq⟩ | ⟨groups, open_, hcheck, heq⟩
  · refine .inl ⟨errors, ?_⟩
    simp only [undergo, heq]
  · have taken : e.accepted (.add script between) = groups := by
      simp [accepted, open_, hcheck]
    refine .inr ⟨open_, ?_⟩
    simp only [undergo, heq, taken]

section Executor

variable {P : Executor → Prop}
  (step : ∀ {s s' : Environment} {es : List Event}, Clockwork.Turn s es s' →
    P s.executor → P s'.executor)

include step

/-- What every turn keeps of an executor, moves made while the queue is locked keep. -/
theorem playFree_executor (h : P e.executor) (moves : List Move) :
    P (e.playFree moves).executor := by
  induction moves generalizing e with
  | nil => exact h
  | cons m moves ih =>
      refine ih ?_
      unfold moveFree
      split
      · exact step (Clockwork.turn_move m) h
      · exact h

theorem dropWork_executor (h : P e.executor) : P (e.feed.dropWork e.executor).2 := by
  unfold Queue.dropWork
  split
  · exact h
  · exact step (Clockwork.turn_interruptAll (s := e)) h

/-- What every turn keeps of an executor, every incident keeps. -/
theorem undergo_executor (h : P e.executor) (incident : Incident) :
    P (e.undergo incident).executor := by
  have moved : ∀ (s : Environment) (m : Move), P s.executor → P (Clockwork.move s m).executor :=
    fun s m => step (Clockwork.turn_move m)
  cases incident with
  | add script between =>
      rcases undergo_add e script between with ⟨errors, heq⟩ | ⟨-, heq⟩
      · rw [heq]
        exact h
      · rw [heq]
        rcases makeRoom_midway_cases e.feed (e.accepted (.add script between)) ⟨e, between⟩ with
          room | room | ⟨first, rest, -, room⟩ <;> rw [room]
        · exact h
        · exact moved e _ h
        · exact moved (e.halfway first between) _
            (playFree_executor step (moved e _ h) between)
  | clear => exact dropWork_executor step h
  | resetErrors => exact h
  | stopQueue => exact dropWork_executor step h
  | move m =>
      simp only [undergo]
      split
      · exact h
      · exact moved e m h

/-- What every turn keeps of an executor holds after all incidents. -/
theorem undergoAll_executor (h : P e.executor) (incidents : List Incident) :
    P (e.undergoAll incidents).executor := by
  induction incidents generalizing e with
  | nil => exact h
  | cons incident incidents ih => exact ih (undergo_executor step h incident)

end Executor

end Environment

end Combo
