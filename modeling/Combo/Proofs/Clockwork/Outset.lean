-- SUMMARY: Once the window was looked at, what becomes of an action that nothing cancels depends on that action alone.
import Combo.Proofs.Clockwork.Track
import Combo.Proofs.Executor.Undisturbed

/-!
# What lies before an action

At any moment after the worker looked at the window it is settled what an action
of its run will do if it is spared: an action that was started goes on as it does
alone, and one that waits does so from the instant of its start. `outset` is the
action on its own as it will start, or as it is if it was started. It is read off
the entry, the clock and the worker's step; the other entries of the run have no
part in it. A play of moves that spare the action runs through it.
-/

namespace Combo

/-- Whether a move is one of the worker, an action, the clock or the game window, and not a call. -/
def Move.isInner : Move → Bool
  | .work | .closeLate | .poll _ | .tick | .setFocus _ _ => true
  | .start | .request _ | .requestStop | .abort | .setDevice _ => false

/-- Whether a move spares the actions of a kind: all that is called is layering, or an interrupt of others. -/
def Move.spares (kind : Kind) : Move → Bool
  | .request (.layer _) => true
  | .request (.interruptConflicting g) => !kind.interrupted g.kinds
  | m => m.isInner

theorem Move.spares_of_isInner {m : Move} (inner : m.isInner = true) (kind : Kind) :
    m.spares kind = true := by
  cases m with
  | request => cases inner
  | _ => exact inner

namespace Clockwork

variable {φ : Type}

/-- The instant at which the waiting actions of a run are started, once the window was looked at. -/
def startAt (s : Clockwork φ) (step : Step) (run : Run) : Nat :=
  match step with
  | .settling due => if run.cancelled then s.now else max s.now due
  | .focusing | .opening | .joining _ | .closing _ => s.now

/-- The action of an entry on its own as it will be started, or as it is if it was started. -/
def outset (s : Clockwork φ) (step : Step) (run : Run) (e : Entry) : Solo :=
  if e.progress.isQueued then
    .start e.action s.executor.engine.attackMs (s.startAt step run) e.cancelled
  else s.solo e

theorem outset_action (s : Clockwork φ) (step : Step) (run : Run) (e : Entry) :
    (s.outset step run e).action = e.action := by
  unfold outset
  split <;> rfl

variable [Feed φ] {s : Clockwork φ} {m : Move} {moves : List Move} {b : Bool} {step step' : Step}
  {run run' : Run} {group position : Nat} {e e' : Entry} {kind : Kind}

/-! ## One move -/

/-- In a move that spares some kind and during which a run goes on the device stays as it is. -/
theorem device_move (spares : m.spares kind = true) (running : s.IsRunning step run) :
    (s.move m).executor.device = s.executor.device := by
  obtain ⟨b, hw⟩ := running
  cases m with
  | work =>
      rw [move_work hw]
      split
      · cases step with
        | focusing =>
            simp only [stepRun, seeToFocus]
            split
            · rfl
            · split <;> rfl
        | joining accepting =>
            simp only [stepRun, join]
            split
            · split <;> rfl
            · rfl
        | settling | opening | closing => rfl
      · rfl
  | closeLate =>
      simp only [move, closeLate]
      split
      · split <;> rfl
      · rfl
  | poll other =>
      simp only [move, poll]
      split
      · split
        · rfl
        · split <;> rfl
      · rfl
  | tick =>
      simp only [move, tick]
      split <;> rfl
  | setFocus => rfl
  | request r =>
      cases r with
      | interruptAll => cases spares
      | interruptConflicting g =>
          simp only [move, Executor.serve, Executor.interruptConflicting_fst,
            Executor.mapStage_of_some hw]
      | layer g =>
          simp only [move, Executor.serve]
          rcases Executor.layer_cases g s.executor with ⟨b', run', -, -, -, heq⟩ | heq <;> rw [heq]
  | start | requestStop | abort | setDevice => cases spares

/-- What a move that spares some kind makes of a run whose window is given time to settle. -/
theorem settling_move (spares : m.spares kind = true) {due : Nat}
    (running : s.IsRunning (.settling due) run) (running' : (s.move m).IsRunning step' run') :
    (step' = .settling due ∨ step' = .opening) ∧
      (s.move m).startAt step' run' = s.startAt (.settling due) run := by
  obtain ⟨b, hw⟩ := running
  have rest (h : s.move m = s) : (step' = .settling due ∨ step' = .opening) ∧
      (s.move m).startAt step' run' = s.startAt (.settling due) run := by
    rw [h] at running' ⊢
    obtain ⟨rfl, rfl⟩ := IsRunning.unique ⟨b, hw⟩ running'
    exact ⟨.inl rfl, rfl⟩
  cases m with
  | work =>
      have hmove := move_work hw
      cases ready : stepReady s.now run (.settling due) with
      | false => exact rest (by rw [hmove, ready]; rfl)
      | true =>
          rw [if_pos ready, stepRun, setStage_of_some hw] at hmove
          rw [hmove] at running' ⊢
          obtain ⟨rfl, rfl⟩ := IsRunning.unique ⟨b, rfl⟩ running'
          refine ⟨.inr rfl, ?_⟩
          simp only [stepReady, Bool.or_eq_true, decide_eq_true_eq] at ready
          simp only [startAt]
          split
          · rfl
          · exact (Nat.max_eq_left (ready.resolve_left ‹_›)).symm
  | closeLate => exact rest (by simp [move, closeLate, hw])
  | poll other => exact rest (by simp [move, poll, hw])
  | tick =>
      cases quiet : s.isQuiet with
      | false => exact rest (by simp [move, tick, quiet])
      | true =>
          have hmove : s.move .tick = { s with now := s.now + 1 } := by simp [move, tick, quiet]
          rw [hmove] at running' ⊢
          obtain ⟨rfl, rfl⟩ := IsRunning.unique ⟨b, hw⟩ running'
          refine ⟨.inl rfl, ?_⟩
          simp only [isQuiet, workerReady, hw, stepReady, Bool.and_eq_true, Bool.not_eq_true',
            Bool.or_eq_false_iff, decide_eq_false_iff_not] at quiet
          simp only [startAt, quiet.1.1, Bool.false_eq_true, if_false]
          omega
  | setFocus =>
      obtain ⟨rfl, rfl⟩ := IsRunning.unique ⟨b, hw⟩ running'
      exact ⟨.inl rfl, rfl⟩
  | request r =>
      cases r with
      | interruptAll => cases spares
      | interruptConflicting g =>
          simp only [move, Executor.serve, Executor.interruptConflicting_fst,
            Executor.mapStage_of_some hw] at running' ⊢
          obtain ⟨rfl, rfl⟩ := IsRunning.unique ⟨b, rfl⟩ running'
          exact ⟨.inl rfl, rfl⟩
      | layer g =>
          rcases Executor.layer_cases g s.executor with ⟨b', run₁, hw', -⟩ | heq
          · cases hw.symm.trans hw'
          · exact rest (by simp only [move, Executor.serve, heq])
  | start | requestStop | abort | setDevice => cases spares

omit [Feed φ] in
/-- Unless the window is given time to settle, an action that waits is started at once. -/
theorem startAt_of_opened (looked : step ≠ .focusing) (settled : ∀ due, step ≠ .settling due) :
    s.startAt step run = s.now := by
  cases step with
  | settling due => exact absurd rfl (settled due)
  | focusing | opening | joining | closing => rfl

/-- A move that spares some kind does not change when the waiting actions of a run are started. -/
theorem startAt_move (sound : s.executor.Sound) (spares : m.spares kind = true)
    (running : s.IsRunning step run) (looked : step ≠ .focusing)
    (queued : run.hasQueued = true) (running' : (s.move m).IsRunning step' run') :
    (s.move m).startAt step' run' = s.startAt step run := by
  by_cases settled : ∀ due, step ≠ .settling due
  · have forward := (proceeds_of_move running running').forward
    have settled' : step' ≠ .focusing ∧ ∀ due, step' ≠ .settling due := by
      constructor
      · rintro rfl
        exact looked (Step.eq_focusing_of_rank forward)
      · rintro due rfl
        cases step with
        | focusing => exact looked rfl
        | settling due' => exact settled due' rfl
        | joining accepting => cases accepting <;> simp [Step.rank] at forward
        | opening | closing => simp [Step.rank] at forward
    rw [startAt_of_opened looked settled, startAt_of_opened settled'.1 settled'.2]
    rcases (turn_move (s := s) m).now_cases with now | ⟨quiet, -⟩
    · exact now
    · -- the worker does not rest while an action waits that it can start
      have ready : s.workerReady = true := by
        cases step with
        | focusing => exact absurd rfl looked
        | settling due => exact absurd rfl (settled due)
        | joining accepting =>
            exact workerReady_of_hasQueued sound running (by cases accepting <;> simp [Step.rank])
              queued
        | opening | closing =>
            obtain ⟨b, hw⟩ := running
            simp [workerReady, hw, stepReady]
      simp [isQuiet, ready] at quiet
  · simp only [not_forall, not_not] at settled
    obtain ⟨due, rfl⟩ := settled
    exact (settling_move spares running running').2

omit [Feed φ] in
theorem isCalm_of_impact {a : Action} (spares : m.spares a.kind = true) :
    ∀ x ∈ (s.impact position a m).toList, Solo.IsCalm s.executor.device.respond x := by
  intro x hx
  rw [Option.mem_toList] at hx
  unfold impact at hx
  split at hx
  · cases hx
  · cases m with
    | poll other =>
        dsimp only at hx
        split at hx
        · cases hx
          exact .inl rfl
        · cases hx
    | tick =>
        dsimp only at hx
        split at hx
        · cases hx
          exact .inr rfl
        · cases hx
    | request r =>
        cases r with
        | interruptAll => cases spares
        | interruptConflicting g =>
            have other : a.kind.interrupted g.kinds = false := by simpa [Move.spares] using spares
            simp [other] at hx
        | layer g => cases hx
    | work | closeLate | setFocus => cases hx
    | start | requestStop | abort | setDevice => cases spares

omit [Feed φ] in
/-- A calm move leaves the token of an action alone. -/
theorem cancelled_of_calm {driver : Command → Response} {x : Solo} {xs : List Solo.Move}
    (calm : ∀ m ∈ xs, Solo.IsCalm driver m) : (x.play xs).cancelled = x.cancelled := by
  induction xs generalizing x with
  | nil => rfl
  | cons m xs ih =>
      refine (ih fun m' hm' => calm m' (List.mem_cons_of_mem _ hm')).trans ?_
      rcases calm m List.mem_cons_self with rfl | rfl <;> simp only [Solo.move] <;> split <;> rfl

/-- An action is started at the instant its outset says. -/
theorem outset_of_started (sound : s.executor.Sound) (spares : m.spares kind = true)
    (running : s.IsRunning step run) (looked : step ≠ .focusing) (queued : e.progress = .queued)
    (now : (s.move m).now = s.now) (running' : (s.move m).IsRunning step' run')
    (he' : run'.entries[position]? = some { e with progress := .ready }) :
    (s.move m).outset step' run' { e with progress := .ready } = s.outset step run e := by
  have at_once : s.startAt step run = s.now := by
    by_cases settled : ∀ due, step ≠ .settling due
    · exact startAt_of_opened looked settled
    · simp only [not_forall, not_not] at settled
      obtain ⟨due, rfl⟩ := settled
      -- before the run is opened nothing is started
      obtain ⟨b, hw⟩ := running'
      have isAt := (((turn_move m).sound sound) _ _ _ hw).1
      have waits : Progress.ready.isQueued = true ∨ Progress.ready.isEnded = true := by
        rcases (settling_move spares running ⟨b, hw⟩).1 with rfl | rfl <;>
          exact isAt _ (List.mem_of_getElem? he')
      rcases waits with h | h <;> cases h
  simp [outset, queued, Progress.isQueued, at_once, solo, Solo.start, now, engine_move]

/--
A move that spares an action of a run takes it through calm moves of what lies before it, and sends
what is sent in them.
-/
theorem outset_move (sound : s.executor.Sound) (spares : m.spares e.action.kind = true)
    (running : s.IsRunning step run) (looked : step ≠ .focusing)
    (he : run.entries[position]? = some e) (running' : (s.move m).IsRunning step' run') :
    ∃ e' xs, run'.entries[position]? = some e' ∧
      (∀ x ∈ xs, Solo.IsCalm s.executor.device.respond x) ∧
      (s.move m).outset step' run' e' = (s.outset step run e).play xs ∧
      exchangesAt run.id position (s.events m) = (s.outset step run e).exchanges xs := by
  obtain ⟨e', he', meets⟩ := meets_move sound running he m running'
  have calm : ∀ x ∈ (s.impact position e.action m).toList,
      Solo.IsCalm s.executor.device.respond x := isCalm_of_impact spares
  refine ⟨e', ?_⟩
  cases meets with
  | started queued now silent =>
      exact ⟨[], he', by simp,
        outset_of_started sound spares running looked queued now running' he', silent⟩
  | unfocused fault hstep => exact absurd hstep looked
  | alone mirror exchanged =>
      have haction := congrArg Solo.action mirror
      have hcancelled := congrArg Solo.cancelled mirror
      rw [Solo.play_action] at haction
      rw [cancelled_of_calm calm] at hcancelled
      cases queued : e.progress.isQueued with
      | true =>
          -- nothing comes of the move for an action that waits
          obtain ⟨progress, silent⟩ := rest_of_mirror (.inl queued) mirror exchanged
          have waits : run.hasQueued = true :=
            List.any_eq_true.2 ⟨e, List.mem_of_getElem? he, queued⟩
          refine ⟨[], he', by simp, ?_, silent⟩
          simp only [outset, progress, queued, if_true, engine_move,
            startAt_move sound spares running looked waits running', Solo.play_nil]
          rw [show e'.action = e.action from haction, show e'.cancelled = e.cancelled from hcancelled]
      | false =>
          have started : e'.progress.isQueued = false := by
            have := Solo.isQueued_play (x := s.solo e) queued
              (s.impact position e.action m).toList
            rwa [← mirror] at this
          refine ⟨(s.impact position e.action m).toList, he', calm, ?_, ?_⟩
          · simp only [outset, started, queued, Bool.false_eq_true, if_false]
            exact mirror
          · simp only [outset, queued, Bool.false_eq_true, if_false]
            exact exchanged

/-! ## Whole plays -/

/-- Whether an action on its own is led to an entry by calm moves in which it sends what was sent for it. -/
structure LeadsTo (device : Device) (x : Solo) (group position : Nat) (j : List Event)
    (s : Clockwork φ) (step : Step) (run : Run) (e : Entry) : Prop where
  wired : s.executor.device = device
  course : ∃ xs, (∀ m ∈ xs, Solo.IsCalm device.respond m) ∧
    exchangesAt group position j = x.exchanges xs ∧ s.outset step run e = x.play xs

/-- Whether an action on its own ends as an outcome tells, and sends until then what was sent for it. -/
def EndsAs (device : Device) (x : Solo) (group position : Nat) (j : List Event)
    (outcome : Outcome) : Prop :=
  outcome.action = x.action ∧ ∃ xs, (∀ m ∈ xs, Solo.IsCalm device.respond m) ∧
    exchangesAt group position j = x.exchanges xs ∧ (x.play xs).progress = .ended outcome.ending

/-- A play of moves that spare an action leads it from its outset to its outcome. -/
theorem tracks_outset {device : Device} {x : Solo} {j : List Event} (sound : s.executor.Sound)
    (h : s.Tracks (LeadsTo device x group position j) (EndsAs device x group position j) group
      position)
    (spares : ∀ m ∈ moves, m.spares x.action.kind = true)
    (own : ∀ e ∈ s.journal moves, e.isOf group = true) :
    (s.play moves).Tracks (LeadsTo device x group position (j ++ s.journal moves))
      (EndsAs device x group position (j ++ s.journal moves)) group position := by
  have action {s₁ : Clockwork φ} {j : List Event} {step₁ : Step} {run₁ : Run} {e₁ : Entry}
      (leads : LeadsTo device x group position j s₁ step₁ run₁ e₁) : e₁.action = x.action := by
    obtain ⟨xs, -, -, hplay⟩ := leads.course
    rw [← outset_action s₁ step₁ run₁, hplay, Solo.play_action]
  refine Tracks.play (P := LeadsTo device x group position) (D := EndsAs device x group position)
    sound h own ?_ ?_
  · rintro s₁ j m step₁ step₂ run₁ run₂ e₁ hm sound₁ running₁ rfl looked₁ he₁ leads running₂
    have spares₁ : m.spares e₁.action.kind = true := by
      rw [action leads]
      exact spares m hm
    obtain ⟨e₂, ys, he₂, calm', hplay', sent'⟩ :=
      outset_move sound₁ spares₁ running₁ looked₁ he₁ running₂
    obtain ⟨rfl, xs, calm, sent, hplay⟩ := leads
    refine ⟨e₂, he₂, device_move spares₁ running₁, xs ++ ys,
      List.forall_mem_append.2 ⟨calm, calm'⟩, ?_, ?_⟩
    · rw [exchangesAt_append, sent, sent', hplay, Solo.exchanges_append]
    · rw [hplay', hplay, Solo.play_append]
  · rintro s₁ j step₁ run₁ e₁ ending leads hp
    obtain ⟨xs, calm, sent, hplay⟩ := leads.course
    refine ⟨action leads, xs, calm, sent, ?_⟩
    have started : e₁.progress.isQueued = false := by rw [hp]; rfl
    rw [← hplay, outset, started]
    exact hp

end Clockwork

end Combo
