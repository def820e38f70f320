-- SUMMARY: How far the actions of a run can be at each step of the worker, for every play of moves.
import Combo.Proofs.Clockwork.Turn
import Combo.Proofs.Executor.Poll

/-!
# Sound executors

Before a run is joined none of its actions is under way; once it is closed for
layering none waits to be started; when it is about to finish all have ended. A
run that is cancelled as a whole has each of its actions cancelled. `Sound` puts
this together with the phase others see, and `sound_play` shows that it holds
after every play.
-/

namespace Combo

namespace Run

/-- Whether the actions of a run are as far as the worker's step says. -/
def IsAt (r : Run) : Step → Prop
  | .focusing | .settling _ | .opening =>
    ∀ e ∈ r.entries, e.progress.isQueued = true ∨ e.progress.isEnded = true
  | .joining true => True
  | .joining false => ∀ e ∈ r.entries, e.progress.isQueued = false
  | .closing _ => ∀ e ∈ r.entries, e.progress.isEnded = true

/-- Whether each action is cancelled if the whole run is. -/
def Coherent (r : Run) : Prop := r.cancelled = true → ∀ e ∈ r.entries, e.cancelled = true

theorem holdsNothing_of_isAt {r : Run} {step : Step} (h : r.IsAt step)
    (hstep : ∀ accepting, step ≠ .joining accepting) : r.HoldsNothing := by
  intro e he
  cases step with
  | joining accepting => exact absurd rfl (hstep accepting)
  | closing fault => exact Progress.held?_of_isEnded (h e he)
  | focusing =>
      exact (h e he).elim Progress.held?_of_isQueued Progress.held?_of_isEnded
  | settling due =>
      exact (h e he).elim Progress.held?_of_isQueued Progress.held?_of_isEnded
  | opening =>
      exact (h e he).elim Progress.held?_of_isQueued Progress.held?_of_isEnded

/-! ## What the operations keep -/

theorem coherent_of_not_cancelled {r : Run} (h : r.cancelled = false) : r.Coherent := by
  intro hc
  rw [h] at hc
  cases hc

theorem coherent_dispatch (requireFocus : Bool) (d : Deferred) (t : Ticket) :
    (dispatch requireFocus d t).Coherent := by
  intro hall e he
  have hd := (dispatch_spec requireFocus d t).2 e he
  have hit : d.hits e.action = true := by
    have : d.all = true := hall
    simp [Deferred.hits, this]
  rw [Entry.IsDispatched, if_pos hit] at hd
  exact hd.1

theorem isAt_dispatch (requireFocus : Bool) (d : Deferred) (t : Ticket) :
    ∀ e ∈ (dispatch requireFocus d t).entries,
      e.progress.isQueued = true ∨ e.progress.isEnded = true := by
  intro e he
  have hd := (dispatch_spec requireFocus d t).2 e he
  unfold Entry.IsDispatched at hd
  split at hd
  · exact .inr (by rw [hd.2]; rfl)
  · exact .inl (by rw [hd.2]; rfl)

/-- An operation that maps the entries keeps coherence when it keeps what is cancelled. -/
theorem Coherent.map {r r' : Run} (h : r.Coherent) (hc : r'.cancelled = r.cancelled)
    (f : Entry → Entry) (hf : ∀ e, e.cancelled = true → (f e).cancelled = true)
    (heq : r'.entries = r.entries.map f) : r'.Coherent := by
  intro hcancelled e he
  rw [heq] at he
  obtain ⟨e', he', rfl⟩ := List.mem_map.1 he
  exact hf e' (h (hc ▸ hcancelled) e' he')

theorem Coherent.receive {r : Run} (h : r.Coherent) : r.receive.Coherent := by
  have hmap := map_receive (fun e => e.cancelled) (by simp) r
  intro hcancelled e he
  have hc : r.cancelled = true := r.receive_cancelled ▸ hcancelled
  have hmem : e.cancelled ∈ r.entries.map (fun e => e.cancelled) := by
    rw [← hmap]
    exact List.mem_map_of_mem he
  obtain ⟨e', he', heq⟩ := List.mem_map.1 hmem
  rw [← heq]
  exact h hc e' he'

theorem coherent_interruptAll (r : Run) : r.interruptAll.1.Coherent := by
  intro _ e he
  obtain ⟨e', -, rfl⟩ := List.mem_map.1 he
  rfl

/-- When no action of a cancelled run can get on, all that were started have ended. -/
theorem Coherent.isDrained_of_cancelled {r : Run} {now : Nat} (h : r.Coherent)
    (cancelled : r.cancelled = true) (rests : r.runnable? now = none) : r.isDrained = true := by
  refine List.all_eq_true.2 fun e he => ?_
  have still := List.findIdx?_eq_none_iff.1 rests e he
  rw [Entry.runnable, h cancelled e he] at still
  cases hp : e.progress <;> simp_all [Progress.runnable, Progress.isQueued, Progress.isEnded]

theorem Coherent.set {r : Run} {position : Nat} {entry entry' : Entry} (h : r.Coherent)
    (hentry : r.entries[position]? = some entry) (hc : entry'.cancelled = entry.cancelled) :
    Coherent { r with entries := r.entries.set position entry' } := by
  intro hcancelled e he
  rcases List.mem_or_eq_of_mem_set he with he | rfl
  · exact h hcancelled e he
  · rw [hc]
    exact h hcancelled entry (List.mem_of_getElem? hentry)

/-- An operation on the entries that keeps their progress keeps how far they are. -/
theorem IsAt.of_map {r r' : Run} {step : Step} (h : r.IsAt step)
    (heq : r'.entries.map (·.progress) = r.entries.map (·.progress)) : r'.IsAt step := by
  have hmem : ∀ e ∈ r'.entries, ∃ e' ∈ r.entries, e'.progress = e.progress := by
    intro e he
    have : e.progress ∈ r.entries.map (·.progress) := by
      rw [← heq]
      exact List.mem_map_of_mem he
    obtain ⟨e', he', hp⟩ := List.mem_map.1 this
    exact ⟨e', he', hp⟩
  cases step with
  | joining accepting =>
      cases accepting with
      | true => trivial
      | false =>
          intro e he
          obtain ⟨e', he', hp⟩ := hmem e he
          rw [← hp]
          exact h e' he'
  | _ =>
      intro e he
      obtain ⟨e', he', hp⟩ := hmem e he
      rw [← hp]
      exact h e' he'

theorem interruptConflicting_progress (kinds : List Kind) (r : Run) :
    (r.interruptConflicting kinds).1.entries.map (·.progress) = r.entries.map (·.progress) := by
  simp only [interruptConflicting, List.map_map]
  apply List.map_congr_left
  intro e _
  by_cases hit : Entry.hitBy kinds e = true <;> simp [hit]

theorem interruptAll_progress (r : Run) :
    r.interruptAll.1.entries.map (·.progress) = r.entries.map (·.progress) := by
  simp [interruptAll]

theorem isAt_closing_of_isDrained {r : Run} {fault : Option InputError}
    (h : r.IsAt (.joining false)) (drained : r.isDrained = true) : r.IsAt (.closing fault) := by
  intro e he
  have hd := List.all_eq_true.1 drained e he
  rw [h e he] at hd
  simpa using hd

theorem isAt_failAll (message : String) (r : Run) (fault : Option InputError) :
    (r.failAll message).IsAt (.closing fault) := by
  intro e he
  obtain ⟨e', -, rfl⟩ := List.mem_map.1 he
  exact Entry.fail_isEnded message e'

theorem isAt_releaseAll (r : Run) : r.releaseAll.IsAt (.joining false) := by
  intro e he
  obtain ⟨e', -, rfl⟩ := List.mem_map.1 he
  exact Entry.release_isQueued e'

theorem isAt_closeEmpty {r : Run} (h : r.hasQueued = false) : r.IsAt (.joining false) := by
  intro e he
  simpa using List.any_eq_false.1 h e he

end Run

theorem Run.IsAt.set {r : Run} {accepting : Bool} {position : Nat} {entry : Entry}
    (h : r.IsAt (.joining accepting)) (hentry : entry.progress.isQueued = false) :
    Run.IsAt { r with entries := r.entries.set position entry } (.joining accepting) := by
  cases accepting with
  | true => trivial
  | false =>
      intro e he
      rcases List.mem_or_eq_of_mem_set he with he | rfl
      · exact h e he
      · exact hentry

/-! ## Executors -/

/-- Whether the run of an executor is as far as its step says, and seen to be running. -/
def Executor.Sound (x : Executor) : Prop :=
  ∀ b step run, x.worker = some ⟨b, .running step run⟩ →
    run.IsAt step ∧ run.Coherent ∧ x.phase = .running

namespace Clockwork

variable {φ : Type} [Feed φ] {s s' : Clockwork φ} {es : List Event}

/-- An executor with this worker is sound if the run of the worker is. -/
theorem sound_running {x : Executor} {b : Bool} {step : Step} {run : Run}
    (h : x.worker = some ⟨b, .running step run⟩) (hat : run.IsAt step) (hc : run.Coherent)
    (hphase : x.phase = .running) : x.Sound := by
  intro b' step' run' h'
  rw [h] at h'
  cases h'
  exact ⟨hat, hc, hphase⟩

theorem sound_idle {x : Executor} (h : ∀ b step run, x.worker ≠ some ⟨b, .running step run⟩) :
    x.Sound := fun b step run hw => absurd hw (h b step run)

theorem Stride.sound (stride : Stride s es s') (h : s.executor.Sound) : s'.executor.Sound := by
  cases stride with
  | rest => exact h
  | tick => exact h
  | refocus => exact h
  | rewire => exact h
  | start | leave | begin | hand | miss | crash | finish => exact sound_idle (by simp)
  | handIn hw hstage =>
      refine sound_idle ?_
      rintro b step run ⟨⟩
      split at hstage <;> cases hstage
  | @dispatch b t d run hw hrun =>
      subst hrun
      refine sound_running rfl ?_ (Run.coherent_dispatch _ _ _) rfl
      split <;> exact Run.isAt_dispatch _ _ _
  | focused hw =>
      obtain ⟨hat, hc, hphase⟩ := h _ _ _ hw
      exact sound_running rfl hat hc hphase
  | activated hw =>
      obtain ⟨hat, hc, hphase⟩ := h _ _ _ hw
      exact sound_running rfl hat hc hphase
  | unfocused hw =>
      obtain ⟨-, hc, hphase⟩ := h _ _ _ hw
      exact sound_running rfl (Run.isAt_failAll _ _ _)
        (hc.map rfl (Entry.fail _) (by simp) rfl) hphase
  | settled hw =>
      obtain ⟨hat, hc, hphase⟩ := h _ _ _ hw
      exact sound_running rfl hat hc hphase
  | opened hw =>
      obtain ⟨-, hc, hphase⟩ := h _ _ _ hw
      exact sound_running rfl trivial (hc.map rfl Entry.release (by simp) rfl) hphase
  | receive hw =>
      obtain ⟨-, hc, hphase⟩ := h _ _ _ hw
      exact sound_running rfl trivial hc.receive hphase
  | closeEmpty hw drained queued =>
      obtain ⟨-, hc, hphase⟩ := h _ _ _ hw
      exact sound_running rfl (Run.isAt_closeEmpty queued) hc hphase
  | closeLate hw =>
      obtain ⟨-, hc, hphase⟩ := h _ _ _ hw
      exact sound_running rfl (Run.isAt_releaseAll _)
        (hc.map rfl Entry.release (by simp) rfl) hphase
  | joined hw drained =>
      obtain ⟨hat, hc, hphase⟩ := h _ _ _ hw
      exact sound_running rfl (Run.isAt_closing_of_isDrained hat drained) hc hphase
  | poll hw hentry ready hpoll =>
      obtain ⟨hat, hc, hphase⟩ := h _ _ _ hw
      have polled := Progress.poll_polled ready hpoll
      exact sound_running rfl (hat.set polled.isQueued_eq_false) (hc.set hentry rfl) hphase

theorem Turn.sound (turn : Turn s es s') (h : s.executor.Sound) : s'.executor.Sound := by
  cases turn with
  | stride stride => exact stride.sound h
  | bury | vanish | abort => exact sound_idle (by simp)
  | @interruptAll b stopping stage hw =>
      cases stage with
      | running step run =>
          obtain ⟨hat, -, hphase⟩ := h _ _ _ hw
          exact sound_running rfl (hat.of_map (Run.interruptAll_progress run))
            (Run.coherent_interruptAll run) hphase
      | _ => exact sound_idle (by simp [Stage.interruptAll])
  | @interruptConflicting b stage group hw =>
      cases stage with
      | running step run =>
          obtain ⟨hat, hc, hphase⟩ := h _ _ _ hw
          refine sound_running rfl (hat.of_map (Run.interruptConflicting_progress _ run))
            (hc.map rfl _ ?_ rfl) hphase
          intro e he
          split
          · rfl
          · exact he
      | _ => exact sound_idle (by simp [Stage.interruptConflicting])
  | layer group hw alive =>
      obtain ⟨-, -, hphase⟩ := h _ _ _ hw
      obtain ⟨new, heq, -⟩ := Run.exists_layer group.actions _
      rw [heq]
      exact sound_running rfl trivial (Run.coherent_of_not_cancelled alive) hphase

/-- After every play from a new executor the executor is sound. -/
theorem sound_play (feed : φ) (engine : Engine) (target : Target) (device : Device)
    (focus : Focus) (moves : List Move) :
    ((new feed engine target device focus).play moves).executor.Sound :=
  play_induct (P := fun _ s => s.executor.Sound) (sound_idle (by simp [new]))
    (fun h turn => turn.sound h) moves

omit [Feed φ] in
/-- While a cancelled run is joined there is always something left to do, so no time passes. -/
theorem tick_of_cancelled {b accepting : Bool} {run : Run} (h : s.executor.Sound)
    (hw : s.executor.worker = some ⟨b, .running (.joining accepting) run⟩)
    (cancelled : run.cancelled = true) : s.tick = s := by
  obtain ⟨-, hc, -⟩ := h _ _ _ hw
  have busy : s.isQuiet = false := by
    rcases hrun : run.runnable? s.now with _ | position
    · -- no action can go on, so all that were started have ended and the worker can
      have drained := hc.isDrained_of_cancelled cancelled hrun
      simp [isQuiet, workerReady, hw, stepReady, drained]
    · simp [isQuiet, runnable?, hw, hrun]
  simp [tick, busy]

end Clockwork

end Combo
