-- SUMMARY: What the queue has outstanding fits what the worker is at, however an environment got where it is.
import Combo.Proofs.Clockwork.Sound
import Combo.Proofs.Queue.Effect

/-!
# The link of queue and worker

The queue decides from its own list of outstanding groups whether it interrupts
the executor. The list has at most one group, the one that the worker is at; it
has none when the worker is at no group, or when all work was dropped, and then
what the worker is at is doomed. An interrupt is deferred to the group a worker is
going to get only once the queue has been stopped and has nothing to hand out.
`linked_afterAll` shows that this link holds whatever happens.
-/

namespace Combo

namespace Stage

/-- Whether what a queue has outstanding is what a worker at this stage is at. -/
def Fits (q : Queue) (stage : Stage) : Prop :=
  match stage.groupId? with
  | some id => id < q.nextId ∧
    ((∃ o, q.running = [o] ∧ o.id = id) ∨ (q.running = [] ∧ stage.isDoomed = true))
  | none => q.running = [] ∧ stage ≠ .crashed ∧ ∀ d, stage = .asking d → d = {} ∨ q.stopped = true

variable {q q' : Queue} {stage stage' : Stage} {id : Nat}

/-- What fits a group, no matter whether it is doomed. -/
theorem fits_of_group (hid : stage.groupId? = some id) (hlt : id < q.nextId)
    (h : (∃ o, q.running = [o] ∧ o.id = id) ∨ (q.running = [] ∧ stage.isDoomed = true)) :
    stage.Fits q := by
  unfold Fits
  rw [hid]
  exact ⟨hlt, h⟩

theorem Fits.group (h : stage.Fits q) (hid : stage.groupId? = some id) :
    id < q.nextId ∧
      ((∃ o, q.running = [o] ∧ o.id = id) ∨ (q.running = [] ∧ stage.isDoomed = true)) := by
  unfold Fits at h
  rw [hid] at h
  exact h

theorem Fits.no_group (h : stage.Fits q) (hid : stage.groupId? = none) :
    q.running = [] ∧ stage ≠ .crashed ∧ ∀ d, stage = .asking d → d = {} ∨ q.stopped = true := by
  unfold Fits at h
  rw [hid] at h
  exact h

/-- A stage at the same group, no less doomed, fits as well. -/
theorem Fits.same (h : stage.Fits q) (hid : stage.groupId? = some id)
    (hid' : stage'.groupId? = some id)
    (doomed : stage.isDoomed = true → stage'.isDoomed = true) : stage'.Fits q := by
  obtain ⟨hlt, hrunning⟩ := h.group hid
  exact fits_of_group hid' hlt (hrunning.imp_right fun hnone => ⟨hnone.1, doomed hnone.2⟩)

/-- A stage at no group fits a queue with nothing outstanding. -/
theorem fits_of_running_nil (hid : stage.groupId? = none) (hrunning : q.running = [])
    (hcrash : stage ≠ .crashed) (hasking : ∀ d, stage = .asking d → d = {} ∨ q.stopped = true) :
    stage.Fits q := by
  unfold Fits
  rw [hid]
  exact ⟨hrunning, hcrash, hasking⟩

end Stage

namespace Environment

/-- Whether queue and worker fit, and every group seen so far has an old number. -/
structure Linked (e : Environment) : Prop where
  idle : e.executor.worker = none → e.feed.running = []
  busy : ∀ b stage, e.executor.worker = some ⟨b, stage⟩ → stage.Fits e.feed
  pending : ∀ t ∈ e.feed.pending, t.id < e.feed.nextId
  stopped : e.feed.stopped = true → e.feed.pending = []
  calls : ∀ c ∈ e.executor.calls, c.group < e.feed.nextId

variable {e e' : Environment} {es : List Event} {b b' : Bool} {stage stage' : Stage}

/-- When the queue stays as it is and nothing is sent, only the new stage has to fit. -/
theorem Linked.with_stage (h : e.Linked) (hfeed : e'.feed = e.feed)
    (hcalls : e'.executor.calls = e.executor.calls)
    (hw' : e'.executor.worker = some ⟨b', stage'⟩) (fits : stage'.Fits e.feed) : e'.Linked where
  idle := by
    intro hnone
    rw [hw'] at hnone
    cases hnone
  busy := by
    intro b'' stage'' hw
    rw [hw'] at hw
    cases hw
    rw [hfeed]
    exact fits
  pending := by
    rw [hfeed]
    exact h.pending
  stopped := by
    rw [hfeed]
    exact h.stopped
  calls := by
    rw [hfeed, hcalls]
    exact h.calls

/-- A step at one group that does not save a doomed one keeps the link. -/
theorem Linked.with_group (h : e.Linked) (hw : e.executor.worker = some ⟨b, stage⟩)
    (hfeed : e'.feed = e.feed) (hcalls : e'.executor.calls = e.executor.calls)
    (hw' : e'.executor.worker = some ⟨b', stage'⟩) {id : Nat} (hid : stage.groupId? = some id)
    (hid' : stage'.groupId? = some id) (doomed : stage.isDoomed = true → stage'.isDoomed = true) :
    e'.Linked :=
  h.with_stage hfeed hcalls hw' ((h.busy _ _ hw).same hid hid' doomed)

/-- What happens without a call from outside keeps the link. -/
theorem Linked.stride (h : e.Linked) (stride : Clockwork.Stride e es e') : e'.Linked := by
  cases stride with
  | rest | tick | refocus | rewire => exact ⟨h.idle, h.busy, h.pending, h.stopped, h.calls⟩
  | start hw =>
      exact h.with_stage rfl rfl rfl
        (Stage.fits_of_running_nil rfl (h.idle hw) (by simp) (by simp))
  | leave hw top =>
      refine ⟨fun _ => ?_, by simp, h.pending, h.stopped, h.calls⟩
      rcases top with rfl | ⟨due, rfl⟩ <;> exact ((h.busy _ _ hw).no_group rfl).1
  | begin hw top =>
      refine h.with_stage rfl rfl rfl (Stage.fits_of_running_nil rfl ?_ (by simp) ?_)
      · rcases top with rfl | ⟨due, rfl, -⟩ <;> exact ((h.busy _ _ hw).no_group rfl).1
      · rintro d ⟨⟩
        exact .inl rfl
  | @hand b d t feed hw next =>
      obtain ⟨hpending, heq⟩ := Queue.feedNext_group next
      have hrunning := ((h.busy _ _ hw).no_group rfl).1
      have hid := h.pending t (by rw [hpending]; exact List.mem_cons_self)
      rw [heq]
      refine ⟨by simp, ?_, ?_, ?_, h.calls⟩
      · rintro b' stage' ⟨⟩
        refine Stage.fits_of_group rfl hid (.inl ⟨⟨t.id, t.group, e.now⟩, ?_, rfl⟩)
        simp [hrunning]
      · intro t' ht'
        exact h.pending t' (by rw [hpending]; exact List.mem_cons_of_mem _ ht')
      · intro hstopped
        rw [h.stopped hstopped] at hpending
        cases hpending
  | @miss b d feed hw next =>
      rw [Queue.feedNext_empty next]
      exact h.with_stage rfl rfl rfl (Stage.fits_of_running_nil rfl
        ((h.busy _ _ hw).no_group rfl).1 (by simp) (by simp))
  | crash hw next => exact absurd next (Queue.feedNext_ne_crash _ _ _)
  | dispatch hw hrun =>
      refine h.with_group hw rfl rfl rfl rfl ?_ ?_
      · rw [hrun]
        rfl
      · rw [hrun]
        exact id
  | focused hw | activated hw | settled hw | closeEmpty hw | joined hw =>
      exact h.with_group hw rfl rfl rfl rfl rfl id
  | unfocused hw | opened hw | closeLate hw =>
      exact h.with_group hw rfl rfl rfl rfl rfl id
  | @receive b run hw =>
      refine h.with_group hw rfl rfl rfl rfl (congrArg some run.receive_id) ?_
      exact run.receive_cancelled.trans
  | finish hw => exact h.with_group hw rfl rfl rfl rfl rfl fun _ => rfl
  | @handIn b report faulty stage hw hstage =>
      obtain ⟨-, hrunning⟩ := (h.busy _ _ hw).group rfl
      have hnone := Queue.complete_running (hrunning.imp_right fun hnone => hnone.1)
      obtain ⟨hpending, hnext, hstopped, -⟩ := Queue.complete_pending e.feed report
      refine ⟨by simp, ?_, ?_, ?_, ?_⟩
      · rintro b' stage' ⟨⟩
        cases faulty <;> rw [hstage] <;>
          exact Stage.fits_of_running_nil rfl hnone (by simp) (by simp)
      · intro t ht
        exact Nat.lt_of_lt_of_eq (h.pending t (hpending ▸ ht)) hnext.symm
      · intro hs
        exact hpending.trans (h.stopped (hstopped ▸ hs))
      · intro c hc
        exact Nat.lt_of_lt_of_eq (h.calls c hc) hnext.symm
  | @poll b accepting run position entry progress exchange hw hentry ready hpoll =>
      have fits : Stage.Fits e.feed (.running (.joining accepting)
          { run with entries := run.entries.set position { entry with progress } }) :=
        (h.busy _ _ hw).same rfl rfl id
      refine ⟨by simp, ?_, h.pending, h.stopped, ?_⟩
      · rintro b' stage' ⟨⟩
        exact fits
      · intro c hc
        rcases List.mem_append.1 hc with hc | hc
        · exact h.calls c hc
        · rcases exchange with _ | ⟨command, response⟩
          · cases hc
          · rw [List.mem_singleton.1 hc]
            exact ((h.busy _ _ hw).group rfl).1

/-! ## Calls -/

/-- What comes of a script: it is refused and only the count of refusals changes, or taken in. -/
theorem add_cases (script : String) (e : Environment) :
    (∃ fault errors, e.add script = (.error fault, { e with feed := { e.feed with errors } })) ∨
    (∃ groups, e.feed.stopped = false ∧
      Script.check e.feed.engine.maxActionSeconds script = .ok groups ∧
      e.add script = (.ok groups.length, { e with
        feed := e.feed.accept e.now script groups (e.feed.makeRoom groups e.executor).2
        executor := (e.feed.makeRoom groups e.executor).1 })) := by
  rcases Queue.add_cases e.now script e.feed e.executor with
    ⟨fault, errors, heq⟩ | ⟨groups, open_, hcheck, heq⟩
  · exact .inl ⟨fault, errors, by simp only [add, heq]⟩
  · exact .inr ⟨groups, open_, hcheck, by simp only [add, heq]⟩

/-- With a group outstanding the worker is at that group. -/
theorem Linked.exists_worker {e : Environment} (h : e.Linked) (hrunning : e.feed.running ≠ []) :
    ∃ b stage o, e.executor.worker = some ⟨b, stage⟩ ∧ e.feed.running = [o] ∧
      stage.groupId? = some o.id ∧ o.id < e.feed.nextId := by
  cases hw : e.executor.worker with
  | none => exact absurd (h.idle hw) hrunning
  | some w =>
      obtain ⟨b, stage⟩ := w
      have fits := h.busy _ _ hw
      cases hid : stage.groupId? with
      | none => exact absurd (fits.no_group hid).1 hrunning
      | some id =>
          obtain ⟨hlt, ⟨o, ho, rfl⟩ | ⟨hnone, -⟩⟩ := fits.group hid
          · exact ⟨b, stage, o, rfl, ho, hid, hlt⟩
          · exact absurd hnone hrunning

/-- With no group outstanding a group the worker is at is doomed. -/
theorem Linked.isDoomed {e : Environment} (h : e.Linked) (hrunning : e.feed.running = []) {b : Bool}
    {stage : Stage} (hw : e.executor.worker = some ⟨b, stage⟩) {id : Nat}
    (hid : stage.groupId? = some id) : stage.isDoomed = true := by
  obtain ⟨-, ⟨o, ho, -⟩ | ⟨-, doomed⟩⟩ := (h.busy _ _ hw).group hid
  · rw [hrunning] at ho
    cases ho
  · exact doomed

/-- A script that is taken in keeps the link. -/
theorem Linked.accept {e : Environment} (h : e.Linked) (open_ : e.feed.stopped = false)
    (script : String) (groups : List Group) :
    Linked { e with
      feed := e.feed.accept e.now script groups (e.feed.makeRoom groups e.executor).2
      executor := (e.feed.makeRoom groups e.executor).1 } := by
  have grown : e.feed.nextId ≤ e.feed.nextId + groups.length := Nat.le_add_right _ _
  have keeps := e.feed.makeRoom_keepsGroup groups e.executor
  have pending : ∀ layered, ∀ t ∈ (e.feed.accept e.now script groups layered).pending,
      t.id < e.feed.nextId + groups.length := fun _ t ht =>
    (Queue.mem_number (Queue.mem_accept_pending ht)).2
  have stopped : ∀ P : Prop, e.feed.stopped = true → P := by
    intro P hs
    rw [open_] at hs
    cases hs
  by_cases hrunning : e.feed.running = []
  · rw [Queue.makeRoom_of_nil hrunning]
    refine ⟨fun _ => hrunning, fun b stage hw => ?_, pending false, stopped _,
      fun c hc => Nat.lt_of_lt_of_le (h.calls c hc) grown⟩
    have fits := h.busy _ _ hw
    cases hid : stage.groupId? with
    | none =>
        obtain ⟨-, hcrash, hasking⟩ := fits.no_group hid
        exact Stage.fits_of_running_nil hid hrunning hcrash hasking
    | some id =>
        exact Stage.fits_of_group hid (Nat.lt_of_lt_of_le (fits.group hid).1 grown)
          (.inr ⟨hrunning, h.isDoomed hrunning hw hid⟩)
  · obtain ⟨b, stage, o, hw, ho, hid, hlt⟩ := h.exists_worker hrunning
    obtain ⟨hcalls, keeps⟩ := keeps
    obtain ⟨stage', hw', hid', -⟩ := keeps b stage o.id hw hid
    refine ⟨fun hnone => ?_, fun b'' stage'' hw'' => ?_, pending _, stopped _, fun c hc => ?_⟩
    · have := hw'.symm.trans hnone
      cases this
    · have := hw'.symm.trans hw''
      cases this
      obtain ⟨o', ho', hsame⟩ := Queue.accept_running ho e.now script groups
        (e.feed.makeRoom groups e.executor).2
      exact Stage.fits_of_group hid' (Nat.lt_of_lt_of_le hlt grown) (.inl ⟨o', ho', hsame⟩)
    · exact Nat.lt_of_lt_of_le (h.calls c (hcalls ▸ hc)) grown

/-- Dropping all work keeps the link: what was outstanding is doomed. -/
theorem Linked.dropWork {e : Environment} (h : e.Linked) :
    Linked { e with
      feed := (e.feed.dropWork e.executor).1
      executor := (e.feed.dropWork e.executor).2 } := by
  unfold Queue.dropWork
  by_cases hrunning : e.feed.running = []
  · simp only [hrunning, List.isEmpty_nil, if_true]
    refine ⟨fun _ => rfl, fun b stage hw => ?_, by simp, fun _ => rfl, h.calls⟩
    have fits := h.busy _ _ hw
    cases hid : stage.groupId? with
    | none =>
        obtain ⟨-, hcrash, hasking⟩ := fits.no_group hid
        exact Stage.fits_of_running_nil hid rfl hcrash hasking
    | some id =>
        exact Stage.fits_of_group hid (fits.group hid).1 (.inr ⟨rfl, h.isDoomed hrunning hw hid⟩)
  · obtain ⟨b, stage, o, hw, -, hid, hlt⟩ := h.exists_worker hrunning
    simp only [List.isEmpty_iff, hrunning, if_false]
    have hall : (Control.interruptAll e.executor).1 =
        { e.executor with worker := some ⟨b, stage.interruptAll⟩ } := by
      change e.executor.interruptAll.1 = _
      rw [Executor.interruptAll_fst, Executor.mapStage_of_some hw]
    rw [hall]
    refine ⟨by simp, ?_, by simp, fun _ => rfl, h.calls⟩
    rintro b' stage' ⟨⟩
    exact Stage.fits_of_group ((Stage.groupId?_interruptAll stage).trans hid) hlt
      (.inr ⟨rfl, Stage.isDoomed_interruptAll hid⟩)

/-- Changes to what the link does not speak of keep it. -/
theorem Linked.of_feed {e e' : Environment} (h : e.Linked) (hx : e'.executor = e.executor)
    (hrunning : e'.feed.running = e.feed.running) (hpending : e'.feed.pending = e.feed.pending)
    (hnext : e'.feed.nextId = e.feed.nextId)
    (hstopped : e.feed.stopped = true → e'.feed.stopped = true)
    (hempty : e'.feed.stopped = true → e'.feed.pending = []) : e'.Linked where
  idle := by
    rw [hx, hrunning]
    exact h.idle
  busy := by
    intro b stage hw
    rw [hx] at hw
    have fits := h.busy _ _ hw
    cases hid : stage.groupId? with
    | none =>
        obtain ⟨hnone, hcrash, hasking⟩ := fits.no_group hid
        exact Stage.fits_of_running_nil hid (hrunning.trans hnone) hcrash
          fun d hd => (hasking d hd).imp_right hstopped
    | some id =>
        refine Stage.fits_of_group hid ?_ ?_
        · rw [hnext]
          exact (fits.group hid).1
        · rw [hrunning]
          exact (fits.group hid).2
  pending := by
    rw [hpending, hnext]
    exact h.pending
  stopped := hempty
  calls := by
    rw [hx, hnext]
    exact h.calls

/-- Once the queue is stopped, telling the worker to stop keeps the link. -/
theorem Linked.requestStop {e : Environment} (h : e.Linked) (hs : e.feed.stopped = true) :
    Linked (e.move .requestStop) := by
  simp only [Clockwork.move]
  cases hw : e.executor.worker with
  | none =>
      have hsame : e.executor.requestStop = e.executor := by
        simp [Executor.requestStop, hw]
      rw [hsame]
      exact h
  | some w =>
      obtain ⟨b, stage⟩ := w
      have fits := h.busy _ _ hw
      have hstop : e.executor.requestStop =
          { e.executor with worker := some ⟨true, stage.interruptAll⟩ } := by
        unfold Executor.requestStop
        rw [hw]
        cases stage with
        | crashed => exact absurd rfl (fits.no_group rfl).2.1
        | _ =>
            simp only
            rw [Executor.interruptAll_fst, Executor.mapStage_of_some rfl]
      rw [hstop]
      refine h.with_stage rfl rfl rfl ?_
      cases hid : stage.groupId? with
      | none =>
          obtain ⟨hnone, hcrash, -⟩ := fits.no_group hid
          refine Stage.fits_of_running_nil ((Stage.groupId?_interruptAll stage).trans hid) hnone ?_
            fun _ _ => .inr hs
          cases stage <;> simp_all [Stage.interruptAll]
      | some id =>
          exact fits.same hid ((Stage.groupId?_interruptAll stage).trans hid)
            fun _ => Stage.isDoomed_interruptAll hid

/-! ## Everything that can happen -/

/-- What happens besides scripts, clearing, resetting the count and stopping is a stride. -/
theorem after_cases (e : Environment) (happening : Happening) :
    (∃ script, happening = .add script) ∨ happening = .clear ∨ happening = .resetErrors ∨
      happening = .stop ∨ ∃ es, Clockwork.Stride e es (e.after happening) := by
  cases happening with
  | add script => exact .inl ⟨script, rfl⟩
  | clear => exact .inr (.inl rfl)
  | resetErrors => exact .inr (.inr (.inl rfl))
  | stop => exact .inr (.inr (.inr (.inl rfl)))
  | start => exact .inr (.inr (.inr (.inr ⟨_, Clockwork.stride_start⟩)))
  | work => exact .inr (.inr (.inr (.inr ⟨_, Clockwork.stride_work⟩)))
  | closeLate => exact .inr (.inr (.inr (.inr ⟨_, Clockwork.stride_closeLate⟩)))
  | poll position => exact .inr (.inr (.inr (.inr ⟨_, Clockwork.stride_poll position⟩)))
  | tick => exact .inr (.inr (.inr (.inr ⟨_, Clockwork.stride_tick⟩)))
  | setFocus active failing => exact .inr (.inr (.inr (.inr ⟨_, .refocus _⟩)))
  | setDevice device => exact .inr (.inr (.inr (.inr ⟨_, .rewire device⟩)))

/-- Whatever happens keeps the link. -/
theorem Linked.after {e : Environment} (h : e.Linked) (happening : Happening) :
    (e.after happening).Linked := by
  rcases after_cases e happening with ⟨script, rfl⟩ | rfl | rfl | rfl | ⟨es, stride⟩
  · simp only [Environment.after]
    rcases add_cases script e with ⟨fault, errors, heq⟩ | ⟨groups, open_, -, heq⟩
    · rw [heq]
      exact h.of_feed rfl rfl rfl rfl id h.stopped
    · rw [heq]
      exact h.accept open_ script groups
  · exact h.dropWork.of_feed rfl rfl rfl rfl id h.dropWork.stopped
  · exact h.of_feed rfl rfl rfl rfl id h.stopped
  · refine Linked.requestStop (h.dropWork.of_feed rfl rfl rfl rfl (fun _ => rfl) fun _ => rfl) rfl
  · exact h.stride stride

/-- Making room keeps an executor sound. -/
theorem sound_makeRoom {e : Environment} (h : e.executor.Sound) (groups : List Group) :
    (e.feed.makeRoom groups e.executor).1.Sound := by
  by_cases hrunning : e.feed.running = []
  · rw [Queue.makeRoom_of_nil hrunning]
    exact h
  · cases mode : e.feed.engine.mode with
    | replace =>
        rw [Queue.makeRoom_replace hrunning mode]
        exact (Clockwork.turn_interruptAll (s := e)).sound h
    | merge =>
        cases groups with
        | nil =>
            rw [Queue.makeRoom_merge_nil mode]
            exact h
        | cons first rest =>
            rw [Queue.makeRoom_merge hrunning mode]
            have interrupted := (Clockwork.turn_interruptConflicting (s := e) first).sound h
            exact (Clockwork.turn_layer (s := { e with
              executor := (e.executor.interruptConflicting first).1 }) first).sound interrupted

theorem sound_dropWork {e : Environment} (h : e.executor.Sound) :
    (e.feed.dropWork e.executor).2.Sound := by
  unfold Queue.dropWork
  split
  · exact h
  · exact (Clockwork.turn_interruptAll (s := e)).sound h

/-- Whatever happens keeps the executor sound. -/
theorem sound_after {e : Environment} (h : e.executor.Sound) (happening : Happening) :
    (e.after happening).executor.Sound := by
  rcases after_cases e happening with ⟨script, rfl⟩ | rfl | rfl | rfl | ⟨es, stride⟩
  · simp only [Environment.after]
    rcases add_cases script e with ⟨fault, errors, heq⟩ | ⟨groups, -, -, heq⟩
    · rw [heq]
      exact h
    · rw [heq]
      exact sound_makeRoom h groups
  · exact sound_dropWork h
  · exact h
  · exact (Clockwork.turn_requestStop (s := { e with
      executor := (e.feed.dropWork e.executor).2 })).sound (sound_dropWork h)
  · exact stride.sound h

/-- Whatever happens leaves the settings of the queue as they are. -/
theorem engine_after (e : Environment) (happening : Happening) :
    (e.after happening).feed.engine = e.feed.engine := by
  rcases after_cases e happening with ⟨script, rfl⟩ | rfl | rfl | rfl | ⟨es, stride⟩
  · simp only [Environment.after]
    rcases add_cases script e with ⟨fault, errors, heq⟩ | ⟨groups, -, -, heq⟩
    · rw [heq]
    · rw [heq]
      rfl
  · rfl
  · rfl
  · rfl
  · generalize e.after happening = e' at stride
    cases stride with
    | hand hw next =>
        rw [(Queue.feedNext_group next).2]
    | miss hw next => rw [Queue.feedNext_empty next]
    | crash hw next => exact absurd next (Queue.feedNext_ne_crash _ _ _)
    | @handIn b report => exact (Queue.complete_pending e.feed report).2.2.2
    | _ => rfl

theorem linked_new (engine : Engine) (target : Target) (device : Device) (focus : Focus) :
    (new engine target device focus).Linked where
  idle := fun _ => rfl
  busy := by simp [new]
  pending := by simp [new]
  stopped := fun _ => rfl
  calls := by simp [new]

/-- What everything that happens keeps holds after all of it. -/
theorem afterAll_induct {P : Environment → Prop} {e : Environment} (h : P e)
    (step : ∀ e happening, P e → P (e.after happening)) (happenings : List Happening) :
    P (e.afterAll happenings) := by
  induction happenings generalizing e with
  | nil => exact h
  | cons happening happenings ih => exact ih (step e happening h)

variable (engine : Engine) (target : Target) (device : Device) (focus : Focus)
  (happenings : List Happening)

/-- However an environment got where it is, its queue and its worker are linked. -/
theorem linked_afterAll : ((new engine target device focus).afterAll happenings).Linked :=
  afterAll_induct (linked_new engine target device focus) (fun _ happening h => h.after happening)
    happenings

/-- However an environment got where it is, its executor is sound. -/
theorem sound_afterAll : ((new engine target device focus).afterAll happenings).executor.Sound :=
  afterAll_induct (P := fun e => e.executor.Sound) (Clockwork.sound_idle (by simp [new]))
    (fun e happening h => sound_after h happening) happenings

/-- The settings of the queue stay what they were. -/
theorem engine_afterAll : ((new engine target device focus).afterAll happenings).feed.engine = engine :=
  afterAll_induct (P := fun e => e.feed.engine = engine) rfl
    (fun e happening h => (engine_after e happening).trans h) happenings

end Environment

end Combo
