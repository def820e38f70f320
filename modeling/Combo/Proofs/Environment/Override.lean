-- SUMMARY: In replace mode an accepted script takes over completely, and no interrupt reaches its groups.
import Combo.Proofs.Environment.Link

/-!
# Replacing

In replace mode a script that is taken in takes over. From then on, until another
script is taken in or work is dropped, only its groups are pending and handed
out, and only its actions push, press or move anything. What was handed out
before may still let up the inputs it holds.

The interrupt that comes with the script falls upon the group the worker is at,
and on nothing else: a group of the script is never touched by it, nor by any
interrupt before it. `Overrides` is the invariant: the worker is at a group that
is older and doomed, or at an untouched group of the script.
-/

namespace Combo

/-- Whether no interrupt has reached an entry. -/
def Entry.IsUntouched (e : Entry) : Prop := e.cancelled = false ∧ e.progress ≠ .ended .cancelled

/-- Whether the group of a stage is one of these, with just its own actions, and no interrupt reached it. -/
def Stage.IsUntouched (own : List Ticket) : Stage → Prop
  | .taken t d => t ∈ own ∧ d = {}
  | .running _ run =>
    (∃ t ∈ own, run.id = t.id ∧ run.actions = t.group.actions) ∧ run.cancelled = false ∧
      ∀ e ∈ run.entries, e.IsUntouched
  | .reporting report _ =>
    report.interrupted = false ∧ ∀ o ∈ report.outcomes, o.ending ≠ .cancelled
  | .checking | .asking _ | .sleeping _ | .crashed => True

/-! ## Untouched runs -/

namespace Entry

theorem IsUntouched.release {e : Entry} (h : e.IsUntouched) : e.release.IsUntouched := by
  refine ⟨(release_cancelled e).trans h.1, ?_⟩
  unfold Entry.release
  split
  · simp
  · exact h.2

theorem IsUntouched.fail {e : Entry} (h : e.IsUntouched) (message : String) :
    (e.fail message).IsUntouched := by
  refine ⟨(fail_cancelled message e).trans h.1, ?_⟩
  unfold Entry.fail
  split
  · exact h.2
  · simp

/-- An untouched entry is not reported as cancelled. -/
theorem IsUntouched.ending {e : Entry} (h : e.IsUntouched) : e.ending ≠ .cancelled := by
  unfold Entry.ending
  split
  · rename_i ending hprogress
    rintro rfl
    exact h.2 hprogress
  · simp

end Entry

namespace Run

/-- With no interrupt deferred to it, a group is dispatched untouched. -/
theorem isUntouched_dispatch (requireFocus : Bool) (t : Ticket) :
    ∀ e ∈ (dispatch requireFocus {} t).entries, e.IsUntouched := by
  intro e he
  have fresh := (dispatch_spec requireFocus {} t).2 e he
  rw [Entry.IsDispatched, if_neg (by simp [Deferred.hits, Kind.interrupted])] at fresh
  exact ⟨fresh.1, by simp [fresh.2]⟩

theorem isUntouched_receive {r : Run} (h : ∀ e ∈ r.entries, e.IsUntouched) :
    ∀ e ∈ r.receive.entries, e.IsUntouched := by
  rcases receive_cases r with heq | ⟨i, heq⟩
  · rw [heq]
    exact h
  · intro e he
    rw [heq] at he
    obtain ⟨k, hk⟩ := List.mem_iff_getElem?.1 he
    rw [List.getElem?_modify] at hk
    split at hk
    · obtain ⟨e', he', rfl⟩ := Option.map_eq_some_iff.1 hk
      exact (h e' (List.mem_of_getElem? he')).release
    · obtain ⟨e', he', rfl⟩ := Option.map_eq_some_iff.1 hk
      exact h e' (List.mem_of_getElem? he')

theorem isUntouched_map {r : Run} (h : ∀ e ∈ r.entries, e.IsUntouched) {f : Entry → Entry}
    (hf : ∀ e : Entry, e.IsUntouched → (f e).IsUntouched) :
    ∀ e ∈ r.entries.map f, e.IsUntouched := by
  intro e he
  obtain ⟨e', he', rfl⟩ := List.mem_map.1 he
  exact hf e' (h e' he')

/-- The report of an untouched run shows no interruption. -/
theorem report_of_isUntouched {r : Run} (hc : r.cancelled = false)
    (h : ∀ e ∈ r.entries, e.IsUntouched) :
    r.report.interrupted = false ∧ ∀ o ∈ r.report.outcomes, o.ending ≠ .cancelled := by
  have outcomes : ∀ o ∈ r.report.outcomes, o.ending ≠ .cancelled := by
    intro o ho
    obtain ⟨e, he, rfl⟩ := List.mem_map.1 ho
    exact (h e he).ending
  refine ⟨?_, outcomes⟩
  simp only [report, hc, Bool.false_or, List.any_eq_false, beq_iff_eq]
  exact outcomes

end Run

namespace Environment

/-- Whether the script with these groups has taken over since these commands had been sent. -/
structure Overrides (first : Nat) (own : List Ticket) (sent : List Call) (e : Environment) :
    Prop where
  pending : e.feed.pending <:+ own
  worker : ∀ b stage id, e.executor.worker = some ⟨b, stage⟩ → stage.groupId? = some id →
    (id < first ∧ stage.isDoomed = true) ∨ stage.IsUntouched own
  calls : ∃ calls, e.executor.calls = sent ++ calls ∧ ∀ c ∈ calls, c.command.acts = true →
    ∃ t ∈ own, c.group = t.id ∧ c.position < t.group.actions.length

variable {first : Nat} {own : List Ticket} {sent : List Call} {e e' : Environment}
  {es : List Event} {b b' : Bool} {stage stage' : Stage}

/-- A worker that is at no group cannot be at a wrong one. -/
theorem Overrides.with_idle (h : Overrides first own sent e)
    (hpending : e'.feed.pending = e.feed.pending) (hcalls : e'.executor.calls = e.executor.calls)
    (hw' : ∀ b stage, e'.executor.worker = some ⟨b, stage⟩ → stage.groupId? = none) :
    Overrides first own sent e' where
  pending := by
    rw [hpending]
    exact h.pending
  worker := by
    intro b stage id hw hid
    rw [hw' b stage hw] at hid
    cases hid
  calls := by
    rw [hcalls]
    exact h.calls

/-- A step at one group that neither saves a doomed one nor touches an untouched one. -/
theorem Overrides.with_group (h : Overrides first own sent e)
    (hw : e.executor.worker = some ⟨b, stage⟩) (hfeed : e'.feed = e.feed)
    (hcalls : e'.executor.calls = e.executor.calls)
    (hw' : e'.executor.worker = some ⟨b', stage'⟩) {id : Nat} (hid : stage.groupId? = some id)
    (hid' : stage'.groupId? = some id) (doomed : stage.isDoomed = true → stage'.isDoomed = true)
    (untouched : stage.IsUntouched own → stage'.IsUntouched own) : Overrides first own sent e' where
  pending := by
    rw [hfeed]
    exact h.pending
  worker := by
    intro b'' stage'' id'' hw'' hid''
    rw [hw'] at hw''
    cases hw''
    rw [hid'] at hid''
    cases hid''
    exact (h.worker b stage id hw hid).imp (fun hold => ⟨hold.1, doomed hold.2⟩) untouched
  calls := by
    rw [hcalls]
    exact h.calls

/-- A poll sends nothing but releases for a doomed group, and commands of the script for its own. -/
theorem Overrides.poll (h : Overrides first own sent e) (sound : e.executor.Sound)
    {accepting : Bool} {run : Run} {position : Nat} {entry : Entry} {progress : Progress}
    {exchange : Option Exchange}
    (hw : e.executor.worker = some ⟨b, .running (.joining accepting) run⟩)
    (hentry : run.entries[position]? = some entry)
    (hpoll : entry.progress.poll e.executor.device e.executor.engine.attackMs e.now entry.action
      entry.cancelled = (progress, exchange))
    (hfeed : e'.feed = e.feed)
    (hcalls : e'.executor.calls =
      e.executor.calls ++ Exchange.calls e.now run.id position exchange)
    (hw' : e'.executor.worker = some ⟨b, .running (.joining accepting)
      { run with entries := run.entries.set position { entry with progress } }⟩) :
    Overrides first own sent e' := by
  obtain ⟨calls, heq, hcalls_own⟩ := h.calls
  have hmem := List.mem_of_getElem? hentry
  refine ⟨by rw [hfeed]; exact h.pending, ?_, calls ++ Exchange.calls e.now run.id position exchange,
    by rw [hcalls, heq, List.append_assoc], ?_⟩
  · intro b'' stage'' group hw'' hid
    rw [hw'] at hw''
    cases hw''
    refine (h.worker _ _ group hw hid).imp id ?_
    rintro ⟨⟨t, ht, hid, hactions⟩, hc, hall⟩
    refine ⟨⟨t, ht, hid, (Run.set_actions hentry { entry with progress } rfl).trans hactions⟩, hc, ?_⟩
    intro e' he'
    rcases List.mem_or_eq_of_mem_set he' with he' | rfl
    · exact hall e' he'
    · obtain ⟨hec, hep⟩ := hall entry hmem
      rw [hec] at hpoll
      exact ⟨hec, Progress.poll_ne_cancelled hep hpoll⟩
  · intro c hc acts
    rcases List.mem_append.1 hc with hc | hc
    · exact hcalls_own c hc acts
    · rcases exchange with _ | ⟨command, response⟩
      · cases hc
      · rw [List.mem_singleton.1 hc] at acts ⊢
        rcases h.worker _ _ run.id hw rfl with ⟨-, doomed⟩ | ⟨⟨t, ht, hid, hactions⟩, -, -⟩
        · rw [(sound _ _ _ hw).2.1 doomed entry hmem] at hpoll
          have := Progress.acts_of_poll_cancelled hpoll
          rw [this] at acts
          cases acts
        · refine ⟨t, ht, hid, ?_⟩
          rw [← hactions]
          exact Run.lt_actions_length hentry

/-- What happens without a call from outside leaves the script in command. -/
theorem Overrides.stride (h : Overrides first own sent e) (linked : e.Linked)
    (sound : e.executor.Sound) (stride : Clockwork.Stride e es e') :
    Overrides first own sent e' := by
  cases stride with
  | rest | tick | refocus | rewire => exact ⟨h.pending, h.worker, h.calls⟩
  | start hw | leave hw top | begin hw top => exact h.with_idle rfl rfl (by simp [Stage.groupId?])
  | @hand b d t feed hw next =>
      obtain ⟨hpending, heq⟩ := Queue.feedNext_group next
      rw [heq]
      have hsuffix : t :: feed.pending <:+ own := hpending ▸ h.pending
      refine ⟨(List.suffix_cons t feed.pending).trans hsuffix, ?_, h.calls⟩
      rintro b' stage' id ⟨⟩ -
      refine .inr ⟨hsuffix.subset List.mem_cons_self, ?_⟩
      -- nothing is deferred, or the queue would have nothing to hand out
      refine (((linked.busy _ _ hw).no_group rfl).2.2 d rfl).resolve_right fun hstopped => ?_
      rw [linked.stopped hstopped] at hpending
      cases hpending
  | miss hw next =>
      rw [Queue.feedNext_empty next]
      exact h.with_idle rfl rfl (by simp [Stage.groupId?])
  | crash hw next => exact absurd next (Queue.feedNext_ne_crash _ _ _)
  | @dispatch b t d run hw hrun =>
      subst hrun
      refine h.with_group hw rfl rfl rfl rfl rfl id ?_
      rintro ⟨ht, rfl⟩
      exact ⟨⟨t, ht, rfl, (Run.dispatch_spec _ _ _).1⟩, rfl, Run.isUntouched_dispatch _ _⟩
  | focused hw | activated hw | settled hw | closeEmpty hw | joined hw =>
      exact h.with_group hw rfl rfl rfl rfl rfl id id
  | unfocused hw =>
      refine h.with_group hw rfl rfl rfl rfl rfl id ?_
      rintro ⟨⟨t, ht, hid, hactions⟩, hc, hall⟩
      exact ⟨⟨t, ht, hid, by simpa using hactions⟩, hc,
        Run.isUntouched_map hall fun _ he => he.fail _⟩
  | opened hw | closeLate hw =>
      refine h.with_group hw rfl rfl rfl rfl rfl id ?_
      rintro ⟨⟨t, ht, hid, hactions⟩, hc, hall⟩
      exact ⟨⟨t, ht, hid, by simpa using hactions⟩, hc,
        Run.isUntouched_map hall fun _ he => he.release⟩
  | @receive b run hw =>
      refine h.with_group hw rfl rfl rfl rfl (congrArg some run.receive_id)
        run.receive_cancelled.trans ?_
      rintro ⟨⟨t, ht, hid, hactions⟩, hc, hall⟩
      exact ⟨⟨t, ht, by simpa using hid, by simpa using hactions⟩, by simpa using hc,
        Run.isUntouched_receive hall⟩
  | finish hw =>
      refine h.with_group hw rfl rfl rfl rfl rfl (fun _ => rfl) ?_
      rintro ⟨-, hc, hall⟩
      exact Run.report_of_isUntouched hc hall
  | @handIn b report faulty stage hw hstage =>
      refine h.with_idle (Queue.complete_pending e.feed report).1 rfl ?_
      rintro b' stage' ⟨⟩
      cases faulty <;> rw [hstage] <;> rfl
  | poll hw hentry ready hpoll => exact h.poll sound hw hentry hpoll rfl rfl rfl

/-! ## Taking over -/

/-- A script that is taken in in replace mode takes over. -/
theorem Linked.overrides (linked : e.Linked) (replace : e.feed.engine.mode = .replace)
    (script : String) (groups : List Group) :
    Overrides e.feed.nextId (Queue.number e.feed.nextId groups) e.executor.calls { e with
      feed := e.feed.accept e.now script groups (e.feed.makeRoom groups e.executor).2
      executor := (e.feed.makeRoom groups e.executor).1 } := by
  by_cases hrunning : e.feed.running = []
  · rw [Queue.makeRoom_of_nil hrunning]
    refine ⟨List.suffix_rfl, fun b stage id hw hid => .inl ?_, [], by simp, by simp⟩
    exact ⟨((linked.busy _ _ hw).group hid).1, linked.isDoomed hrunning hw hid⟩
  · rw [Queue.makeRoom_replace hrunning replace]
    obtain ⟨b, stage, o, hw, -, hid, hlt⟩ := linked.exists_worker hrunning
    rw [Executor.interruptAll_fst, Executor.mapStage_of_some hw]
    refine ⟨List.suffix_rfl, ?_, [], by simp, by simp⟩
    rintro b' stage' id ⟨⟩ hid'
    have hsame := ((Stage.groupId?_interruptAll stage).trans hid).symm.trans hid'
    cases hsame
    exact .inl ⟨hlt, Stage.isDoomed_interruptAll hid⟩

/-- Whether a script is taken in, or work is dropped. -/
def isDisturbed (e : Environment) : Happening → Bool
  | .add script => (e.add script).1.isOk
  | .clear | .stop => true
  | .resetErrors | .start | .work | .closeLate | .poll _ | .tick | .setFocus _ _ | .setDevice _ =>
    false

/-- Whether all that happens takes in no script and drops no work. -/
def isUndisturbed (e : Environment) : List Happening → Bool
  | [] => true
  | happening :: rest => !e.isDisturbed happening && (e.after happening).isUndisturbed rest

theorem Overrides.after (h : Overrides first own sent e) (linked : e.Linked)
    (sound : e.executor.Sound) {happening : Happening} (quiet : e.isDisturbed happening = false) :
    Overrides first own sent (e.after happening) := by
  rcases after_cases e happening with ⟨script, rfl⟩ | rfl | rfl | rfl | ⟨es, stride⟩
  · simp only [Environment.after]
    rcases add_cases script e with ⟨fault, errors, heq⟩ | ⟨groups, -, -, heq⟩
    · rw [heq]
      exact ⟨h.pending, h.worker, h.calls⟩
    · rw [isDisturbed, heq] at quiet
      cases quiet
  · cases quiet
  · exact ⟨h.pending, h.worker, h.calls⟩
  · cases quiet
  · exact h.stride linked sound stride

/-- Until it is disturbed, the script stays in command. -/
theorem Overrides.afterAll (h : Overrides first own sent e) (linked : e.Linked)
    (sound : e.executor.Sound) {happenings : List Happening}
    (quiet : e.isUndisturbed happenings = true) :
    Overrides first own sent (e.afterAll happenings) := by
  induction happenings generalizing e with
  | nil => exact h
  | cons happening happenings ih =>
      simp only [isUndisturbed, Bool.and_eq_true, Bool.not_eq_true'] at quiet
      exact ih (h.after linked sound quiet.1) (linked.after happening) (sound_after sound happening)
        quiet.2

/--
In replace mode a script that is taken in, whenever that is, overrides all others until another
one is taken in or work is dropped: only its groups are pending and handed out, and whatever is
pushed, pressed or moved is so for an action of it. The numbers of its groups are new, and no
group of it is reached by any interrupt.
-/
theorem replace_overrides (engine : Engine) (target : Target) (device : Device) (focus : Focus)
    (replace : engine.mode = .replace) (earlier : List Happening) (script : String)
    (accepted : (((new engine target device focus).afterAll earlier).add script).1.isOk = true)
    (later : List Happening)
    (quiet : (((new engine target device focus).afterAll earlier).add script).2.isUndisturbed later =
      true) :
    let e := (new engine target device focus).afterAll earlier
    let e' := (e.add script).2.afterAll later
    ∃ groups, Script.check engine.maxActionSeconds script = .ok groups ∧
      let own := Queue.number e.feed.nextId groups
      e'.feed.pending <:+ own ∧
      (∀ t feed, Feed.next e'.now e'.feed = (.group t, feed) → t ∈ own) ∧
      (∃ calls, e'.executor.calls = e.executor.calls ++ calls ∧
        ∀ c ∈ calls, c.command.acts = true →
          ∃ t ∈ own, c.group = t.id ∧ c.position < t.group.actions.length) ∧
      (∀ t ∈ own, ∀ c ∈ e.executor.calls, c.group ≠ t.id) ∧
      (∀ b stage, e'.executor.worker = some ⟨b, stage⟩ →
        ∀ t ∈ own, stage.groupId? = some t.id → stage.IsUntouched own) := by
  intro e e'
  have linked : e.Linked := linked_afterAll engine target device focus earlier
  have sound : e.executor.Sound := sound_afterAll engine target device focus earlier
  have hengine : e.feed.engine = engine := engine_afterAll engine target device focus earlier
  rcases add_cases script e with ⟨fault, errors, heq⟩ | ⟨groups, open_, hcheck, heq⟩
  · have refused : (e.add script).1 = .error fault := congrArg Prod.fst heq
    rw [show (((new engine target device focus).afterAll earlier).add script).1 = _ from refused]
      at accepted
    cases accepted
  · have hadded : (e.add script).2 = _ := congrArg Prod.snd heq
    have overrides : Overrides e.feed.nextId (Queue.number e.feed.nextId groups) e.executor.calls
        e' := by
      refine Overrides.afterAll ?_ ?_ ?_ quiet
      · rw [hadded]
        exact linked.overrides (hengine ▸ replace) script groups
      · rw [hadded]
        exact linked.accept open_ script groups
      · rw [hadded]
        exact sound_makeRoom sound groups
    refine ⟨groups, hengine ▸ hcheck, overrides.pending, ?_, overrides.calls, ?_, ?_⟩
    · intro t feed next
      have hpending := (Queue.feedNext_group next).1
      exact overrides.pending.subset (hpending ▸ List.mem_cons_self)
    · intro t ht c hc hsame
      exact Nat.not_lt.2 (Queue.mem_number ht).1 (hsame ▸ linked.calls c hc)
    · intro b stage hw t ht hid
      refine (overrides.worker b stage t.id hw hid).resolve_left fun hold => ?_
      exact Nat.not_lt.2 (Queue.mem_number ht).1 hold.1

/-- The worker walks forward for a while. -/
def walk : List Happening :=
  [.start, .add "w(5)", .work, .work, .work, .work, .work, .poll 0]

/-- The walk is let up and reported, and the next group comes to its first action. -/
def burstInstead : List Happening :=
  [.poll 0, .work, .work, .work, .work, .work, .work, .work, .work, .work, .poll 0]

/-- A script that replaces the walk has its input pressed, after that of the walk is let up. -/
theorem replace_overrides_walk :
    let e := (new {} {} {} {}).afterAll walk
    let e' := (e.add "q").2.afterAll burstInstead
    e'.executor.calls.map (·.command) = [.down .forward, .up .forward, .press .burst] ∧
      ∃ groups, Script.check 10.0 "q" = .ok groups ∧
        e'.feed.pending <:+ Queue.number e.feed.nextId groups := by
  have accepted : (((new {} {} {} {}).afterAll walk).add "q").1.isOk = true := by decide +kernel
  have quiet : (((new {} {} {} {}).afterAll walk).add "q").2.isUndisturbed burstInstead = true := by
    decide +kernel
  obtain ⟨groups, hcheck, hpending, -⟩ :=
    replace_overrides {} {} {} {} rfl walk "q" accepted burstInstead quiet
  exact ⟨by decide +kernel, groups, hcheck, hpending⟩

end Environment

end Combo
