-- SUMMARY: The status that a dry run ends with accounts for every line of the input.
import Combo.Cli.Session
import Combo.Proofs.Environment.Intake

/-!
# Dry runs

A dry run feeds the scripts of the input to an environment: a refused script is
counted, an accepted one puts its groups into the queue. The groups run
undisturbed, one after another. The looks at the queue last longer than the
groups, so it is drained before the environment is stopped, and its last status
tells what became of each line.

The standard schedule submits all lines before the worker takes its first turn.
The status is the same whenever they are submitted, whatever turns the worker, the
actions and the clock take, and however long the queue is left alone.
-/

namespace Combo

namespace Cli

open Environment (Feeds IsRefused Stands counting)

/-- The script of a line, unless the line is blank or a comment. -/
def scriptOf? (line : List Char) : Option String :=
  match Text.trim line with
  | [] => none
  | '#' :: _ => none
  | script => some (String.ofList script)

/-- The scripts of an input, line after line. -/
def scripts (input : String) : List String := (lines input.toList).filterMap scriptOf?

/-- Submits scripts one after another. -/
def addAll (e : Environment) (given : List String) : Environment :=
  given.foldl (fun e script => (Environment.add script e).2) e

variable {e : Environment} {engine : Engine} {script : String} {groups : List Group}

theorem submit_eq (e : Environment) (line : List Char) :
    submit e line = match scriptOf? line with
      | some script => (Environment.add script e).2
      | none => e := by
  unfold submit scriptOf?
  rcases Text.trim line with _ | ⟨c, rest⟩
  · rfl
  · by_cases hc : c = '#'
    · subst hc
      rfl
    · simp [hc]

/-- To submit the lines of an input is to add its scripts. -/
theorem foldl_submit (ls : List (List Char)) (e : Environment) :
    ls.foldl submit e = addAll e (ls.filterMap scriptOf?) := by
  induction ls generalizing e with
  | nil => rfl
  | cons line ls ih =>
      rw [List.foldl_cons, ih, submit_eq]
      cases hscript : scriptOf? line <;> simp [hscript, addAll]

/-- A script is trimmed already. -/
theorem trim_of_scriptOf? {line : List Char} (h : scriptOf? line = some script) :
    String.ofList (Text.trim script.toList) = script := by
  have heq : script = String.ofList (Text.trim line) := by
    unfold scriptOf? at h
    split at h
    · cases h
    · cases h
    · rw [← Option.some.inj h]
  rw [heq, String.toList_ofList, Text.trim_trim]

/-! ## Feeding -/

/-- Refused scripts are counted and change nothing else. -/
theorem addAll_refused {q : Queue} {given : List String} {k : Nat} (feed : e.feed = counting q k)
    (open_ : q.stopped = false) (refused : ∀ script ∈ given, IsRefused q.engine script) :
    addAll e given = { e with feed := counting q (k + given.length) } := by
  induction given generalizing e k with
  | nil => rw [addAll, List.foldl_nil, List.length_nil, Nat.add_zero, ← feed]
  | cons script given ih =>
      have step := Environment.add_of_refused feed open_ (refused script List.mem_cons_self)
      rw [addAll, List.foldl_cons, ← addAll, step,
        ih rfl fun x hx => refused x (List.mem_cons_of_mem _ hx), List.length_cons, Nat.add_right_comm,
        Nat.add_assoc]

/-- The environment in which a dry run begins. -/
def outset (c : Config) : Environment := (Environment.new c.engine c.target {} {}).start

@[simp] theorem outset_feed (c : Config) : (outset c).feed = { engine := c.engine } := rfl

/-! ## Draining -/

variable {base : Queue} {start : Nat} {ts : List Ticket} {j : List Event}

theorem isDrained_iff (e : Environment) : isDrained e = true ↔ e.IsDrained := by
  simp [isDrained, Environment.IsDrained]

/-- Looks that last beyond the end of the last group see the queue drained. -/
theorem drain_runs (h : Environment.Runs base start ts j e) (fit : Ticket.Fit base.engine.attackMs ts)
    (ready : e.IsReady) (fuel : Nat)
    (enough : Environment.finish base.engine.attackMs start ts < e.now + fuel * drainMs) :
    ∃ j', Environment.Runs base start ts j' (drain fuel e) ∧
      Environment.IsDrained (drain fuel e) := by
  induction fuel generalizing j e with
  | zero =>
      refine ⟨j, h, ?_⟩
      by_contra undrained
      have := h.now_le undrained
      omega
  | succ fuel ih =>
      rw [drain]
      split
      · rename_i drained
        exact ⟨j, h, (isDrained_iff e).1 drained⟩
      · obtain ⟨j', runs, settled, now⟩ := h.advance fit ready drainMs
        exact ih runs settled.isReady (by rw [now]; simp only [drainMs] at enough ⊢; omega)

/-- A group takes no longer than is allowed for it. -/
theorem millis_le_groupMs (c : Config) {g : Group} (proper : g.IsProper c.engine.attackMs) :
    g.millis c.engine.attackMs ≤ groupMs c g := by
  have le_sum (l : List Nat) : l.foldr max 0 ≤ l.foldr (· + ·) 0 := by
    induction l with
    | nil => exact Nat.le_refl 0
    | cons n l ih =>
        simp only [List.foldr_cons]
        omega
  have := le_sum (g.actions.map fun a => (a.plan c.engine.attackMs).millis c.engine.attackMs)
  rw [proper.millis_eq, groupMs]
  omega

/-- The looks at a queue last beyond the end of its groups. -/
theorem finish_lt_drainRounds (c : Config) (e : Environment)
    (proper : ∀ t ∈ e.feed.pending, t.group.IsProper c.engine.attackMs) :
    Environment.finish c.engine.attackMs 0 e.feed.pending < drainRounds c e * drainMs := by
  have longest : (e.feed.pending.map (·.group.millis c.engine.attackMs)).sum ≤
      (e.feed.pending.map fun t => groupMs c t.group).foldr (· + ·) 0 :=
    sum_map_le fun t ht => millis_le_groupMs c (proper t ht)
  simp only [Environment.finish, drainRounds, drainMs]
  omega

/-! ## The last status -/

/-- What is told of a queue that has worked off its groups. -/
def told (base : Queue) (ts : List Ticket) : Queue.Status where
  lastScript := base.lastScript
  finishedCount := ts.length
  finishedText := Script.format (Queue.latest base.engine.historyLimit (ts.map (·.group)))
  errorCount := base.errors

/-- The status of a queue that has worked off its groups. -/
theorem status_workedOff (now : Nat) (base : Queue) (ts : List Ticket) :
    Queue.status now { base.workedOff ts none [] with stopped := true } = told base ts := by
  have nothing : Duration.millisOfSeconds (totalEstimate [] + 0.0) = 0 := by decide +kernel
  have groups : (Queue.latest base.engine.historyLimit (ts.map Ticket.completed)).map (·.group) =
      Queue.latest base.engine.historyLimit (ts.map (·.group)) := by
    simp [Queue.latest, List.map_drop, Ticket.completed, Function.comp_def]
  simp only [Queue.status, Queue.workedOff, groups, Option.toList_none, List.map_nil, List.foldl_nil,
    nothing, List.length_nil]
  rfl

/-- The last status of a dry run that has fed a queue with groups. -/
theorem status_of_drained (c : Config) (settings : base.engine = c.engine)
    (fit : Ticket.Fit base.engine.attackMs ts) :
    let fed : Environment := { outset c with feed := base.workedOff [] none ts }
    (Environment.stop (drain (drainRounds c fed) fed)).status = told base ts := by
  intro fed
  have works : ∀ command, ({} : Device).respond command = .done := by
    intro command
    cases command <;> rfl
  have hw : fed.executor.worker = some ⟨false, .checking⟩ := rfl
  have runs : Environment.Runs base 0 ts [] fed :=
    Environment.runs_of_awake ⟨settings.symm, works, fun _ => rfl⟩ rfl rfl rfl (by simp) hw (.inl rfl)
  have enough : Environment.finish base.engine.attackMs 0 ts < fed.now + drainRounds c fed * drainMs := by
    have proper : ∀ t ∈ fed.feed.pending, t.group.IsProper c.engine.attackMs := by
      rw [← settings]
      exact fit.proper
    have now : fed.now = 0 := rfl
    rw [now, Nat.zero_add, settings]
    exact finish_lt_drainRounds c fed proper
  obtain ⟨j', runs, drained⟩ := drain_runs runs fit (.inr fun b t d => by simp [hw]) _ enough
  obtain ⟨feed, rests⟩ := Stands.rests (.inr ⟨0, runs⟩) drained
  rw [Environment.status, rests.stop drained.2, feed]
  exact status_workedOff _ base ts

/-- The status of groups that are done, after a stop and however long the worker takes to leave. -/
theorem status_of_rests {j : List Event} (h : Stands base ts j e) (drained : e.IsDrained) {moves : List Move}
    (calm : ∀ m ∈ moves, m.isCalm = true ∨ m = .abort) :
    Environment.status ((e.after .stop).play moves) = told base ts := by
  obtain ⟨feed, rests⟩ := h.rests drained
  obtain ⟨closed, rests'⟩ := rests.told drained.2
  rw [Environment.status, rests'.play calm, closed, feed]
  exact status_workedOff _ base ts

/-! ## Calls -/

/-- What is loaded sets limits that an engine can work with. -/
theorem fault?_of_load {file : Option ByteArray} {c : Config} (loaded : Config.load file = .ok c) :
    c.engine.fault? = none := by
  unfold Config.load Config.Format.load Config.Format.ofText at loaded
  grind

/-- So does what a call works with, loaded or not. -/
theorem fault?_configOf (s : Surroundings) (path : Option String) :
    (configOf s path).engine.fault? = none := by
  unfold configOf Config.loadOrDefault Config.Format.loadOrDefault
  split
  · rename_i c loaded
    exact fault?_of_load loaded
  · decide +kernel

theorem maxErrorCount_pos (h : engine.fault? = none) : 0 < engine.maxErrorCount := by
  unfold Engine.fault? at h
  split at h
  · cases h
  · split at h
    · cases h
    · omega

/-- A configuration in the mode that a call asks for. -/
def inMode (c : Config) (mode : Option Mode) : Config :=
  { c with engine := { c.engine with mode := mode.getD c.engine.mode } }

/-- How a dry run ends that prints nothing but its last status. -/
def printed (status : Queue.Status) : Result := ⟨0, Json.write status.datum ++ "\n"⟩

/-- A dry run whose scripts leave a queue with groups prints what the queue is like in the end. -/
theorem play_of_fed {c : Config} {input : String} (settings : base.engine = c.engine)
    (fit : Ticket.Fit base.engine.attackMs ts)
    (fed : addAll (outset c) (scripts input) = { outset c with feed := base.workedOff [] none ts }) :
    play c {} {} 0 input = printed (told base ts) := by
  rw [← status_of_drained c settings fit, ← fed]
  simp [play, foldl_submit, scripts, printed, outset, statusLine]

/-! ## Accounts -/

/-- What the last status tells of scripts at most one of which is accepted. -/
inductive Tells (engine : Engine) : List String → Queue.Status → Prop
  /-- All groups of the accepted script are finished and the latest are shown; the refused after it count. -/
  | one {before after : List String} {script : String} {groups : List Group}
      (accepted : Script.check engine.maxActionSeconds script = .ok groups)
      (refused : ∀ other ∈ before ++ after, IsRefused engine other) :
      Tells engine (before ++ script :: after)
        { lastScript := script
          finishedCount := groups.length
          finishedText := Script.format (Queue.latest engine.historyLimit groups)
          errorCount := after.length % engine.maxErrorCount }
  | none {given : List String} (refused : ∀ script ∈ given, IsRefused engine script) :
      Tells engine given { errorCount := given.length % engine.maxErrorCount }

section Accounts

variable {c : Config} {given before after : List String} {course : List Environment.Happening}

/-- The queue that an accepted script leaves. -/
def onceAccepted (engine : Engine) (script : String) (groups : List Group) : Queue where
  engine
  pending := Queue.number 0 groups
  lastScript := script
  nextId := groups.length

/-- An accepted script is shown as it stands in the input, and no refused script counts any more. -/
theorem accept_of_trimmed {engine : Engine} (trimmed : String.ofList (Text.trim script.toList) = script)
    (k now : Nat) :
    (counting { engine } k).accept now script groups false =
      counting (onceAccepted engine script groups) 0 := by
  simp [Queue.accept, counting, onceAccepted, trimmed]

/-- Refused scripts leave the queue of a dry run without groups. -/
theorem addAll_of_refused (refused : ∀ script ∈ given, IsRefused c.engine script) :
    addAll (outset c) given = { outset c with feed := counting { engine := c.engine } given.length } := by
  have feed : (outset c).feed = counting { engine := c.engine } 0 := by simp [counting]
  rw [addAll_refused feed rfl refused, Nat.zero_add]

/-- Among refused scripts, an accepted one leaves its groups, and those after it are counted. -/
theorem addAll_of_accepted (trimmed : String.ofList (Text.trim script.toList) = script)
    (accepted : Script.check c.engine.maxActionSeconds script = .ok groups)
    (refused : ∀ other ∈ before ++ after, IsRefused c.engine other) :
    addAll (outset c) (before ++ script :: after) =
      { outset c with feed := counting (onceAccepted c.engine script groups) after.length } := by
  have first := addAll_of_refused fun other h => refused other (List.mem_append_left _ h)
  have taken : (Environment.add script (addAll (outset c) before)).2 =
      { outset c with feed := counting (onceAccepted c.engine script groups) 0 } := by
    have opened : (addAll (outset c) before).feed.stopped = false := by rw [first]; rfl
    have idle : (addAll (outset c) before).feed.running = [] := by rw [first]; rfl
    have checked : Script.check (addAll (outset c) before).feed.engine.maxActionSeconds script = .ok groups := by
      rw [first]
      exact accepted
    rw [Environment.add_of_idle opened idle checked, first, ← accept_of_trimmed trimmed]
  have rest := addAll_refused (e := { outset c with feed := counting (onceAccepted c.engine script groups) 0 })
    rfl rfl fun other h => refused other (List.mem_append_right before h)
  rw [addAll, List.foldl_append, List.foldl_cons, ← addAll, ← addAll, taken, rest, Nat.zero_add]

/-- Whenever refused scripts come, the queue is left without groups. -/
theorem stands_of_refused (refused : ∀ script ∈ given, IsRefused c.engine script)
    (feeds : Feeds given course) :
    (∃ j, Stands (counting { engine := c.engine } given.length) [] j ((outset c).afterAll course)) ∧
      ((outset c).afterAll course).Attended := by
  have works : ∀ command, ({} : Device).respond command = .done := by
    intro command
    cases command <;> rfl
  have fresh : Stands (counting { engine := c.engine } 0) [] [] (outset c) :=
    Environment.stands_of_idle ⟨rfl, works, fun _ => rfl⟩
      (by simp [counting, Queue.workedOff, Queue.latest]) (.inr ⟨_, rfl, .inl rfl⟩)
  have attended : (outset c).Attended := ⟨_, rfl⟩
  simpa using fresh.afterAll attended ⟨List.nodup_nil, by simp⟩ rfl feeds refused

/-- Whenever an accepted script comes among refused ones, its groups stand in the queue. -/
theorem stands_of_accepted (trimmed : String.ofList (Text.trim script.toList) = script)
    (accepted : Script.check c.engine.maxActionSeconds script = .ok groups)
    (refused : ∀ other ∈ before ++ after, IsRefused c.engine other)
    (feeds : Feeds (before ++ script :: after) course) :
    (∃ j, Stands (counting (onceAccepted c.engine script groups) after.length) (Queue.number 0 groups) j
        ((outset c).afterAll course)) ∧
      ((outset c).afterAll course).Attended := by
  obtain ⟨first, rest, rfl, hfirst, hrest⟩ := feeds.split
  obtain ⟨⟨j, idle⟩, attended⟩ :=
    stands_of_refused (fun other h => refused other (List.mem_append_left _ h)) hfirst
  have open_ : (counting { engine := c.engine } before.length).stopped = false := rfl
  obtain ⟨-, executor, stands⟩ := idle.add open_ accepted
  rw [accept_of_trimmed trimmed] at stands
  have first_id : (counting { engine := c.engine } before.length).nextId = 0 := rfl
  rw [first_id] at stands
  have next := Stands.afterAll stands (by rwa [Environment.Attended, executor])
    (Environment.fit_of_check accepted _ 0) rfl hrest
    fun other h => refused other (List.mem_append_right before h)
  simpa [Environment.afterAll, Environment.after] using next

end Accounts

/-- Whenever scripts are submitted, the groups of the accepted one stand in the queue. -/
theorem exists_stands {c : Config} {given : List String} {status : Queue.Status}
    (tells : Tells c.engine given status) (limited : 0 < c.engine.maxErrorCount)
    (trimmed : ∀ script ∈ given, String.ofList (Text.trim script.toList) = script) :
    ∃ base ts, base.engine = c.engine ∧ Ticket.Fit base.engine.attackMs ts ∧ told base ts = status ∧
      addAll (outset c) given = { outset c with feed := base.workedOff [] none ts } ∧
      ∀ course, Feeds given course →
        (∃ j, Stands base ts j ((outset c).afterAll course)) ∧ ((outset c).afterAll course).Attended := by
  have limit : Queue.strikeLimit c.engine = c.engine.maxErrorCount := Nat.max_eq_right limited
  cases tells with
  | @one before after script groups accepted refused =>
      have trimmed := trimmed script (by simp)
      refine ⟨counting (onceAccepted c.engine script groups) after.length, Queue.number 0 groups, rfl,
        Environment.fit_of_check accepted _ 0, ?_, ?_,
        fun course feeds => stands_of_accepted trimmed accepted refused feeds⟩
      · have count : (Queue.number 0 groups).length = groups.length := List.length_mapIdx
        rw [told, Queue.number_groups, count]
        simp only [counting, onceAccepted, limit]
      · rw [addAll_of_accepted trimmed accepted refused]
        simp [Queue.workedOff, Queue.latest, counting, onceAccepted]
  | none refused =>
      refine ⟨counting { engine := c.engine } given.length, [], rfl, ⟨List.nodup_nil, by simp⟩, ?_, ?_,
        fun course feeds => stands_of_refused refused feeds⟩
      · simp [told, counting, limit, Queue.latest, Script.format]
      · rw [addAll_of_refused refused]
        simp [Queue.workedOff, Queue.latest, counting]

/--
A dry run that prints no status on its way succeeds and prints one in the end, and when at most one
script of the input is accepted, that status accounts for all lines: for the script that is accepted,
as it stands in the input, all of its groups are finished and the latest of them are shown; and the
refused scripts after it are counted up to the limit, or all of them when none is accepted.

This does not depend on when the lines come. Whatever turns the worker, the actions and the clock take
before, between and after them, further turns drain the queue, and once it is drained the status after
the stop is the same.
-/
theorem dry_run_accounts (s : Surroundings) {arguments : List String} {path log : Option String}
    {mode : Option Mode}
    (order : Invocation.ofArguments arguments = .ok ⟨path, log, .run true 0 mode⟩) :
    let c := inMode (configOf s path) mode
    ∀ status, Tells c.engine (scripts s.input) status →
      call s arguments = printed status ∧
      ∀ course, Feeds (scripts s.input) course →
        let e := (outset c).afterAll course
        (∃ turns, Feeds [] turns ∧ isDrained (e.afterAll turns) = true) ∧
        (isDrained e = true → ∀ moves, (∀ m ∈ moves, m.isCalm = true ∨ m = .abort) →
          Environment.status ((e.after .stop).play moves) = status) := by
  intro c status tells
  have limited : 0 < c.engine.maxErrorCount := maxErrorCount_pos (fault?_configOf s path)
  have hcall : call s arguments = play c {} {} 0 s.input := by
    simp only [call, order, run]
    rfl
  have trimmed : ∀ script ∈ scripts s.input, String.ofList (Text.trim script.toList) = script := by
    intro script hscript
    obtain ⟨line, -, written⟩ := List.mem_filterMap.1 hscript
    exact trim_of_scriptOf? written
  obtain ⟨base, ts, settings, fit, rfl, fed, stands⟩ := exists_stands tells limited trimmed
  refine ⟨hcall.trans (play_of_fed settings fit fed), fun course feeds => ?_⟩
  obtain ⟨⟨j, stands⟩, attended⟩ := stands course feeds
  refine ⟨?_, fun drained moves calm => status_of_rests stands ((isDrained_iff _).1 drained) calm⟩
  obtain ⟨moves, calm, -, drained⟩ := stands.exists_drained fit
  obtain ⟨turns, feeds, heq⟩ := attended.exists_turns calm
  exact ⟨turns, feeds, (isDrained_iff _).2 (heq ▸ drained)⟩

/-- The worker sleeps between the first two lines, and the third comes while the walk is under way. -/
def linesBetween : List Environment.Happening :=
  [.add "oops", .work, .work] ++ List.replicate 50 .tick ++
    [.work, .add "W(0.10),e", .work, .work, .work, .work, .poll 0, .add "w("] ++
    List.replicate 100 .tick ++ [.poll 0] ++ List.replicate 9 .work ++ [.poll 0] ++
    List.replicate 4 .work

/-- Between two refused lines and a comment, a walk and a skill are finished; one refusal is left. -/
theorem dry_run_accounts_oneAccepted :
    let s : Surroundings := { file := fun _ => none, input := "oops\n# note\n W(0.10),e \n\nw(\n" }
    let groups : List Group := [.of [.make .moveForward (some "0.10")], .of [.make .skill none]]
    let status : Queue.Status :=
      { lastScript := "W(0.10),e", finishedCount := 2, finishedText := "w(0.10),e", errorCount := 1 }
    let e := (outset (inMode (configOf s none) none)).afterAll linesBetween
    (Invocation.ofArguments ["run", "--dry-run"] = .ok ⟨none, none, .run true 0 none⟩ ∧
      scripts s.input = ["oops"] ++ "W(0.10),e" :: ["w("] ∧
      Script.check 10.0 "W(0.10),e" = .ok groups ∧
      Tells (inMode (configOf s none) none).engine (scripts s.input) status ∧
      Feeds (scripts s.input) linesBetween ∧ isDrained e = true) ∧
    call s ["run", "--dry-run"] = printed status ∧
    Environment.status ((e.after .stop).play [.work]) = status := by
  intro s groups status e
  have order :
      Invocation.ofArguments ["run", "--dry-run"] = .ok ⟨none, none, .run true 0 none⟩ := by rfl
  have given : scripts s.input = ["oops"] ++ "W(0.10),e" :: ["w("] := by decide +kernel
  have accepted : Script.check 10.0 "W(0.10),e" = .ok groups := by rfl
  have refused : ∀ other ∈ ["oops"] ++ ["w("], IsRefused (inMode (configOf s none) none).engine other := by
    intro other h
    simp at h
    rcases h with rfl | rfl
    · exact ⟨_, rfl⟩
    · exact ⟨_, rfl⟩
  have tells : Tells (inMode (configOf s none) none).engine (scripts s.input) status := by
    have written : Script.format (Queue.latest 5 groups) = "w(0.10),e" := by decide +kernel
    rw [given]
    change Tells _ _ { status with finishedText := "w(0.10),e" }
    rw [← written]
    exact .one accepted refused
  have feeds : Feeds (scripts s.input) linesBetween := ⟨by rw [given]; rfl, by decide +kernel⟩
  have drained : isDrained e = true := by decide +kernel
  obtain ⟨ends, always⟩ := dry_run_accounts s order status tells
  have told := (always _ feeds).2 drained [.work] (by simp [Move.isCalm])
  exact ⟨⟨order, given, accepted, tells, feeds, drained⟩, ends, told⟩

end Cli

end Combo
