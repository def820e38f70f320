-- SUMMARY: Scripts that are submitted between any turns of the worker leave the queue as if they had come before all turns.
import Combo.Proofs.Environment.Drain
import Combo.Proofs.Queue.Breaker

/-!
# Scripts among turns

Scripts may come in between any two turns of the worker, the actions and the clock.
A refused script only counts, so groups that wait or are on time stay so; an
accepted one that finds no group before it puts its groups there. Whatever the
turns were, further turns drain the queue, and a drained queue stays as it is while
the worker is stopped.
-/

namespace Combo

namespace Environment

/-- The script that is submitted, if this is what happens. -/
def Happening.script? : Happening → Option String
  | .add script => some script
  | .clear | .resetErrors | .stop | .start | .work | .closeLate | .poll _ | .tick | .setFocus _ _
  | .setDevice _ => none

/-- The turn that the worker, an action or the clock takes, if this is what happens. -/
def Happening.turn? : Happening → Option Move
  | .work => some .work
  | .closeLate => some .closeLate
  | .poll position => some (.poll position)
  | .tick => some .tick
  | .add _ | .clear | .resetErrors | .stop | .start | .setFocus _ _ | .setDevice _ => none

/-- Whether these scripts are submitted, in their order, among turns and nothing else. -/
structure Feeds (given : List String) (happenings : List Happening) : Prop where
  given : happenings.filterMap Happening.script? = given
  turns : ∀ happening ∈ happenings, happening.script? = none → happening.turn?.isSome = true

variable {base : Queue} {ts : List Ticket} {j : List Event} {e e' : Environment} {es : List Event}
  {happening : Happening} {happenings : List Happening} {m : Move} {moves : List Move}
  {given before after : List String} {script : String}

theorem feeds_nil : Feeds [] [] := ⟨rfl, by simp⟩

/-- Happenings that submit a script are those before it, its submission, and those after it. -/
theorem Feeds.split (h : Feeds (before ++ script :: after) happenings) :
    ∃ first rest, happenings = first ++ .add script :: rest ∧ Feeds before first ∧ Feeds after rest := by
  obtain ⟨first, rest', rfl, hfirst, hrest'⟩ := List.filterMap_eq_append_iff.1 h.given
  obtain ⟨idle, submission, rest, rfl, silent, submits, hrest⟩ := List.filterMap_eq_cons_iff.1 hrest'
  obtain rfl : submission = .add script := by
    cases submission <;> cases submits
    rfl
  refine ⟨first ++ idle, rest, by simp, ⟨?_, fun x hx => h.turns x ?_⟩, hrest, fun x hx => h.turns x ?_⟩
  · rw [List.filterMap_append, hfirst, List.filterMap_eq_nil_iff.2 silent, List.append_nil]
  · rcases List.mem_append.1 hx with hx | hx <;> simp [hx]
  · simp [hx]

/-! ## Turns -/

/-- A turn is a calm move. -/
theorem after_of_turn (h : happening.turn? = some m) : e.after happening = e.move m ∧ m.isCalm = true := by
  cases happening <;> cases h <;> exact ⟨rfl, rfl⟩

/-- Whether there is a worker that was not told to stop. -/
def Attended (e : Environment) : Prop := ∃ stage, e.executor.worker = some ⟨false, stage⟩

/-- A worker that was not told to stop does not leave. -/
theorem Attended.stride (h : e.Attended) (stride : Clockwork.Stride e es e') : e'.Attended := by
  obtain ⟨stage, hw⟩ := h
  cases stride with
  | rest | tick | refocus | rewire => exact ⟨stage, hw⟩
  | start hw' | leave hw' => cases hw.symm.trans hw'
  | begin => exact ⟨_, rfl⟩
  | hand hw' | miss hw' | crash hw' | dispatch hw' | focused hw' | activated hw' | unfocused hw' | settled hw'
  | opened hw' | receive hw' | closeEmpty hw' | closeLate hw' | joined hw' | finish hw' | handIn hw'
  | poll hw' =>
      cases hw.symm.trans hw'
      exact ⟨_, rfl⟩

theorem stride_of_isCalm (e : Environment) (calm : m.isCalm = true) :
    ∃ es, Clockwork.Stride e es (e.move m) := by
  cases m with
  | work => exact ⟨_, Clockwork.stride_work⟩
  | closeLate => exact ⟨_, Clockwork.stride_closeLate⟩
  | poll position => exact ⟨_, Clockwork.stride_poll position⟩
  | tick => exact ⟨_, Clockwork.stride_tick⟩
  | start => exact ⟨_, Clockwork.stride_start⟩
  | request | requestStop | abort | setFocus | setDevice => cases calm

/-- While there is a worker, calm moves are turns. -/
theorem Attended.exists_turns (h : e.Attended) (calm : ∀ m ∈ moves, m.isCalm = true) :
    ∃ turns, Feeds [] turns ∧ e.afterAll turns = e.play moves := by
  induction moves generalizing e with
  | nil => exact ⟨[], feeds_nil, rfl⟩
  | cons m moves ih =>
      obtain ⟨es, stride⟩ := stride_of_isCalm e (calm m List.mem_cons_self)
      obtain ⟨turns, feeds, heq⟩ := ih (h.stride stride) fun m' hm' => calm m' (List.mem_cons_of_mem _ hm')
      have turn (happening : Happening) (hturn : happening.turn? = some m) :
          ∃ turns, Feeds [] turns ∧ e.afterAll turns = e.play (m :: moves) := by
        refine ⟨happening :: turns, ⟨?_, ?_⟩, ?_⟩
        · rw [List.filterMap_cons_none, feeds.given]
          cases happening <;> cases hturn <;> rfl
        · exact List.forall_mem_cons.2 ⟨fun _ => by rw [hturn]; rfl, feeds.turns⟩
        · rw [Clockwork.play_cons, ← heq, ← (after_of_turn hturn).1]
          rfl
      cases m with
      | work => exact turn .work rfl
      | closeLate => exact turn .closeLate rfl
      | poll position => exact turn (.poll position) rfl
      | tick => exact turn .tick rfl
      | start =>
          -- the worker is there, so nothing is started
          obtain ⟨stage, hw⟩ := h
          refine ⟨turns, feeds, heq ▸ ?_⟩
          simp [Clockwork.move, Executor.start, hw]
      | request | requestStop | abort | setFocus | setDevice => cases calm _ List.mem_cons_self

/-! ## Refused scripts -/

/-- Whether a script is refused. -/
def IsRefused (engine : Engine) (script : String) : Prop :=
  ∃ fault, Script.check engine.maxActionSeconds script = .error fault

/-- A queue that has refused so many scripts in a row, which are counted up to the limit. -/
def counting (q : Queue) (k : Nat) : Queue := { q with errors := k % Queue.strikeLimit q.engine }

/-- A refused script is counted and changes nothing else. -/
theorem add_of_refused {q : Queue} {k : Nat} (feed : e.feed = counting q k) (open_ : q.stopped = false)
    (refused : IsRefused q.engine script) :
    (Environment.add script e).2 = { e with feed := counting q (k + 1) } := by
  obtain ⟨fault, hfault⟩ := refused
  have counted : (counting q k).errors = k % Queue.strikeLimit (counting q k).engine := rfl
  rw [Environment.add, feed, Queue.add_of_fault (q := counting q k) open_ hfault, Queue.refuse_spec counted]
  rfl

/-- Groups stand as they do however many scripts were refused. -/
theorem Stands.recount {k : Nat} (h : Stands (counting base k) ts j e) :
    ∃ q : Queue, e.feed = counting q k ∧ q.engine = base.engine ∧ q.stopped = base.stopped ∧
      ∀ k', Stands (counting base k') ts j { e with feed := counting q k' } := by
  rcases h with waits | ⟨start, done, current, left, all, h⟩
  · exact ⟨base.workedOff [] none ts, waits.feed, rfl, rfl, fun k' => .inl
      { waits with
        serene := ⟨waits.serene.engine, waits.serene.works, waits.serene.active⟩
        feed := rfl }⟩
  · exact ⟨base.workedOff done
        (current.map fun t : Ticket => ⟨t.id, t.group, finish base.engine.attackMs start done⟩) left,
      h.feed, rfl, rfl, fun k' => .inr ⟨start, done, current, left, all,
        { h with
          serene := ⟨h.serene.engine, h.serene.works, h.serene.active⟩
          feed := rfl }⟩⟩

/-- A refused script leaves groups as they stand, and is counted. -/
theorem Stands.refuse {k : Nat} (h : Stands (counting base k) ts j e) (open_ : base.stopped = false)
    (refused : IsRefused base.engine script) :
    (e.add script).2.executor = e.executor ∧ Stands (counting base (k + 1)) ts j (e.add script).2 := by
  obtain ⟨q, feed, engine, stopped, stands⟩ := h.recount
  rw [add_of_refused feed (stopped.trans open_) (by rwa [engine])]
  exact ⟨rfl, stands (k + 1)⟩

/-- While only refused scripts come in, groups that wait or are on time stay so, and the worker is there. -/
theorem Stands.afterAll {k : Nat} (h : Stands (counting base k) ts j e) (attended : e.Attended)
    (fit : Ticket.Fit base.engine.attackMs ts) (open_ : base.stopped = false) (feeds : Feeds given happenings)
    (refused : ∀ script ∈ given, IsRefused base.engine script) :
    (∃ j', Stands (counting base (k + given.length)) ts j' (e.afterAll happenings)) ∧
      (e.afterAll happenings).Attended := by
  obtain ⟨hgiven, turns⟩ := feeds
  induction happenings generalizing j e k given with
  | nil =>
      subst hgiven
      exact ⟨⟨j, h⟩, attended⟩
  | cons happening happenings ih =>
      have rest : ∀ x ∈ happenings, x.script? = none → x.turn?.isSome = true :=
        fun x hx => turns x (List.mem_cons_of_mem _ hx)
      cases hscript : happening.script? with
      | none =>
          obtain ⟨m, hturn⟩ := Option.isSome_iff_exists.1 (turns happening List.mem_cons_self hscript)
          obtain ⟨hafter, calm⟩ := after_of_turn (e := e) hturn
          obtain ⟨es, stride⟩ := stride_of_isCalm e calm
          rw [List.filterMap_cons_none hscript] at hgiven
          rw [← hafter] at stride
          exact ih (e := e.after happening) (hafter ▸ h.move fit calm) (attended.stride stride) refused hgiven rest
      | some script =>
          obtain rfl : happening = .add script := by
            cases happening <;> cases hscript
            rfl
          rw [List.filterMap_cons_some hscript] at hgiven
          subst hgiven
          obtain ⟨executor, stands⟩ := h.refuse open_ (refused script List.mem_cons_self)
          have next := ih (e := e.after (.add script)) stands (by rwa [Attended, Environment.after, executor])
            (fun x hx => refused x (List.mem_cons_of_mem _ hx)) rfl rest
          rwa [List.length_cons, Nat.add_comm _ 1, ← Nat.add_assoc]

/-! ## Drained queues -/

/-- When the queue is drained all groups are done, and the worker rests. -/
theorem Stands.rests (h : Stands base ts j e) (drained : e.IsDrained) :
    e.feed = base.workedOff ts none [] ∧ e.Rests := by
  rcases h with waits | ⟨start, runs⟩
  · obtain rfl : ts = [] := by
      have pending := drained.1
      rwa [waits.feed] at pending
    refine ⟨waits.feed, drained.1, fun b stage hw => ?_⟩
    rcases waits.away with hw' | ⟨due, hw'⟩
    · cases hw.symm.trans hw'
    · cases hw.symm.trans hw'
      exact .inr (.inr ⟨due, rfl⟩)
  · refine ⟨?_, runs.rests drained⟩
    obtain ⟨done, current, left, all, onTime⟩ := runs
    obtain ⟨rfl, rfl⟩ := onTime.isDrained_iff.1 drained
    obtain rfl : done = ts := by simpa using all
    exact onTime.feed

/-- A worker that rests leaves the queue as it is, also when it is taken away. -/
theorem Rests.play (h : e.Rests) (calm : ∀ m ∈ moves, m.isCalm = true ∨ m = .abort) :
    (e.play moves).feed = e.feed := by
  induction moves generalizing e with
  | nil => rfl
  | cons m moves ih =>
      obtain ⟨feed, rests⟩ : (e.move m).feed = e.feed ∧ Rests (e.move m) := by
        rcases calm m List.mem_cons_self with calm | rfl
        · obtain ⟨es, stride⟩ := stride_of_isCalm e calm
          exact h.stride stride
        · simp only [Clockwork.move, Executor.abort]
          split <;> exact ⟨trivial, h.pending, fun b stage hw => by cases hw⟩
      exact (ih rests fun m' hm' => calm m' (List.mem_cons_of_mem _ hm')).trans feed

end Environment

end Combo
