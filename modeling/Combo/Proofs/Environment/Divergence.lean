-- SUMMARY: A script that is taken in in merge mode touches what it conflicts with only: two runs, with and without it, agree on all else.
import Combo.Proofs.Clockwork.LetGo
import Combo.Proofs.Clockwork.Outset
import Combo.Proofs.Environment.Encounter
import Combo.Proofs.Environment.MergeRecord

/-!
# With and without a script

Two runs of an environment agree up to a moment at which a group is running, and
then the first takes in a script and the second does not. An action of the group
that the script does not conflict with has the same before it in both, so it
makes the same calls at the same instants and ends in the same way, whatever is
layered onto the group and however the two runs are scheduled. An action that the
script conflicts with lets go. This also holds when the queue has forgotten the
group, because everything is cancelled then.
-/

namespace Combo

namespace Environment

variable {e e' : Environment} {es : List Event} {m : Move} {id : Nat} {step : Step} {run : Run}

/-! ## What holds before the moment -/

/-- Whether the group the worker is at is outstanding, or will start nothing any more. -/
def Minds (e : Environment) : Prop :=
  ∀ id, e.groupId? = some id → (∃ o ∈ e.feed.running, o.id = id) ∨ e.isDoomed = true

theorem Minds.turn (h : e.Minds) (turn : Clockwork.Turn e es e') : e'.Minds := by
  intro id hid
  cases turn.group with
  | stay before after own feed doomed =>
      rw [feed]
      exact (h id (before.trans (after.symm.trans hid))).imp_right doomed
  | handed t before after seen feed =>
      obtain ⟨-, heq⟩ := Queue.feedNext_group feed
      refine .inl ⟨⟨t.id, t.group, e.now⟩, ?_, Option.some.inj (after.symm.trans hid)⟩
      rw [heq]
      exact List.mem_append_right _ (List.mem_singleton.2 rfl)
  | returned _ _ after | idle _ after | missed _ _ after => cases after.symm.trans hid
  | lost gone => cases (Clockwork.groupId?_of_none gone).symm.trans hid

theorem Minds.of_ids (h : e.Minds) {q : Queue}
    (ids : q.running.map (·.id) = e.feed.running.map (·.id)) :
    Minds { e with feed := q } := by
  intro id hid
  refine (h id hid).imp_left fun ⟨o, ho, hsame⟩ => ?_
  have hmem : id ∈ q.running.map (·.id) := by
    rw [ids, ← hsame]
    exact List.mem_map_of_mem ho
  obtain ⟨o', ho', heq⟩ := List.mem_map.1 hmem
  exact ⟨o', ho', heq⟩

/-- When all work is dropped, the group the worker is at is doomed. -/
theorem Minds.dropWork (h : e.Minds) (q : Queue) :
    Minds { e with feed := q, executor := (e.feed.dropWork e.executor).2 } := by
  intro id hid
  right
  revert hid
  unfold Queue.dropWork
  cases hrunning : e.feed.running with
  | nil =>
      intro hid
      rcases h id hid with ⟨o, ho, -⟩ | doomed
      · rw [hrunning] at ho
        cases ho
      · exact doomed
  | cons o os =>
      simp only [List.isEmpty_cons, Bool.false_eq_true, if_false]
      intro hid
      obtain ⟨b, stage, hw, hstage⟩ := Clockwork.exists_of_groupId? hid
      rw [Clockwork.isDoomed_of_some hw]
      have hall : (Control.interruptAll e.executor).1 = e.executor.mapStage Stage.interruptAll :=
        Executor.interruptAll_fst e.executor
      rw [hall] at hw
      obtain ⟨⟨b', stage'⟩, -, heq⟩ := Option.map_eq_some_iff.1 hw
      cases heq
      exact Stage.isDoomed_interruptAll ((Stage.groupId?_interruptAll stage').symm.trans hstage)

/-- What holds of every environment, whoever called the executor. -/
structure Ordinary (engine : Engine) (e : Environment) : Prop where
  sound : e.executor.Sound
  minds : e.Minds
  engine : e.feed.engine = engine

theorem Ordinary.turn {engine : Engine} (h : e.Ordinary engine) (turn : Clockwork.Turn e es e') :
    e'.Ordinary engine where
  sound := turn.sound h.sound
  minds := h.minds.turn turn
  engine := (engine_turn turn).trans h.engine

/-- However an environment got where it is, and whoever called its executor. -/
theorem ordinary_faceAll (engine : Engine) (target : Target) (device : Device) (focus : Focus)
    (incidents : List Incident) :
    ((new engine target device focus).faceAll incidents).Ordinary engine := by
  refine faceAll_keeps (P := Ordinary engine)
    ⟨Clockwork.sound_idle (by simp [new]), fun id hid => ?_, rfl⟩ fun e incident _ he => ?_
  · cases hid
  · refine face_keeps (P := Ordinary engine) (fun _ => trivial)
      (fun _ m _ he => he.turn (Clockwork.turn_move m))
      (fun _ q ids same he => ⟨he.sound, he.minds.of_ids ids, same.trans he.engine⟩)
      (fun s q _ same he => ⟨?_, he.minds.dropWork q, same.trans he.engine⟩) he incident
      incident.within_true
    exact dropWork_executor (P := Executor.Sound) (fun turn => turn.sound) he.sound

/-! ## What the script does to the run -/

/-- While the queue is locked, inner moves that are made leave the worker at its group. -/
theorem exists_playUnlocked (h : e.groupId? = some id) {between : List Move}
    (inner : ∀ m ∈ between, m.isInner = true) :
    ∃ moves, e.playUnlocked between = e.play moves ∧ (∀ m ∈ moves, m.isInner = true) ∧
      (∀ event ∈ e.journal moves, event.isOf id = true) := by
  induction between generalizing e with
  | nil => exact ⟨[], rfl, by simp, by simp⟩
  | cons m between ih =>
      have inner' := fun m' hm' => inner m' (List.mem_cons_of_mem _ hm')
      by_cases unlocked : e.isUnlocked m = true
      · have free : e.isFree m = true := by
          have hm := inner m List.mem_cons_self
          cases m with
          | request => cases hm
          | _ => simpa [isUnlocked, Move.isLayering] using unlocked
        have group : Clockwork.groupId? (e.move m) = some id ∧
            ∀ event ∈ Clockwork.events e m, event.isOf id = true := by
          cases (Clockwork.turn_move (s := e) m).group with
          | stay before after own =>
              cases before.symm.trans h
              exact ⟨after, own⟩
          | returned report _ _ seen =>
              rcases events_of_isFree free (by rw [seen]; exact List.mem_singleton.2 rfl) with
                ⟨call, hcall⟩ | hleft | haborted
              · cases hcall
              · cases hleft
              · cases haborted
          | handed _ before | idle before | missed _ before => cases before.symm.trans h
          | lost gone aborted =>
              refine absurd aborted (Clockwork.not_aborted ?_)
              rintro rfl
              cases inner _ List.mem_cons_self
        obtain ⟨moves, heq, all, own⟩ := ih group.1 inner'
        refine ⟨m :: moves, ?_, List.forall_mem_cons.2 ⟨inner m List.mem_cons_self, all⟩, ?_⟩
        · have moved : e.moveUnlocked m = e.move m := if_pos unlocked
          exact (congrArg (playUnlocked · between) moved).trans heq
        · exact List.forall_mem_append.2 ⟨group.2, own⟩
      · have still : e.moveUnlocked m = e := if_neg unlocked
        obtain ⟨moves, heq, rest⟩ := ih h inner'
        exact ⟨moves, (congrArg (playUnlocked · between) still).trans heq, rest⟩

/-- The moves that come of a script: an interrupt, inner moves, and a request to layer. -/
structure Room (e : Environment) (run : Run) (g : Group) (room : List Move) : Prop where
  own : ∀ event ∈ e.journal room, event.isOf run.id = true
  spares : ∀ kind : Kind, kind.interrupted g.kinds = false → ∀ m ∈ room, m.spares kind = true
  /-- Without an interrupt everything was cancelled before. -/
  interrupts : (run.cancelled = true ∧ room = []) ∨
    ∃ rest, room = .request (.interruptConflicting g) :: rest

/-- A script that is taken in in merge mode makes moves of its own and of what happens meanwhile. -/
theorem exists_room {engine : Engine} (h : e.Ordinary engine) (merging : engine.mode = .merge)
    (running : e.IsRunning step run) {script : String} {n : Nat}
    (accepted : (e.add script).1 = .ok n) {between : List Move}
    (inner : ∀ m ∈ between, m.isInner = true) :
    ∃ g rest room q, Script.check engine.maxActionSeconds script = .ok (g :: rest) ∧
      e.Room run g room ∧ e.face (.add script between) = { e.play room with feed := q } := by
  rcases add_cases script e with ⟨fault, errors, heq⟩ | ⟨groups, open_, hcheck, -⟩
  · rw [heq] at accepted
    cases accepted
  · obtain ⟨g, rest, rfl⟩ := Script.exists_cons_of_check hcheck
    have hface := face_add open_ hcheck between
    rw [h.engine] at hcheck
    by_cases hrunning : e.feed.running = []
    · -- the queue has forgotten the group, so that it was cancelled as a whole
      have cancelled : run.cancelled = true := by
        obtain ⟨b, hw⟩ := running
        rcases h.minds run.id (Clockwork.groupId?_of_some hw) with ⟨o, ho, -⟩ | doomed
        · rw [hrunning] at ho
          cases ho
        · rwa [Clockwork.isDoomed_of_some hw] at doomed
      rw [show e.feed.makeRoom (g :: rest) ({ system := e, between } : Gap) = (⟨e, between⟩, false) by
        simp [Queue.makeRoom, hrunning]] at hface
      exact ⟨g, rest, [], _, hcheck, ⟨by simp, by simp, .inl ⟨cancelled, rfl⟩⟩, hface⟩
    · have mode : e.feed.engine.mode = .merge := by rw [h.engine, merging]
      have still : Clockwork.groupId? (e.move (.request (.interruptConflicting g))) =
          some run.id := by
        cases (Clockwork.turn_move (s := e) (.request (.interruptConflicting g))).group with
        | stay before after =>
            rw [after, ← before]
            exact running.groupId?
        | handed _ _ _ seen | returned _ _ _ seen | missed _ _ _ seen => cases seen
        | idle before => cases running.groupId?.symm.trans before
        | lost _ aborted => cases aborted
      obtain ⟨moves, heq, all, own⟩ := exists_playUnlocked still inner
      have hroom : (e.feed.makeRoom (g :: rest) ({ system := e, between } : Gap)).1.system =
          e.play (.request (.interruptConflicting g) :: (moves ++ [.request (.layer g)])) := by
        rw [Queue.makeRoom_merge hrunning mode, Clockwork.play_cons, Clockwork.play_append_singleton, ← heq]
        rfl
      rw [hroom] at hface
      refine ⟨g, rest, _, _, hcheck, ⟨?_, fun kind spared => ?_, .inr ⟨_, rfl⟩⟩, hface⟩
      · rw [Clockwork.journal_cons, Clockwork.journal_append, Clockwork.journal_cons,
          Clockwork.journal_nil]
        refine List.forall_mem_append.2 ⟨by simp [Clockwork.events], List.forall_mem_append.2 ⟨own, ?_⟩⟩
        simp only [Clockwork.events]
        split <;> simp [Event.isOf]
      · simp only [List.mem_cons, List.mem_append, List.not_mem_nil, or_false]
        rintro m (rfl | hm | rfl)
        · simp [Move.spares, spared]
        · exact Move.spares_of_isInner (all m hm) kind
        · rfl

/-! ## One run -/

variable {group position : Nat} {j : List Event} {first second : List Move} {entry : Entry}

/-- What is known of an action does not depend on the queue. -/
theorem tracks_of_executor {P : Environment → Step → Run → Entry → Prop} {D : Outcome → Prop}
    (h : Clockwork.Tracks P D group position e) (q : Queue)
    (kept : ∀ step run entry, P e step run entry → P { e with feed := q } step run entry) :
    Clockwork.Tracks P D group position ({ e with feed := q } : Environment) := by
  cases h with
  | going running id looked he holds => exact .going running id looked he (kept _ _ _ holds)
  | done reporting id here holds => exact .done reporting id here holds

/-- An action that a script spares is led on from its outset, whoever is scheduled when. -/
theorem tracks_of_spared (sound : e.executor.Sound) (running : e.IsRunning step run)
    (looked : step ≠ .focusing) (he : run.entries[position]? = some entry) {g : Group}
    (spared : entry.action.kind.interrupted g.kinds = false) {room : List Move}
    (made : e.Room run g room) (q : Queue) (inner : ∀ m ∈ first, m.isInner = true)
    (own : ∀ event ∈ Clockwork.journal ({ e.play room with feed := q } : Environment) first,
      event.isOf run.id = true) :
    let e₁ : Environment := { e.play room with feed := q }
    let seen := e.journal room ++ e₁.journal first
    Clockwork.Tracks
      (Clockwork.LeadsTo e.executor.device (e.outset step run entry) run.id position seen)
      (Clockwork.EndsAs e.executor.device (e.outset step run entry) run.id position seen)
      run.id position (e₁.play first) := by
  have roomy := Clockwork.tracks_outset (x := e.outset step run entry) (j := []) sound
    (.going running rfl looked he ⟨rfl, [], by simp, rfl, rfl⟩)
    (fun m hm => by rw [Clockwork.outset_action]; exact made.spares _ spared m hm) made.own
  exact Clockwork.tracks_outset (Clockwork.Sound.play sound room)
    (tracks_of_executor roomy q fun _ _ _ leads => ⟨leads.wired, leads.course⟩)
    (fun m hm => Move.spares_of_isInner (inner m hm) _) own

/-- An action that a script conflicts with lets go from then on. -/
theorem tracks_of_hit (sound : e.executor.Sound) (running : e.IsRunning step run)
    (looked : step ≠ .focusing) (he : run.entries[position]? = some entry) {g : Group}
    (hit : entry.action.kind.interrupted g.kinds = true) (going : entry.progress.isEnded = false)
    {room : List Move} (made : e.Room run g room) (q : Queue)
    (own : ∀ event ∈ Clockwork.journal ({ e.play room with feed := q } : Environment) first,
      event.isOf run.id = true) :
    let e₁ : Environment := { e.play room with feed := q }
    let seen := e.journal room ++ e₁.journal first
    Clockwork.Tracks
      (fun _ _ _ entry' => entry'.action = entry.action ∧ entry'.LetsGo run.id position seen)
      (Outcome.HasLetGo run.id position entry.action seen) run.id position (e₁.play first) := by
  have roomy : Clockwork.Tracks
      (fun _ _ _ entry' => entry'.action = entry.action ∧
        entry'.LetsGo run.id position (e.journal room))
      (Outcome.HasLetGo run.id position entry.action (e.journal room)) run.id position
      (e.play room) := by
    obtain ⟨b, hw⟩ := running
    rcases made.interrupts with ⟨cancelled, rfl⟩ | ⟨rest, rfl⟩
    · exact .going ⟨b, hw⟩ rfl looked he ⟨rfl, Entry.letsGo_nil run.id position
        ((sound _ _ _ hw).2.1 cancelled entry (List.mem_of_getElem? he)) going⟩
    · have running' : Clockwork.IsRunning (e.move (.request (.interruptConflicting g))) step
          (run.interruptConflicting g.kinds).1 := by
        simp only [Clockwork.move, Executor.serve, Executor.interruptConflicting_fst,
          Executor.mapStage_of_some hw]
        exact ⟨b, rfl⟩
      have interrupted : ∃ entry', (run.interruptConflicting g.kinds).1.entries[position]? = some entry' ∧
          entry'.action = entry.action ∧ entry'.cancelled = true ∧ entry'.progress = entry.progress := by
        cases cancelled : entry.cancelled <;>
          simp [Run.interruptConflicting, he, Run.Entry.hitBy, hit, cancelled]
      obtain ⟨entry', he', haction, cancelled, progress⟩ := interrupted
      exact Clockwork.tracks_letsGo ((Clockwork.turn_move _).sound sound)
        (.going running' rfl looked he'
          ⟨haction, Entry.letsGo_nil run.id position cancelled (progress ▸ going)⟩) rest
        fun event hevent => made.own event (List.mem_append_right _ hevent)
  have sound₁ : ({ e.play room with feed := q } : Environment).executor.Sound :=
    Clockwork.Sound.play sound room
  exact Clockwork.tracks_letsGo sound₁ (tracks_of_executor roomy q fun _ _ _ letsGo => letsGo) first own

/-! ## Two runs -/

/-- What is sent from one moment to a later one is what is seen of it. -/
theorem callsSince_of_calls (group position : Nat)
    (h : e'.executor.calls = e.executor.calls ++ j.filterMap Event.call?) :
    exchangesAt group position (Clockwork.callsSince e e') = exchangesAt group position j ∧
      ∀ c, .called c ∈ Clockwork.callsSince e e' ↔ .called c ∈ j := by
  have called {event : Event} {c : Call} : event.call? = some c ↔ event = .called c := by
    cases event <;> simp [Event.call?]
  rw [Clockwork.callsSince_of_append _ h]
  refine ⟨?_, fun c => ?_⟩
  · rw [exchangesAt, List.filterMap_map]
    exact congrArg (fun calls => List.map _ (List.filter _ calls)) List.filterMap_some
  · simp [called]

/--
What is said of the action at a position of a running group, and of two runs that start at the same
moment: one has sent for it what the other has sent and perhaps more, and once both have reported the
group they agree on all that was sent for it, and when, and on its outcome.
-/
structure Agrees (group position : Nat) (start end₁ end₂ : Environment) : Prop where
  exchanges :
    exchangesAt group position (start.callsSince end₁) <+:
      exchangesAt group position (start.callsSince end₂) ∨
    exchangesAt group position (start.callsSince end₂) <+:
      exchangesAt group position (start.callsSince end₁)
  reports : ∀ r₁ r₂, end₁.IsReporting r₁ → end₂.IsReporting r₂ →
    exchangesAt group position (start.callsSince end₁) =
        exchangesAt group position (start.callsSince end₂) ∧
      ∃ outcome, r₁.outcomes[position]? = some outcome ∧ r₂.outcomes[position]? = some outcome

/--
What is said of an action that a script has cancelled: it has sent nothing but releases since, and
once the group is reported it has let go.
-/
structure GivesWay (group position : Nat) (a : Action) (start end₁ : Environment) : Prop where
  silent : ∀ now command response,
    .called ⟨now, group, position, command, response⟩ ∈ start.callsSince end₁ →
      command.acts = false
  reports : ∀ r₁, end₁.IsReporting r₁ → ∃ ending : Ending,
    r₁.outcomes[position]? = some ⟨a, ending⟩ ∧
      ending.IsLetGo group position (start.callsSince end₁)

/-- What an action was led to, as far as it is seen of it. -/
theorem exists_calm_of_tracks {device : Device} {x : Solo}
    (h : Clockwork.Tracks (Clockwork.LeadsTo device x group position j)
      (Clockwork.EndsAs device x group position j) group position e') :
    ∃ xs, (∀ m ∈ xs, Solo.IsCalm device.respond m) ∧
      exchangesAt group position j = x.exchanges xs ∧
      ∀ report, e'.IsReporting report → ∃ ending, (x.play xs).progress = .ended ending ∧
        report.outcomes[position]? = some ⟨x.action, ending⟩ := by
  cases h with
  | going running id looked he leads =>
      obtain ⟨xs, calm, sent, -⟩ := leads.course
      exact ⟨xs, calm, sent, fun report reporting => absurd running reporting.not_isRunning⟩
  | @done report outcome reporting id here ends =>
      obtain ⟨haction, xs, calm, sent, ended⟩ := ends
      refine ⟨xs, calm, sent, fun report' reporting' => ?_⟩
      obtain rfl := reporting.unique reporting'
      exact ⟨outcome.ending, ended, haction ▸ here⟩

/-- Two runs that lead an action on from one outset agree on it. -/
theorem agrees_of_tracks {device : Device} {x : Solo} {start end₁ end₂ : Environment}
    {seen₁ seen₂ : List Event}
    (calls₁ : end₁.executor.calls = start.executor.calls ++ seen₁.filterMap Event.call?)
    (calls₂ : end₂.executor.calls = start.executor.calls ++ seen₂.filterMap Event.call?)
    (first : Clockwork.Tracks (Clockwork.LeadsTo device x group position seen₁)
      (Clockwork.EndsAs device x group position seen₁) group position end₁)
    (second : Clockwork.Tracks (Clockwork.LeadsTo device x group position seen₂)
      (Clockwork.EndsAs device x group position seen₂) group position end₂) :
    Agrees group position start end₁ end₂ := by
  obtain ⟨xs, calm₁, sent₁, reports₁⟩ := exists_calm_of_tracks first
  obtain ⟨ys, calm₂, sent₂, reports₂⟩ := exists_calm_of_tracks second
  rw [← (callsSince_of_calls group position calls₁).1] at sent₁
  rw [← (callsSince_of_calls group position calls₂).1] at sent₂
  refine ⟨?_, fun r₁ r₂ reporting₁ reporting₂ => ?_⟩
  · rw [sent₁, sent₂]
    exact x.exchanges_prefix calm₁ calm₂
  · obtain ⟨ending₁, ended₁, outcome₁⟩ := reports₁ r₁ reporting₁
    obtain ⟨ending₂, ended₂, outcome₂⟩ := reports₂ r₂ reporting₂
    obtain ⟨sent, same⟩ :=
      x.agree_of_ended calm₁ calm₂ (by rw [ended₁]; rfl) (by rw [ended₂]; rfl)
    rw [ended₁, ended₂] at same
    cases same
    exact ⟨by rw [sent₁, sent₂, sent], _, outcome₁, outcome₂⟩

/-- An action that does nothing but let go gives way. -/
theorem givesWay_of_tracks {a : Action} {start end₁ : Environment} {seen : List Event}
    (calls : end₁.executor.calls = start.executor.calls ++ seen.filterMap Event.call?)
    (h : Clockwork.Tracks (fun _ _ _ entry => entry.action = a ∧ entry.LetsGo group position seen)
      (Outcome.HasLetGo group position a seen) group position end₁) :
    GivesWay group position a start end₁ := by
  have sent := (callsSince_of_calls group position calls).2
  cases h with
  | going running id looked he holds =>
      exact ⟨fun now command response hmem => holds.2.silent now command response ((sent _).1 hmem),
        fun report reporting => absurd running reporting.not_isRunning⟩
  | @done report outcome reporting id here holds =>
      refine ⟨fun now command response hmem => holds.silent now command response ((sent _).1 hmem),
        fun report' reporting' => ?_⟩
      obtain rfl := reporting.unique reporting'
      refine ⟨outcome.ending, holds.action ▸ here, ?_⟩
      exact holds.ended.imp_right fun ⟨now, input, err, released, ending⟩ =>
        ⟨now, input, err, (sent _).2 released, ending⟩

/-- A walk ahead and to the left is begun. -/
def walkAcross : List Incident :=
  [.move .start, .add "w(0.01)&a(0.01)" [], .move .work, .move .work, .move .work, .move .work,
    .move .work, .move (.poll 0), .move (.poll 1)]

/-- The run of the walk at that moment. -/
def walkingAcross : Run where
  id := 0
  estimate := 0.01
  cancelled := false
  needsFocus := true
  entries := [⟨⟨.moveForward, some "0.01", 0.01⟩, "w_0.01", false, .holding .forward 10⟩,
    ⟨⟨.moveLeft, some "0.01", 0.01⟩, "a_0.01", false, .holding .left 10⟩]

/-- With a walk back layered on, it and the walk to the left are made. -/
def withWalkBack : List Move :=
  [.work, .poll 2] ++ List.replicate 10 .tick ++ [.poll 2, .poll 1, .work, .work, .work]

/-- Without it the whole walk is made. -/
def withoutWalkBack : List Move :=
  List.replicate 10 .tick ++ [.poll 0, .poll 1, .work, .work, .work]

/-- The report of the walk, with the endings of its actions. -/
def walkReport (endings : List (Kind × Ending)) (interrupted : Bool) : Report where
  id := 0
  group := ⟨endings.map fun (kind, _) => ⟨kind, some "0.01", 0.01⟩, 0.01⟩
  outcomes := endings.map fun (kind, ending) => ⟨⟨kind, some "0.01", 0.01⟩, ending⟩
  interrupted := interrupted

end Environment

end Combo
