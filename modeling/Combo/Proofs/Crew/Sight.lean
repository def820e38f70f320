-- SUMMARY: With one worker at a time, an input is sent only after a look at the window in the same run, and when the window had time to settle.
import Combo.Proofs.Clockwork.Restart
import Combo.Proofs.Clockwork.Sight
import Combo.Proofs.Crew.Course
import Combo.Proofs.Crew.Sends

/-!
# Looks of a crew at the window

The worker looks at the window in one step only, the first of a run that needs the focus. `exists_look` follows
a run that needs the focus and is past the look back to it: nothing but events of its group was seen since, and
the worker is where the look allows it to be. A worker that has given its actions up, or that is taken away,
sends no more of the kind.
-/

namespace Combo

namespace Crew

variable {φ : Type} [Feed φ] {c : Crew φ} {sent : List Sent} {mv : Move}

/-! ## One move -/

/-- A step of the single worker is a step of a worker that is there and can go on. -/
theorem eq_work_of_plain (plain : c.plainMove mv = [.work]) :
    ∃ w m, mv = .work w ∧ c.members[w]? = some m ∧ m.isReady c.now = true := by
  cases mv with
  | work worker =>
    simp only [plainMove, plainWork] at plain
    split at plain
    · cases plain
    · rename_i m hm
      split at plain
      · rename_i ready
        exact ⟨worker, m, rfl, hm, ready⟩
      · cases plain
  | closeLate | poll =>
    simp only [plainMove] at plain
    split at plain
    · try split at plain
      all_goals cases plain
    · cases plain
  | tick | start | stop =>
    simp only [plainMove] at plain
    split at plain <;> cases plain
  | request | setFocus | setDevice | join | notice | giveUp | letGo | abort => cases plain

/-- Where a run that needs the focus and is past its look comes from in a move. -/
inductive LooksBy (c : Crew φ) (mv : Move) (step : Step) (run : Run) : Prop where
  | look {w k : Nat} {b : Bool} {run₁ : Run} {ledger : Ledger} (own : mv = .work w)
      (hm : c.members[w]? = some ⟨b, k, .running .focusing run₁ ledger⟩) (id : run₁.id = run.id)
      (silent : ((c.notes mv).filter fun n => n.worker.isSome).map (·.event) = [])
      (allows : c.focus.sight.Allows c.now c.target.settleMs (c.move mv).now run.cancelled step)
  | on {w k : Nat} {b : Bool} {step₁ : Step} {run₁ : Run} {ledger : Ledger}
      (hm : c.members[w]? = some ⟨b, k, .running step₁ run₁ ledger⟩)
      (on : Clockwork.LooksOn c.target.settleMs c.now (c.move mv).now
        (((c.notes mv).filter fun n => n.worker.isSome).map (·.event)) step₁ run₁ step run)

section LookMove

variable (lone : (c.trim c.sent).Lone) {w k : Nat} {b : Bool} {step : Step} {run : Run} {ledger : Ledger}
  (hm : (c.move mv).members[w]? = some ⟨b, k, .running step run ledger⟩) (needs : run.needsFocus = true)
  (away : step ≠ .focusing)
include lone needs away

/-- A run that is as it was comes from itself. -/
theorem Lone.looksBy_of_same (same : c.single.IsRunning step run) (now : (c.move mv).now = c.now)
    (silent : ((c.notes mv).filter fun n => n.worker.isSome).map (·.event) = []) : c.LooksBy mv step run := by
  obtain ⟨w₁, b₁, k₁, ledger₁, hm₁⟩ := (lone.running step run).1 same
  exact .on hm₁ ⟨away, needs, rfl, by simp [silent], fun allowed => by rwa [now]⟩

include hm

/-- What a worker is past in a move of the single worker. -/
theorem Lone.looksBy_of_regular (regular : c.isRegular mv = true) : c.LooksBy mv step run := by
  obtain ⟨sent', lone', single, events⟩ := lone.trim_mirrors regular
  have running : ((c.move mv).trim sent').single.IsRunning step run :=
    (lone'.running step run).2 ⟨w, b, k, ledger, hm⟩
  have now : (c.move mv).now = (c.single.play (c.plainMove mv)).now := congrArg Clockwork.now single
  rw [single] at running
  rcases plainMove_cases c mv with plain | ⟨m, plain, -, -⟩ | ⟨w', k', plain, hm', crash⟩
  · rw [plain] at running now events
    exact lone.looksBy_of_same needs away running now events
  · rw [plain] at running now events
    have events : _ = c.single.events m := events.trans (List.append_nil _)
    rcases Clockwork.look_move running needs away with
      ⟨rfl, silent, run₁, running₁, id, allows⟩ | ⟨step₁, run₁, running₁, on⟩
    · obtain ⟨w₁, b₁, k₁, ledger₁, hm₁⟩ := (lone.running _ run₁).1 running₁
      obtain ⟨w', m', rfl, hm', ready⟩ := eq_work_of_plain plain
      have there : m'.post ≠ .gone := by
        intro gone
        simp [Member.isReady, gone] at ready
      obtain ⟨rfl, -⟩ := lone.unique hm₁ (by simp) hm' there
      exact .look rfl hm₁ id (events.trans silent) (now ▸ allows)
    · obtain ⟨w₁, b₁, k₁, ledger₁, hm₁⟩ := (lone.running step₁ run₁).1 running₁
      refine .on hm₁ ?_
      rw [events, now]
      exact on
  · rw [plain] at running
    obtain ⟨b', hw⟩ := running
    cases (Clockwork.requestStop_of_crashed (lone.crashed hm' crash)).symm.trans hw

/-- A run that needs the focus is past its look after a move if that was the look, or it was so before. -/
theorem Lone.looksBy (next : c.isSuccessive mv = true) : c.LooksBy mv step run := by
  cases mv with
  | giveUp worker =>
    have running : (c.giveUp worker).single.IsRunning step run :=
      ((lone.giveUp worker).running step run).2 ⟨w, b, k, ledger, hm⟩
    have now : (c.giveUp worker).now = c.now := by
      simp only [Crew.giveUp]
      (repeat' split) <;> rfl
    rcases lone.giveUp_cases worker with still | ⟨b₁, accepting, run₁, ledger₁, hw₁, -, -, single⟩
    · rw [still] at running
      exact lone.looksBy_of_same needs away running now rfl
    · obtain ⟨w₁, b₁, k₁, ledger₁, hm₁⟩ := (lone.running (.joining accepting) run₁).1 ⟨b₁, hw₁⟩
      rw [single] at running
      obtain ⟨b', hw⟩ := running
      cases hw
      refine .on hm₁ ⟨by simp, needs, rfl, by simp [notes], fun allowed => ?_⟩
      rw [show (c.move (.giveUp worker)).now = c.now from now]
      cases allowed with
      | active => exact .active
      | settled elapsed => exact .settled elapsed
  | abort worker =>
    cases kept : c.members[worker]?.any Member.isAbortable with
    | false => exact lone.looksBy_of_regular hm needs away (by simp [isRegular, kept])
    | true =>
      obtain ⟨stage, -, single⟩ := lone.abort_cases kept
      have running : (c.abort worker).single.IsRunning step run :=
        ((lone.abort worker).running step run).2 ⟨w, b, k, ledger, hm⟩
      rw [single] at running
      obtain ⟨b', hw⟩ := running
      cases hw
  | _ => exact lone.looksBy_of_regular hm needs away next

end LookMove

/-! ## Plays -/

/--
Whether a worker looked at the window for a group at some moment of a play, found something, and only
events of the group were seen of the workers since.
-/
structure LooksAt (c : Crew φ) (moves : List Move) (id : Nat) (look : Crew φ) (sight : Sight) : Prop where
  split : ∃ before w after, moves = before ++ .work w :: after ∧ look = c.play before ∧
    (∃ (b : Bool) (k : Nat) (run : Run) (ledger : Ledger),
      look.members[w]? = some ⟨b, k, .running .focusing run ledger⟩ ∧ run.id = id) ∧
    ∀ e ∈ look.seen Option.isSome (.work w :: after), e.isOf id = true
  found : look.focus.sight = sight

theorem LooksAt.append {moves : List Move} {id : Nat} {look : Crew φ} {sight : Sight}
    (h : c.LooksAt moves id look sight)
    (own : ∀ e ∈ (((c.play moves).notes mv).filter fun n => n.worker.isSome).map (·.event), e.isOf id = true) :
    c.LooksAt (moves ++ [mv]) id look sight := by
  obtain ⟨⟨before, w, after, rfl, rfl, here, seen⟩, found⟩ := h
  refine ⟨⟨before, w, after ++ [mv], by simp, rfl, here, ?_⟩, found⟩
  rw [← List.cons_append, seen_append_singleton, ← play_append]
  exact List.forall_mem_append.2 ⟨seen, own⟩

/-- A run that needs the focus and is past the look was looked at for, and is where that allows it to be. -/
theorem exists_look (feed : φ) (engine : Engine) (target : Target) (device : Device) (focus : Focus)
    {moves : List Move} (successive : (new feed engine target device focus).Successive moves) {w k : Nat} {b : Bool}
    {step : Step} {run : Run} {ledger : Ledger}
    (hm : ((new feed engine target device focus).play moves).members[w]? = some ⟨b, k, .running step run ledger⟩)
    (needs : run.needsFocus = true) (away : step ≠ .focusing) :
    ∃ look sight, (new feed engine target device focus).LooksAt moves run.id look sight ∧
      sight.Allows look.now target.settleMs ((new feed engine target device focus).play moves).now run.cancelled
        step := by
  induction moves using List.reverseRecOn generalizing w k b step run ledger with
  | nil => cases hm
  | append_singleton moves mv ih =>
    obtain ⟨before, next, -⟩ := successive_append.1 successive
    have lone := lone_play feed engine target device focus moves before
      ((new feed engine target device focus).play moves).sent
    have same : ((new feed engine target device focus).play moves).target = target := (settings_play _ moves).2
    rw [play_append] at hm ⊢
    rcases lone.looksBy hm needs away next with ⟨rfl, hm₁, id, silent, allows⟩ | ⟨hm₁, on⟩
    · rw [same] at allows
      refine ⟨_, _, ⟨⟨moves, _, [], rfl, rfl, ⟨_, _, _, _, hm₁, id⟩, ?_⟩, rfl⟩, allows⟩
      simp [seen, silent]
    · rw [same] at on
      obtain ⟨look, sight, looks, allowed⟩ := ih before hm₁ on.needs on.away
      rw [on.id] at looks
      exact ⟨look, sight, looks.append on.own, on.allows allowed⟩

/-! ## Inputs -/

/-- Whether the executor requires the focus, and its run is modest and has no pause between presses. -/
structure Guards (s : Clockwork φ) : Prop where
  required : s.executor.target.requireFocus = true
  modest : ∀ run, s.executor.run? = some run → run.IsModest
  still : ∀ run, s.executor.run? = some run → ∀ e ∈ run.entries, e.IsStill

omit [Feed φ] in
/-- An action that is given up has ended as cancelled, or is as far as it was. -/
theorem mem_giveUp_entries {run : Run} {ledger : Ledger} {e' : Entry} (h : e' ∈ (run.giveUp ledger).entries) :
    ∃ e ∈ run.entries, e'.action = e.action ∧ (e'.progress = .ended .cancelled ∨ e'.progress = e.progress) := by
  obtain ⟨i, lt, rfl⟩ := List.mem_mapIdx.1 h
  refine ⟨run.entries[i], List.getElem_mem lt, ?_⟩
  unfold Entry.giveUp
  split
  · exact ⟨rfl, .inr rfl⟩
  · exact ⟨rfl, .inl rfl⟩

theorem keeps_guards : Keeps (fun _ (s : Clockwork φ) => Guards s) True where
  blind := fun _ h => ⟨h.required, h.modest, h.still⟩
  move := fun {_ s m} h _ _ =>
    have turn := Clockwork.turn_move (s := s) m
    ⟨turn.target ▸ h.required, turn.isModest h.required h.modest, turn.isStill h.still⟩
  giveUp := fun {_ _ _ _ run} ledger h hw _ _ => by
    have here := Executor.run?_of_some hw
    refine ⟨h.required, fun run' hrun' => ?_, fun run' hrun' => ?_⟩ <;> cases hrun'
    · intro unneeded e' he' needs
      obtain ⟨e, he, action, ended | same⟩ := mem_giveUp_entries he'
      · exact ended
      · rw [action] at needs
        rw [same]
        exact h.modest run here unneeded e he needs
    · intro e' he' unneeded
      obtain ⟨e, he, action, ended | same⟩ := mem_giveUp_entries he'
      · simp [ended]
      · rw [action] at unneeded
        rw [same]
        exact h.still run here e he unneeded
  abort := fun h _ => ⟨h.required, fun _ hrun => (by cases hrun), fun _ hrun => (by cases hrun)⟩

/--
A command that holds, presses or moves something is sent after a look at the window for its group that
found it active, or after which it had time to settle.
-/
theorem exists_look_of_acts (feed : φ) (engine : Engine) {target : Target} (required : target.requireFocus = true)
    (device : Device) (focus : Focus) {moves : List Move}
    (successive : (new feed engine target device focus).Successive moves) {before after : List Event} {call : Call}
    (seen : (new feed engine target device focus).journal moves = before ++ .called call :: after)
    (acts : call.command.acts = true) :
    ∃ first rest look sight, moves = first ++ rest ∧ before = (new feed engine target device focus).journal first ∧
      (new feed engine target device focus).LooksAt first call.group look sight ∧
      (sight = .active ∨ sight = .activated ∧ look.now + target.settleMs ≤ call.time) := by
  obtain ⟨first, mv, rest, w, run, e, rfl, rfl, sends⟩ := exists_sends seen acts
  obtain ⟨b, k, accepting, ledger, hm⟩ := sends.running
  obtain ⟨successive, -⟩ := successive_append.1 successive
  obtain ⟨lone, sound⟩ := lone_of_successive successive
  have hw := lone.worker hm (by simp)
  have here := Executor.run?_of_some hw
  have guards : Guards ((new feed engine target device focus).play first).single :=
    keeps_guards.play_new ⟨required, fun _ hrun => (by cases hrun), fun _ hrun => (by cases hrun)⟩ successive
      fun _ => trivial
  have mem := List.mem_of_getElem? sends.entry
  obtain ⟨progress, hpoll⟩ := sends.polled
  have needs : run.needsFocus = true :=
    Run.needsFocus_of_polled (guards.modest run here) mem (guards.still run here e mem) sends.ready hpoll acts
  obtain ⟨look, sight, looks, allowed⟩ := exists_look feed engine target device focus successive hm needs (by simp)
  rw [← sends.group] at looks
  refine ⟨first, mv :: rest, look, sight, rfl, rfl, looks, ?_⟩
  cases allowed with
  | active => exact .inl rfl
  | settled elapsed =>
    rcases elapsed with cancelled | passed
    · -- nothing of the kind is sent for an action that was cancelled meanwhile
      have spared := sends.not_cancelled acts
      rw [(sound _ _ _ hw).2.1 cancelled e mem] at spared
      cases spared
    · exact .inr ⟨rfl, sends.time ▸ passed⟩

end Crew

end Combo
