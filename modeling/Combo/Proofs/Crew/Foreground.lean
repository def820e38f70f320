-- SUMMARY: With one worker at a time, no input is sent before the window was seen to; a group of pauses never looks, and one that cannot get the focus sends nothing.
import Combo.Crew.Schedule
import Combo.Proofs.Clockwork.Pauses
import Combo.Proofs.Crew.Backoff

/-!
# The window comes first

Where the focus is required, the window is looked at in the run of every group that sends input, and is active
or has settled before the first command. A group that cannot get the focus sends nothing and costs a rest. A group of
pauses goes without a look, and stays so: what needs the focus is not layered onto it.

All of this is about one worker at a time. Two workers share the token and the gate, so that the look of one
of them says nothing of the actions that are layered onto the group of the other.
-/

namespace Combo

namespace Crew

variable {φ : Type} [Feed φ] {c : Crew φ}

/-- As long as only events of a group of pauses are seen, the worker is at it and does not look at the window. -/
theorem keeps_atPauses (t : Ticket) :
    Keeps (fun j (s : Clockwork φ) => (∀ e ∈ j, e.isOf t.id = true) → s.AtPauses t ∧
      s.executor.target.requireFocus = true ∧
        ∀ g, .layered g ∈ j → ∀ a ∈ g.actions, a.kind.needsFocus = false) True where
  blind := fun calls h own => by
    obtain ⟨at_, required, layered⟩ := h own
    refine ⟨?_, required, layered⟩
    cases at_ with
    | taken hw pauses => exact .taken hw pauses
    | running running unneeded away => exact .running running unneeded away
    | reporting reporting => exact .reporting reporting
  move := fun {j s m} h _ _ own => by
    obtain ⟨at_, required, layered⟩ := h fun e he => own e (List.mem_append_left _ he)
    have turn := Clockwork.turn_move (s := s) m
    obtain ⟨at_', layered'⟩ := at_.turn required turn fun e he => own e (List.mem_append_right _ he)
    refine ⟨at_', turn.target ▸ required, fun g hg => ?_⟩
    exact (List.mem_append.1 hg).elim (layered g) (layered' g)
  giveUp := fun _ h hw _ _ own => by
    obtain ⟨at_, required, layered⟩ := h own
    exact ⟨at_.giveUp hw rfl, required, layered⟩
  abort := fun _ _ own => nomatch own .aborted (by simp)

/--
Where the focus is required, whatever happens with one worker at a time: a command that holds or presses an input or
moves the mouse is sent for a group at whose window the worker looked in the same run before, and found it active,
or could activate it and let it settle in full.

When activating the window fails, nothing was seen of the group since it was handed out, and the next that is
seen of the workers is its report, unless the worker was told to stop and is taken away; it gives each action that was
not cancelled at dispatch as failed. Unless the worker is told to stop, its steps and time alone, with what was given
up before letting go, bring it to ask for the next group, at the instant at which the rest is over and no other.

When all actions of a group that interrupts spare are pauses, then until the group is handed in no worker looks at
the window, and only pauses are layered onto the group.
-/
theorem no_input_unseen (feed : φ) (engine : Engine) {target : Target} (required : target.requireFocus = true)
    (device : Device) (focus : Focus) (moves : List Move)
    (successive : (new feed engine target device focus).Successive moves) :
    let start := new feed engine target device focus
    let c := start.play moves
    (∀ before call after, start.journal moves = before ++ .called call :: after → call.command.acts = true →
      ∃ first rest look sight, moves = first ++ rest ∧ before = start.journal first ∧
        start.LooksAt first call.group look sight ∧
        (sight = .active ∨ sight = .activated ∧ look.now + target.settleMs ≤ call.time)) ∧
    (∀ (w : Nat) (b : Bool) (k : Nat) (run : Run) (ledger : Ledger) (fault : InputError),
      c.members[w]? = some ⟨b, k, .running .focusing run ledger⟩ → c.focus.sight = .failed fault →
      (∃ t, t.id = run.id ∧ Clockwork.HandedLast (start.seen Option.isSome moves) t) ∧
      ∀ later, (c.move (.work w)).Successive later →
        let j := (c.move (.work w)).seen Option.isSome later
        (j = [] ∨ ((b = true ∨ .stop ∈ later) ∧ ∃ after, j = .aborted :: after) ∨
          ∃ report after, report.IsUnfocused run fault.message ∧ j = .reported report :: after) ∧
        (b = false → .stop ∉ later →
          ∃ rest report handout after, (∀ mv ∈ rest, mv.isOnward = true) ∧ report.IsUnfocused run fault.message ∧
            (c.move (.work w)).seen Option.isSome (later ++ rest) =
              .reported report :: .asked (c.now + engine.backoffMs) handout :: after)) ∧
    ∀ (w : Nat) (b : Bool) (k : Nat) (t : Ticket), c.members[w]? = some ⟨b, k, .taken t⟩ →
      (∀ a ∈ t.group.actions, c.board.deferred.hits a = false → a.kind.needsFocus = false) →
      ∀ later, c.Successive later → (∀ e ∈ c.seen Option.isSome later, e.isOf t.id = true) →
        (∀ m ∈ (c.play later).members, ∀ run ledger, m.post ≠ .running .focusing run ledger) ∧
        ∀ g, .layered g ∈ c.seen Option.isSome later → ∀ a ∈ g.actions, a.kind.needsFocus = false := by
  intro start c
  obtain ⟨lone, -⟩ := lone_of_successive successive
  obtain ⟨engine_c, target_c⟩ : c.engine = engine ∧ c.target = target := settings_play start moves
  refine ⟨fun before call after seen acts =>
      exists_look_of_acts feed engine required device focus successive seen acts,
    fun w b k run ledger fault hm failed => ?_, fun w b k t hm pauses later successive' own => ?_⟩
  · have unseen : c.single.Unseen (start.seen Option.isSome moves) :=
      keeps_unseen.play_new ⟨fun _ _ _ hw => (by cases hw), fun _ ⟨_, hw⟩ => (by cases hw)⟩ successive
        fun _ => trivial
    obtain ⟨unbegun, handed⟩ := unseen.focusing run ⟨b, lone.worker hm (by simp)⟩
    refine ⟨handed, fun later successive' => ⟨?_, fun awake calm => ?_⟩⟩
    · exact (lone.backsOff hm unbegun failed successive' .inl .inr).seen
    · have never : b = true ∨ Move.stop ∈ later → False := fun told => by
        rcases told with rfl | stop
        · cases awake
        · exact calm stop
      have path := lone.backsOff hm unbegun failed successive' (fun stop => never (.inl stop))
        fun stop => never (.inr stop)
      let last := (c.move (.work w)).play later
      have lone' : (last.trim last.sent).Lone := ((lone.trim_move rfl).successive_play successive').trim_trim
      have engine' : last.engine = c.engine :=
        (settings_play _ later).1.trans (settings_move c _).1
      obtain ⟨rest, report, handout, after, onward, tells, seen⟩ := lone'.asks path (by rw [engine'])
      refine ⟨rest, report, handout, after, onward, tells, ?_⟩
      rw [seen_append, seen, engine_c]
  · have at_ : c.single.AtPauses t := .taken (lone.worker hm (by simp)) pauses
    have required' : c.target.requireFocus = true := by rw [target_c, required]
    obtain ⟨at_', -, layered⟩ := (keeps_atPauses t).play (j := []) lone
      (fun _ => ⟨at_, required', fun _ hg => (by cases hg)⟩) successive' (fun _ => trivial) own
    refine ⟨fun m hm' run' ledger' looks => ?_, layered⟩
    obtain ⟨w', hw'⟩ := List.mem_iff_getElem?.1 hm'
    obtain ⟨b', k', post⟩ := m
    subst looks
    have looking := ((lone.successive_play successive').running .focusing run').2 ⟨w', b', k', ledger', hw'⟩
    obtain ⟨b₁, hw₁⟩ := looking
    cases at_'.sight?.symm.trans (Clockwork.sight?_of_some hw₁)

/-- A group of one jump. -/
def jumpOf (id : Nat) : Ticket := ⟨id, ⟨[⟨.jump, none, 0.05⟩], 0.05⟩⟩

/-- The worker is about to look at the window for the first group. -/
def untilLook : List Move := [.start, .work 0, .work 0, .work 0]

/-- The look fails, the worker rests, and for the second group the window is activated and settles. -/
def untilSettled : List Move :=
  untilLook ++ [.work 0, .work 0, .work 0, .tick, .tick, .work 0, .setFocus false false, .work 0, .work 0, .work 0,
    .tick, .tick, .work 0, .work 0]

/-- When the feed crashes on the worker after its rest, no other group comes, though nobody told the worker to stop. -/
theorem no_group_after_crash :
    let start := new ({ pending := [jumpOf 0, jumpOf 1], interjections := [(1, .crash)] } : Supply) { backoffMs := 2 }
      { settleMs := 2 } {} { active := false, failing := true }
    let moves := untilLook ++ [.work 0, .work 0, .work 0, .tick, .tick, .work 0, .work 0]
    let c := start.play moves
    start.Successive moves ∧
      start.journal moves = [.asked 0 (.group (jumpOf 0)),
        .reported ⟨0, (jumpOf 0).group,
          [⟨⟨.jump, none, 0.05⟩, .failed (InputError.windowNotFound "mock").message⟩], false⟩, .asked 2 .crash] ∧
      c.members = [⟨false, 1, .crashed⟩] ∧ c.isStarted = true ∧ c.nextMove? = none ∧ c.move .start = c := by
  decide +kernel

/-- The first jump fails with the window, and the second is made when the window has settled. -/
theorem no_input_unseen_secondJump :
    let start := new ({ pending := [jumpOf 1, jumpOf 2] } : Supply) { backoffMs := 2 } { settleMs := 2 } {}
      { active := false, failing := true }
    let c := start.play untilLook
    let run := Run.dispatch true {} (jumpOf 1)
    let fault := InputError.windowNotFound "mock"
    start.Successive untilLook ∧ start.Successive (untilSettled ++ [.poll 0 0]) ∧
      c.members[0]? = some ⟨false, 1, .running .focusing run {}⟩ ∧ c.focus.sight = .failed fault ∧
      (∃ rest report handout after, (∀ mv ∈ rest, mv.isOnward = true) ∧ report.IsUnfocused run fault.message ∧
        (c.move (.work 0)).seen Option.isSome rest = .reported report :: .asked 2 handout :: after) ∧
      start.journal (untilSettled ++ [.poll 0 0]) =
        start.journal untilSettled ++ [.called ⟨4, 2, 0, .press .jump, .done⟩] ∧
      ∃ first look sight, start.LooksAt first 2 look sight ∧
        (sight = .active ∨ sight = .activated ∧ look.now + 2 ≤ 4) := by
  intro start c run fault
  have first : start.Successive untilLook := by decide +kernel
  have second : start.Successive (untilSettled ++ [.poll 0 0]) := by decide +kernel
  have hm : c.members[0]? = some ⟨false, 1, .running .focusing run {}⟩ := by decide +kernel
  have failed : c.focus.sight = .failed fault := by decide +kernel
  have seen : start.journal (untilSettled ++ [.poll 0 0]) =
      start.journal untilSettled ++ [.called ⟨4, 2, 0, .press .jump, .done⟩] := by decide +kernel
  refine ⟨first, second, hm, failed, ?_, seen, ?_⟩
  · obtain ⟨-, follows, -⟩ := no_input_unseen _ { backoffMs := 2 } rfl {} _ untilLook first
    obtain ⟨-, follows⟩ := follows 0 false 1 run {} fault hm failed
    exact (follows [] trivial).2 rfl (by simp)
  · obtain ⟨looked, -⟩ := no_input_unseen _ { backoffMs := 2 } rfl {} _ (untilSettled ++ [.poll 0 0]) second
    obtain ⟨first, -, look, sight, -, -, looks, found⟩ := looked _ _ _ seen rfl
    exact ⟨first, look, sight, looks, found⟩

/--
With a second worker it is otherwise. The first one was told to stop while the window settles, and opens its group
for layering, where the second one's token counts: a jump is layered on and made, though the window is yet to settle.
-/
example :
    let start := new ({ pending := [jumpOf 1, jumpOf 2] } : Supply) {} { settleMs := 2 } {} { active := false }
    let moves := untilLook ++ [.work 0, .stop, .start, .work 1, .work 1, .work 1, .work 0, .work 0, .work 1,
      .request (.layer (jumpOf 3).group), .work 0, .poll 0 1]
    (start.play moves).now = 0 ∧ (start.play moves).calls = [⟨0, 1, 1, .press .jump, .done⟩] := by
  decide +kernel

end Crew

end Combo
