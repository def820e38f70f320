-- SUMMARY: With one worker at a time, a worker that leaves when told to leaves nothing behind, and what comes is as with a new executor.
import Combo.Proofs.Clockwork.Recall
import Combo.Proofs.Clockwork.Restart
import Combo.Proofs.Crew.Account
import Combo.Proofs.Crew.Release
import Combo.Proofs.Crew.Renewal
import Combo.Proofs.Crew.Rounds
import Combo.Proofs.Crew.View

/-!
# Stop and start again

Whoever waits for a worker to leave finds the executor as it was when it was new: what the worker keeps it takes
with it, the board is blank but for what nobody looks at, the phase is idle, and the record of commands is never
read. So a play after the stop is seen as one of a new executor.

This is so as long as no other worker is hired meanwhile. The slot is empty from the call to stop on, so a start
that does not wait hires a second worker, which goes on when the first one has left.
-/

namespace Combo

namespace Crew

variable {φ : Type} {c : Crew φ}

/-- An idle crew without any worker is seen as a new one with a record of commands. -/
theorem single_eq_renewed (gone : ∀ m ∈ c.members, m.post = .gone) (idle : c.board.phase = .idle) :
    c.single = c.renewed.single.recalling c.calls := by
  rw [single_of_gone gone, single_of_gone (c := c.renewed) fun m hm => by cases hm]
  simp [vacant, idle, Clockwork.recalling, Executor.recalling, renewed, new, calls]

/-- Who only remembers older commands looks the same. -/
theorem LooksLike.of_recalling {s : Clockwork φ} {older : List Call} (h : c.LooksLike (s.recalling older)) :
    c.LooksLike s where
  now := h.now
  phase := h.phase
  current := h.current
  keys := h.keys
  started := h.started
  quiet := h.quiet
  answers := fun r => by
    have answers : ((s.executor.recalling older).serve r).2 = (c.serve r).2 := h.answers r
    rwa [Executor.recalling_serve] at answers
  running := h.running
  reporting := h.reporting

variable [Feed φ]

theorem SeenAs.of_recalling {s : Clockwork φ} {older : List Call} {moves : List Move} {plain : List Combo.Move}
    (h : c.SeenAs moves (s.recalling older) plain) : c.SeenAs moves s plain := by
  obtain ⟨played, journal⟩ := Clockwork.recalling_play older s plain
  have looks := h.looks
  rw [played] at looks
  exact ⟨h.journal.trans journal, looks.of_recalling⟩

omit [Feed φ] in
/-- Workers that have left leave nothing over. -/
theorem drops_of_gone (gone : ∀ m ∈ c.members, m.post = .gone) (mv : Move) : c.drops mv = [] := by
  have nothing {worker : Nat} {m : Member} (hm : c.members[worker]? = some m) : m.leftovers worker = [] := by
    simp [Member.leftovers, gone m (List.mem_of_getElem? hm)]
  cases mv with
  | giveUp worker | abort worker =>
    simp only [drops]
    split
    · rename_i m hm
      simp [nothing hm]
    · rfl
  | _ => rfl

/-- Without any worker only what was given up is seen, and nobody comes back but by a start. -/
theorem rests_move (tidy : c.Tidy) (gone : ∀ m ∈ c.members, m.post = .gone) {mv : Move} (unstarted : mv ≠ .start) :
    (∀ n ∈ c.notes mv, ∃ l ∈ c.leftovers, l.IsReleasedBy n.event) ∧
      (∀ m ∈ (c.move mv).members, m.post = .gone) ∧ (c.move mv).leftovers ⊆ c.leftovers := by
  have left : ∀ (w : Nat) (m : Member), c.members[w]? = some m → m.post = .gone :=
    fun w m hm => gone m (List.mem_of_getElem? hm)
  refine ⟨fun n hn => ?_, fun m' hm' => ?_, fun l hl => ?_⟩
  · cases about : n.worker with
    | none => exact exists_leftover_of_notes hn about
    | some w =>
      obtain ⟨m, hm, there⟩ := exists_there_of_notes hn about
      exact absurd (left w m hm) there
  · obtain ⟨w, hw⟩ := List.mem_iff_getElem?.1 hm'
    have lt : w < c.members.length := by
      rw [← length_move unstarted]
      exact (List.getElem?_eq_some_iff.1 hw).1
    have hm : c.members[w]? = some c.members[w] := List.getElem?_eq_getElem lt
    obtain ⟨-, m'', hm'', left'⟩ := gone_move hm (left w _ hm) mv
    cases hw.symm.trans hm''
    exact left'
  · rcases mem_leftovers_move tidy hl with kept | dropped
    · exact kept
    · rw [drops_of_gone gone] at dropped
      cases dropped

theorem rests_play (tidy : c.Tidy) (gone : ∀ m ∈ c.members, m.post = .gone) {moves : List Move}
    (unstarted : .start ∉ moves) :
    (∀ e ∈ c.journal moves, ∃ l ∈ c.leftovers, l.IsReleasedBy e) ∧
      ∀ m ∈ (c.play moves).members, m.post = .gone := by
  induction moves generalizing c with
  | nil => exact ⟨by simp, gone⟩
  | cons mv moves ih =>
    simp only [List.mem_cons, not_or] at unstarted
    obtain ⟨released, gone', fewer⟩ := rests_move tidy gone (Ne.symm unstarted.1)
    obtain ⟨released', gone''⟩ := ih (tidy.move mv) gone' unstarted.2
    refine ⟨fun e he => ?_, gone''⟩
    rw [journal_cons] at he
    rcases List.mem_append.1 he with he | he
    · obtain ⟨n, hn, rfl⟩ := List.mem_map.1 he
      exact released n hn
    · obtain ⟨l, hl, releases⟩ := released' e he
      exact ⟨l, fewer hl, releases⟩

/-- A worker that has left has reported all of its groups, if it was not lost. -/
theorem isInTurn_of_gone {feed : φ} {engine : Engine} {target : Target} {device : Device} {focus : Focus}
    {moves : List Move} (gone : ∀ m ∈ ((new feed engine target device focus).play moves).members, m.post = .gone)
    (w : Nat) (whole : ∀ e ∈ (new feed engine target device focus).seen (· == some w) moves, e.isLoss = false) :
    IsInTurn ((new feed engine target device focus).seen (· == some w) moves) False := by
  obtain ⟨o, rounds, hin⟩ := exists_rounds_play feed engine target device focus w moves whole
  refine rounds.isInTurn fun opened => ?_
  obtain ⟨m, hm, there⟩ := exists_member_of_isIn hin opened
  exact there (gone m (List.mem_of_getElem? hm))

omit [Feed φ] in
/-- Without any worker the slot is empty and the board is blank. -/
theorem Lone.blank_of_gone {sent : List Sent} (lone : (c.trim sent).Lone) (gone : ∀ m ∈ c.members, m.post = .gone) :
    c.slot = Option.none ∧ c.board.IsBlank := by
  cases lone with
  | none _ slot _ blank => exact ⟨slot, blank⟩
  | @one old m members _ _ _ fits =>
    have members : c.members = old ++ [m] := members
    obtain ⟨b, k, post⟩ := m
    have left : post = .gone := gone ⟨b, k, post⟩ (by simp [members])
    subst left
    exact fits.elim

omit [Feed φ] in
/-- Without any worker what is gripped is left over. -/
theorem grips_of_gone (gone : ∀ m ∈ c.members, m.post = .gone) : c.grips = c.leftovers := by
  refine List.append_left_eq_self.2 (List.eq_nil_iff_forall_not_mem.2 fun l own => ?_)
  obtain ⟨m, hm, hl⟩ := exists_member_of_grip own
  obtain ⟨b, step, run, ledger, rfl, -⟩ := Member.exists_run_of_mem_leftovers hl
  cases gone _ (List.mem_of_getElem? hm)

theorem keeps_leavesIdle : Keeps (φ := φ)
    (fun j (s : Clockwork φ) => (∀ e ∈ j, e.isLoss = false) → s.LeavesIdle) True where
  blind := fun _ h whole => ⟨(h whole).lives, (h whole).idle⟩
  move := fun {j s m} h _ _ whole =>
    (Clockwork.turn_move m).leavesIdle (fun e he => whole e (List.mem_append_right _ he))
      (h fun e he => whole e (List.mem_append_left _ he))
  giveUp := fun _ _ _ _ _ _ => ⟨Clockwork.lives_of_some rfl (by simp), fun gone => by cases gone⟩
  abort := fun _ _ whole => by cases whole .aborted (by simp)

/-- A worker that lives leaves the phase idle when it is told to stop and leaves in its own time. -/
theorem Lone.idle_of_stop (lone : (c.trim c.sent).Lone) (started : c.isStarted = true)
    (alive : ∀ m ∈ c.members, m.post ≠ .crashed) {during : List Move}
    (successive : (c.move .stop).Successive during)
    (whole : ∀ e ∈ (c.move .stop).seen Option.isSome during, e.isLoss = false)
    (exits : ∀ m ∈ ((c.move .stop).play during).members, m.post = .gone) :
    ((c.move .stop).play during).board.phase = .idle := by
  have looks : c.LooksLike c.single := LooksLike.of_trim lone.looksLike
  have stopped : c.plainMove .stop = [.requestStop] := if_pos started
  obtain ⟨lone', told⟩ := lone.single_move rfl stopped
  have lives : c.single.Lives := by
    intro b hw
    obtain ⟨w, k, post, hm, stage⟩ := exists_member_of_worker hw
    cases post <;> cases stage
    exact alive _ (List.mem_of_getElem? hm) rfl
  have leaves : (c.move .stop).single.LeavesIdle :=
    told ▸ Clockwork.leavesIdle_requestStop lives (looks.started.trans started)
  have left := keeps_leavesIdle.play (j := []) lone' (fun _ => leaves) successive (fun _ => trivial) whole
  refine left.idle ?_
  rw [single_of_gone exits]
  rfl

/--
Whatever happened before, with one worker at a time: when a worker that did not die is told to stop, is not
taken away and leaves in its own time before another one is hired, every group that was handed out to it is
reported in full, and so is every group of an earlier worker that was not lost. No action of a worker is left, no
key and no group is shown, the phase is idle, and the executor is not started. The device holds what was given up
and is yet to be let go, and the inputs that it refused to let up. Until the next start nothing else is seen in
any play. In every play that follows, however many workers it hires, whatever the executor does, shows and answers
is as with a newly built one that numbers its workers on and lets go of what was given up; and when the workers
follow one another and give nothing up, it is as with a newly built system of a single worker.
-/
theorem stop_leaves_nothing (feed : φ) (engine : Engine) (target : Target) (device : Device) (focus : Focus)
    (earlier during : List Move)
    (successive : (new feed engine target device focus).Successive (earlier ++ .stop :: during))
    (started : ((new feed engine target device focus).play earlier).isStarted = true)
    (alive : ∀ m ∈ ((new feed engine target device focus).play earlier).members, m.post ≠ .crashed)
    (whole : ∀ e ∈ (((new feed engine target device focus).play earlier).move .stop).seen Option.isSome during,
      e.isLoss = false)
    (exits : ∀ m ∈ ((new feed engine target device focus).play (earlier ++ .stop :: during)).members,
      m.post = .gone) :
    let start := new feed engine target device focus
    let moves := earlier ++ .stop :: during
    let c := start.play moves
    (∀ w, (∀ e ∈ start.seen (· == some w) moves, e.isLoss = false) →
      IsInTurn (start.seen (· == some w) moves) False) ∧
    (c.entries = [] ∧ c.keys = [] ∧ c.board.current = none) ∧
    (c.held.Perm (c.leftovers.map (·.input) ++ c.executor.stuck) ∧
      (c.leftovers = [] → c.ReleasesDone → c.held = [])) ∧
    (c.board.phase = .idle ∧ c.isStarted = false) ∧
    (∀ later, .start ∉ later → ∀ e ∈ c.journal later, ∃ l ∈ c.leftovers, l.IsReleasedBy e) ∧
    (∀ later, c.refreshed.record later = c.record later ∧ (c.play later).Alike (c.refreshed.play later)) ∧
    ∀ later, c.Orderly later → c.SeenAs later c.renewed.single (c.plain later) := by
  intro start moves c
  obtain ⟨before, -, meanwhile⟩ := successive_append.1 successive
  obtain ⟨lone, -⟩ := lone_of_successive before
  have trimmed : (c.trim c.sent).Lone := (lone_of_successive successive).1
  have last : ((start.play earlier).move .stop).play during = c := by simp only [c, moves, play_append, play_cons]
  obtain ⟨slot, blank⟩ := trimmed.blank_of_gone exits
  have idle : c.board.phase = .idle := by
    rw [← last]
    exact lone.idle_of_stop started alive meanwhile whole (last ▸ exits)
  have perm : c.held.Perm (c.leftovers.map (·.input) ++ c.executor.stuck) := by
    rw [← grips_of_gone exits]
    exact perm_stuck_play feed engine target device focus moves
  refine ⟨isInTurn_of_gone exits, ⟨?_, ?_, blank.current⟩, ⟨perm, fun free released => ?_⟩,
    ⟨idle, by simp [isStarted, slot]⟩, fun later unstarted => ?_, fun later => ?_, fun later orderly => ?_⟩
  · exact List.flatMap_eq_nil_iff.2 fun m hm => by rw [exits m hm]
  · simp [keys, blank.listings]
  · have stuck : c.executor.stuck = [] := Executor.stuck_of_releasesDone released
    rw [free, stuck] at perm
    exact List.perm_nil.1 perm
  · exact (rests_play (tidy_play feed engine target device focus moves) exits unstarted).1
  · have stands : start.GateStands := fun w opened => by cases opened
    exact refreshed_play exits (stands.play moves) slot idle blank later
  · have seen := trimmed.seenAs orderly
    rw [single_eq_renewed exits idle] at seen
    exact seen.of_recalling

/-- A supply with a walk and a jump after it. -/
def walkThenJump : Supply where
  pending := [⟨0, ⟨[⟨.moveForward, some "2", 2.0⟩], 2.0⟩⟩, ⟨1, ⟨[⟨.jump, none, 0.05⟩], 0.05⟩⟩]

/-- The walk is held, and another jump is layered onto it. -/
def untilLayered : List Move :=
  [.start, .work 0, .work 0, .work 0, .work 0, .work 0, .poll 0 0, .request (.layer ⟨[⟨.jump, none, 0.05⟩], 0.05⟩)]

/-- The walk is let go, the layered jump is not made, and the worker leaves after the report. -/
def untilGone : List Move :=
  [.poll 0 0, .join 0 0, .work 0, .poll 0 1, .join 0 1, .work 0, .work 0, .work 0, .work 0, .work 0]

/-- Another worker is hired and makes the next group. -/
def startAgain : List Move := [.start, .work 1, .work 1, .work 1, .work 1, .work 1, .poll 1 0]

/-- Two workers are hired, of which the first is stopped before it asks. -/
def startTwice : List Move := [.start, .stop, .start, .work 1, .work 2, .work 2]

/-- After a stop in the midst of the walk the jump behind it is handed out as if nothing had been. -/
theorem stop_leaves_nothing_walkThenJump :
    let start := new walkThenJump {} {} {} {}
    let c := start.play (untilLayered ++ .stop :: untilGone)
    start.Successive (untilLayered ++ .stop :: untilGone) ∧ (start.play untilLayered).isStarted = true ∧
      (∀ m ∈ (start.play untilLayered).members, m.post ≠ .crashed) ∧
      (∀ e ∈ ((start.play untilLayered).move .stop).seen Option.isSome untilGone, e.isLoss = false) ∧
      (∀ m ∈ c.members, m.post = .gone) ∧
      c.calls.map (·.command) = [.down .forward, .up .forward] ∧ c.held = [] ∧
      c.seen Option.isSome startAgain = c.renewed.single.journal (c.plain startAgain) ∧
      c.seen Option.isSome startAgain = [.asked 0 (.group ⟨1, ⟨[⟨.jump, none, 0.05⟩], 0.05⟩⟩),
        .called ⟨0, 1, 0, .press .jump, .done⟩] ∧
      c.refreshed.record startTwice = c.record startTwice ∧
      c.record startTwice =
        [⟨some 1, .left⟩, ⟨some 2, .asked 0 (.group ⟨1, ⟨[⟨.jump, none, 0.05⟩], 0.05⟩⟩)⟩] := by
  intro start c
  have successive : start.Successive (untilLayered ++ .stop :: untilGone) := by decide +kernel
  have started : (start.play untilLayered).isStarted = true := by decide +kernel
  have alive : ∀ m ∈ (start.play untilLayered).members, m.post ≠ .crashed := by decide +kernel
  have whole : ∀ e ∈ ((start.play untilLayered).move .stop).seen Option.isSome untilGone, e.isLoss = false := by
    decide +kernel
  have exits : ∀ m ∈ c.members, m.post = .gone := by decide +kernel
  have free : c.leftovers = [] := by decide +kernel
  have released : c.ReleasesDone := by
    unfold ReleasesDone
    decide +kernel
  have again : c.Orderly startAgain := by decide +kernel
  obtain ⟨-, -, ⟨-, held⟩, -, -, refreshed, renewed⟩ :=
    stop_leaves_nothing walkThenJump {} {} {} {} untilLayered untilGone successive started alive whole exits
  exact ⟨successive, started, alive, whole, exits, by decide +kernel, held free released,
    (renewed startAgain again).journal, by decide +kernel, (refreshed startTwice).1, by decide +kernel⟩

/-- A start that does not wait for the worker to leave hires another one, which goes on when the first is gone. -/
example :
    let c := (new walkThenJump {} {} {} {}).play
      (untilLayered ++ [.stop, .start] ++ untilGone ++ [.work 1, .work 1, .work 1, .work 1, .work 1, .poll 1 0])
    c.members[0]?.any (·.post == .gone) = true ∧ c.isStarted = true ∧ c.board.phase = .running ∧
      c.calls.map (·.command) = [.down .forward, .up .forward, .press .jump] := by
  decide +kernel

end Crew

end Combo
