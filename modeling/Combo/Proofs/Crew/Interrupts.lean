-- SUMMARY: An interrupt of everything is final for the group, also where its actions are given up and the worker is taken away.
import Combo.Proofs.Clockwork.Finality
import Combo.Proofs.Crew.Apart
import Combo.Proofs.Crew.Deadline
import Combo.Proofs.Crew.Sends
import Combo.Proofs.Crew.Windup

/-!
# Interrupts are final for a crew

When everything is interrupted while one worker is at a run, all of its actions are
cancelled, and nothing of it is on the board any more. That stays so whatever comes of the
run: it may be wound up, its actions may be given up, or its worker may be taken
away. So nothing that is shown later, and no command that does something, is of that group;
`IsQuelled` follows this worker by worker. What the report tells of the
actions holds only for a run that is wound up.
-/

namespace Combo

/-- Whether a group with a number was handed out in the course of some events. -/
def IsHanded (j : List Event) (id : Nat) : Prop := ∃ t now, t.id = id ∧ .asked now (.group t) ∈ j

theorem IsHanded.append {j : List Event} {id : Nat} (h : IsHanded j id) (es : List Event) :
    IsHanded (j ++ es) id := by
  obtain ⟨t, now, hid, asked⟩ := h
  exact ⟨t, now, hid, List.mem_append_left _ asked⟩

namespace Member

variable {j es es' : List Event} {m m' : Member}

/--
Whether a worker is at no run but a cancelled one, and has no report but that of an interrupted one, if the
group was not handed out in the course of some events.
-/
def IsQuelled (j : List Event) (m : Member) : Prop :=
  match m.post with
  | .taken t => IsHanded j t.id
  | .running _ run _ => run.cancelled = true ∨ IsHanded j run.id
  | .reporting report _ => report.interrupted = true ∨ IsHanded j report.id
  | _ => True

theorem Fares.isQuelled (fares : m.Fares es m') (h : m.IsQuelled j) (within : es ⊆ es') :
    m'.IsQuelled (j ++ es') := by
  have stays {id : Nat} (handed : IsHanded j id) : IsHanded (j ++ es') id := handed.append es'
  cases fares with
  | @told b b' k post =>
    cases post with
    | taken t => exact stays h
    | running step run ledger => exact h.imp_right stays
    | reporting report faulty => exact h.imp_right stays
    | _ => trivial
  | hand now t => exact ⟨t, now, rfl, List.mem_append_right _ (within (List.mem_singleton_self _))⟩
  | dispatch id =>
    refine .inr ?_
    rw [id]
    exact stays h
  | go onward | layer g onward => exact h.imp onward.cancelled fun handed => onward.id ▸ stays handed
  | handIn top => rcases top with rfl | ⟨due, rfl⟩ <;> trivial
  | crash now dead => rcases dead with rfl | rfl <;> trivial
  | finish => exact h.imp (fun cancelled => by simp [Run.report, cancelled]) stays
  | bury | leave | begin | miss => trivial

theorem Spends.isQuelled {now : Nat} {device : Device} (spends : m.Spends now device es m')
    (h : m.IsQuelled j) : m'.IsQuelled (j ++ es') := by
  cases spends with
  | poll | giveUp => exact h.imp_right fun handed => handed.append es'
  | abort => trivial

end Member

namespace Crew

variable {φ : Type} [Feed φ] {c : Crew φ} {w k : Nat} {b : Bool} {step : Step} {run : Run} {ledger : Ledger}

/-- As long as nobody dispatches a group that was handed out before, all stay quelled. -/
theorem isQuelled_play (h : ∀ m ∈ c.members, m.IsQuelled []) (moves : List Move) :
    ∀ m ∈ (c.play moves).members, m.IsQuelled (c.journal moves) := by
  induction moves using List.reverseRecOn with
  | nil => exact h
  | append_singleton moves mv ih =>
    intro m' hm'
    rw [play_append, play_cons, play_nil] at hm'
    have seen : c.journal (moves ++ [mv]) =
        c.journal moves ++ ((c.play moves).notes mv).map (·.event) := by
      simp [journal_append]
    rw [seen]
    obtain ⟨w, hw⟩ := List.mem_iff_getElem?.1 hm'
    cases hm : (c.play moves).members[w]? with
    | none =>
      rcases hired_move hm mv with nobody | hired
      · cases nobody.symm.trans hw
      · cases hired.symm.trans hw
        trivial
    | some m =>
      have before := ih m (List.mem_of_getElem? hm)
      obtain ⟨m'', hm'', goes⟩ := allGoOn mv w m hm
      cases hw.symm.trans hm''
      rcases goes with fares | spends
      · refine fares.isQuelled before fun e he => ?_
        obtain ⟨n, hn, rfl⟩ := List.mem_map.1 he
        exact List.mem_map_of_mem (List.mem_filter.1 hn).1
      · exact spends.isQuelled before

/-- To interrupt everything cancels the run of a lone worker. -/
theorem isQuelled_interruptAll (lone : (c.trim c.sent).Lone)
    (hm : c.members[w]? = some ⟨b, k, .running step run ledger⟩) :
    let c' := c.move (.request .interruptAll)
    (∀ m ∈ c'.members, m.IsQuelled []) ∧
      ∃ ledger', c'.members[w]? = some ⟨b, k, .running step run.interruptAll.1 ledger'⟩ := by
  cases lone with
  | none gone => cases gone _ (List.mem_of_getElem? hm)
  | @one old m members gone slot _ fits =>
    have members : c.members = old ++ [m] := members
    obtain ⟨rfl, rfl⟩ := eq_last_of_there gone (members ▸ hm) (by simp)
    have served := interruptAll_seat (c := c) gone fits
    rw [seat_self members] at served
    simp only [move, serve, served]
    refine ⟨fun m hm => ?_, ledger, getElem?_seat⟩
    rcases List.mem_append.1 hm with hm | hm
    · obtain ⟨b', k', post⟩ := m
      obtain rfl : post = .gone := gone _ hm
      trivial
    · rw [List.mem_singleton.1 hm]
      exact .inl rfl

/-! ## What is shown -/

/-- Whether a crew shows no group, and takes none in. -/
structure ShowsNothing (c : Crew φ) : Prop where
  keys : c.keys = []
  current : c.board.current = none
  refuses : ∀ g, (c.layer g).2 = false

omit [Feed φ] in
/-- Where a single worker shows nothing, a crew that looks like it shows nothing. -/
theorem LooksLike.showsNothing {s : Clockwork φ} (looks : c.LooksLike s) (h : s.executor.ShowsNothing) :
    c.ShowsNothing where
  keys := looks.keys.symm.trans h.keys
  current := looks.current.symm.trans h.current
  refuses := fun g => by
    have answer := looks.answers (.layer g)
    simp only [Executor.serve, h.refuses g, serve] at answer
    exact (Answer.accepted.inj answer).symm

omit [Feed φ] in
/-- While all are quelled, a lone worker shows nothing but the run of a group that was handed out since. -/
theorem showsNothing_of_isQuelled {j : List Event} (lone : (c.trim c.sent).Lone)
    (sound : c.single.executor.Sound) (quelled : ∀ m ∈ c.members, m.IsQuelled j) :
    c.ShowsNothing ∨ ∃ (w : Nat) (b : Bool) (k : Nat) (step : Step) (run : Run) (ledger : Ledger),
      c.members[w]? = some ⟨b, k, .running step run ledger⟩ ∧ IsHanded j run.id ∧
        ∀ g, (c.layer g).2 = true → step = .joining true := by
  have looks : c.LooksLike c.single := lone.looksLike.of_trim
  cases hrun : c.single.executor.run? with
  | none => exact .inl (looks.showsNothing (Clockwork.showsNothing_of_not_running hrun))
  | some run =>
    obtain ⟨step, running⟩ := Clockwork.exists_isRunning hrun
    obtain ⟨w, b, k, ledger, hm⟩ := (looks.running step run).1 running
    rcases quelled _ (List.mem_of_getElem? hm) with cancelled | handed
    · exact .inl (looks.showsNothing (Clockwork.showsNothing_of_cancelled sound running cancelled))
    · refine .inr ⟨w, b, k, step, run, ledger, hm, handed, fun g accepted => ?_⟩
      rcases layer_cases g c with refused | ⟨w', b', k', run', ledger', _, _, -, hm', -, -⟩
      · rw [refused] at accepted
        cases accepted
      · obtain ⟨-, same⟩ := lone.unique hm (by simp) hm' (by simp)
        cases same
        rfl

/-! ## What is reported -/

/-- Whether one of the workers has a report to hand in. -/
def HasReport (c : Crew φ) (report : Report) : Prop :=
  ∃ (w : Nat) (b : Bool) (k : Nat) (faulty : Bool), c.members[w]? = some ⟨b, k, .reporting report faulty⟩

/-- What is reported is a report that a worker had to hand in. -/
theorem exists_report_of_notes {mv : Move} {n : Note} (hn : n ∈ c.notes mv) {report : Report}
    (reported : n.event = .reported report) : c.HasReport report := by
  cases reveals_of_notes hn with
  | reported hm =>
    cases reported
    exact ⟨_, _, _, _, hm⟩
  | asked | left | called | letGo | aborted | layered => cases reported

/-- A report that comes from a quelled worker is that of an interrupted group, or of one handed out since. -/
theorem interrupted_of_reported {moves : List Move} {before after : List Event} {report : Report}
    (quelled : ∀ m ∈ c.members, m.IsQuelled [])
    (seen : c.journal moves = before ++ .reported report :: after) :
    report.interrupted = true ∨ IsHanded before report.id := by
  obtain ⟨first, mv, rest, pre, post, rfl, hnotes, rfl⟩ := exists_move_of_journal seen
  obtain ⟨n, hn, reported⟩ := exists_note_of_notes hnotes
  obtain ⟨w, b, k, faulty, hm⟩ := exists_report_of_notes hn reported
  exact (isQuelled_play quelled first _ (List.mem_of_getElem? hm)).imp_right fun handed => handed.append pre

section Interrupted

variable {feed : φ} {engine : Engine} {target : Target} {device : Device} {focus : Focus}
  {earlier : List Move}
  (successive : (new feed engine target device focus).Successive earlier)
  (member : ((new feed engine target device focus).play earlier).members[w]? =
    some ⟨b, k, .running step run ledger⟩) (looked : step ≠ .focusing)
include successive member looked

/-- An interrupted group is reported as it was cut short, or its worker is still at the cancelled run. -/
theorem cut_short_or_running (later : List Move) :
    let c := ((new feed engine target device focus).play earlier).move (.request .interruptAll)
    c.Orderly later → (∀ e ∈ c.seen Option.isSome later, e.isLoss = false) →
      ((c.play later).now = c.now ∧ (c.play later).isQuiet = false ∧
        (∀ e ∈ c.seen Option.isSome later, e.isOf run.id = true) ∧
        ∃ (w : Nat) (b : Bool) (k : Nat) (step' : Step) (run' : Run) (ledger' : Ledger),
          (c.play later).members[w]? = some ⟨b, k, .running step' run' ledger'⟩ ∧
          step' ≠ .focusing ∧ run'.cancelled = true ∧ run'.Coherent) ∨
      ∃ report es, report.IsCutShort run es ∧ ((c.seen Option.isSome later = es ∧ (c.play later).HasReport report) ∨
        ∃ after, c.seen Option.isSome later = es ++ .reported report :: after) := by
  intro c orderly whole
  obtain ⟨lone, sound⟩ := lone_of_successive successive
  have plain : ((new feed engine target device focus).play earlier).plainMove (.request .interruptAll) =
      [.request .interruptAll] := rfl
  obtain ⟨lone', interrupted⟩ := lone.single_move rfl plain
  have seen := lone'.seenAs orderly
  have running : ((new feed engine target device focus).play earlier).single.IsRunning step run :=
    ⟨b, lone.worker member (by simp)⟩
  rw [seen.journal] at whole ⊢
  have final := (Clockwork.interrupt_final sound running looked (c.plain later)).2.1
  rw [← interrupted] at final
  rcases final whole with
    ⟨now, busy, own, ⟨step', run', running', cancelled, looked'⟩, -⟩ | ⟨during, rest, report, -, cut, handed⟩
  · obtain ⟨w', b', k', ledger', hm⟩ := (seen.looks.running step' run').1 running'
    obtain ⟨sent', lone'', -⟩ := lone'.trim_play orderly
    have shows : (c.play later).board.Shows b' ⟨w', k'⟩ step' run' ledger' :=
      lone''.fits_of_member hm (by simp)
    refine .inl ⟨seen.looks.now.symm.trans now, ?_, own, w', b', k', step', run', ledger', hm, looked', cancelled,
      shows.coherent⟩
    cases quiet : (c.play later).isQuiet with
    | false => rfl
    | true =>
      rw [seen.looks.quiet quiet] at busy
      cases busy
  · refine .inr ⟨report, _, cut, handed.imp_left fun ⟨same, reporting⟩ => ⟨same, ?_⟩⟩
    exact (seen.looks.reporting report).1 reporting

/-- An interrupted group is reported as it was cut short, or its worker can make that report without delay. -/
theorem cut_short_play (later : List Move) :
    let c := ((new feed engine target device focus).play earlier).move (.request .interruptAll)
    c.Orderly later → (∀ e ∈ c.seen Option.isSome later, e.isLoss = false) →
      ((c.play later).now = c.now ∧ (c.play later).isQuiet = false ∧
        ∃ moves report, (∀ mv ∈ moves, mv.isDuty = true) ∧ (c.play (later ++ moves)).HasReport report ∧
          report.IsCutShort run (c.seen Option.isSome (later ++ moves))) ∨
      ∃ report es, report.IsCutShort run es ∧ ((c.seen Option.isSome later = es ∧ (c.play later).HasReport report) ∨
        ∃ after, c.seen Option.isSome later = es ++ .reported report :: after) := by
  intro c orderly whole
  refine (cut_short_or_running successive member looked later orderly whole).imp_left
    fun ⟨now, busy, own, w', b', k', step', run', ledger', hm, looked', cancelled, coherent⟩ => ?_
  obtain ⟨report, faulty, moves, duties, called, hm'⟩ := comes_of_cancelled hm looked' cancelled coherent
  rw [← play_append] at hm'
  refine ⟨now, busy, moves, report, duties, ⟨w', b', k', faulty, hm'⟩, ?_⟩
  have orderly' : c.Orderly (later ++ moves) := orderly_append.2 ⟨orderly, orderly_of_duties duties⟩
  -- nothing is seen up to the report but the commands and layered groups of the run
  have unreported : ∀ e ∈ c.seen Option.isSome (later ++ moves),
      e.isLoss = false ∧ ∀ report, e ≠ .reported report := by
    intro e he
    rw [seen_append] at he
    rcases List.mem_append.1 he with he | he
    · refine ⟨whole e he, fun report reported => ?_⟩
      subst reported
      cases own _ he
    · obtain ⟨call, rfl⟩ := called e (mem_journal_of_seen he)
      exact ⟨rfl, by simp⟩
  obtain ⟨lone, -⟩ := lone_of_successive successive
  obtain ⟨sent', lone', -⟩ := (lone.trim_move rfl).trim_play orderly'
  rcases cut_short_or_running successive member looked (later ++ moves) orderly'
      fun e he => (unreported e he).1 with
    ⟨-, -, -, w'', b'', k'', step'', run'', ledger'', hm'', -⟩ |
      ⟨report', es, cut, ⟨same_seen, reporting⟩ | ⟨after, handed⟩⟩
  · obtain ⟨-, same⟩ := lone'.unique hm' (by simp) hm'' (by simp)
    cases same
  · obtain ⟨w'', b'', k'', faulty', hm''⟩ := reporting
    obtain ⟨-, same⟩ := lone'.unique hm' (by simp) hm'' (by simp)
    cases same
    rw [same_seen]
    exact cut
  · exact absurd rfl ((unreported (.reported report') (by rw [handed]; simp)).2 report')

end Interrupted

/--
When everything is interrupted while a lone worker is at a run, and not just about to look at the window, no
command that holds or presses an input or moves the mouse is sent after it but for a group handed out
since, and whatever else is reported is marked as interrupted. Until another group is handed out and
dispatched no keys and no group are shown, and nothing is layered; and then only onto that group
once it is joined.

Unless the worker is taken away or lost, or gives the actions up, the group is reported as it was cut short, or
no time passes and the worker can make that report by polls and steps alone. The report tells of
the same actions: those that had ended are reported as they ended, the others as cancelled, or as failed
by the release of what they held.
-/
theorem interrupt_ends_group (feed : φ) (engine : Engine) (target : Target) (device : Device) (focus : Focus)
    (earlier : List Move) {w k : Nat} {b : Bool} {step : Step} {run : Run} {ledger : Ledger}
    (member : ((new feed engine target device focus).play earlier).members[w]? =
      some ⟨b, k, .running step run ledger⟩) (looked : step ≠ .focusing) (later : List Move)
    (successive : (new feed engine target device focus).Successive (earlier ++ .request .interruptAll :: later)) :
    let c := ((new feed engine target device focus).play earlier).move (.request .interruptAll)
    (∀ before call after, c.journal later = before ++ .called call :: after → call.command.acts = true →
      IsHanded before call.group) ∧
    (∀ before report after, c.journal later = before ++ .reported report :: after →
      report.interrupted = true ∨ IsHanded before report.id) ∧
    ((c.play later).ShowsNothing ∨
      ∃ (w : Nat) (b : Bool) (k : Nat) (step : Step) (run : Run) (ledger : Ledger),
        (c.play later).members[w]? = some ⟨b, k, .running step run ledger⟩ ∧
        IsHanded (c.journal later) run.id ∧ ∀ g, ((c.play later).layer g).2 = true → step = .joining true) ∧
    (c.Orderly later → (∀ e ∈ c.seen Option.isSome later, e.isLoss = false) →
      ((c.play later).now = c.now ∧ (c.play later).isQuiet = false ∧
        ∃ moves report, (∀ mv ∈ moves, mv.isDuty = true) ∧ (c.play (later ++ moves)).HasReport report ∧
          report.IsCutShort run (c.seen Option.isSome (later ++ moves))) ∨
      ∃ report es, report.IsCutShort run es ∧ ((c.seen Option.isSome later = es ∧ (c.play later).HasReport report) ∨
        ∃ after, c.seen Option.isSome later = es ++ .reported report :: after)) := by
  intro c
  obtain ⟨before, -, after⟩ := successive_append.1 successive
  obtain ⟨lone, -⟩ := lone_of_successive before
  obtain ⟨quelled, -⟩ := isQuelled_interruptAll lone member
  -- a later moment of the play is one of a play from the start on
  have whole (first : List Move) (prefixed : c.Successive first) :
      ((c.play first).trim (c.play first).sent).Lone ∧ (c.play first).single.executor.Sound := by
    have all : (new feed engine target device focus).Successive (earlier ++ .request .interruptAll :: first) :=
      successive_append.2 ⟨before, rfl, prefixed⟩
    have reached : (new feed engine target device focus).play (earlier ++ .request .interruptAll :: first) =
        c.play first := by rw [play_append, play_cons]
    exact reached ▸ lone_of_successive all
  refine ⟨fun first call rest seen acts => ?_, fun first report rest seen => interrupted_of_reported quelled seen,
    ?_, cut_short_play before member looked later⟩
  · obtain ⟨moves, mv, rest', w', run', e, rfl, rfl, sends⟩ := exists_sends seen acts
    obtain ⟨b', k', accepting, ledger', hm⟩ := sends.running
    rcases isQuelled_play quelled moves _ (List.mem_of_getElem? hm) with cancelled | handed
    · obtain ⟨lone', -⟩ := whole moves (successive_append.1 after).1
      have shows : (c.play moves).board.Shows b' ⟨w', k'⟩ (.joining accepting) run' ledger' :=
        lone'.fits_of_member hm (by simp)
      have alive := sends.not_cancelled acts
      rw [shows.coherent cancelled e (List.mem_of_getElem? sends.entry)] at alive
      cases alive
    · rwa [sends.group]
  · obtain ⟨lone', sound⟩ := whole later after
    exact showsNothing_of_isQuelled lone' sound (isQuelled_play quelled later)

/-- A supply with one group, which is a jump. -/
def onlyJump : Supply where
  pending := [⟨0, ⟨[⟨.jump, none, 0.05⟩], 0.05⟩⟩]

/-- A worker is hired, and comes to wait for the actions of its group. -/
def untilJoining : List Move := [.start, .work 0, .work 0, .work 0, .work 0, .work 0]

/--
When the worker is taken away after the interrupt, the group is not reported at all; and when it gives its
actions up before it has joined them, an action that had ended is reported as cancelled.
-/
theorem interrupted_unreported_or_retold :
    (let start := new onlyHold {} {} {} {}
      let moves := untilJoining ++ [.poll 0 0, .request .interruptAll, .stop, .abort 0, .letGo 0]
      start.Successive moves ∧ (start.play moves).members = [⟨true, 1, .gone⟩] ∧ (start.play moves).isQuiet = true ∧
        start.journal moves = [.asked 0 (.group ⟨0, ⟨[forwardHold], 2.0⟩⟩),
          .called ⟨0, 0, 0, .down .forward, .done⟩, .aborted, .called ⟨0, 0, 0, .up .forward, .done⟩]) ∧
    (let start := new onlyJump { cleanupMs := 0 } {} {} {}
      let c := start.play (untilJoining ++ [.poll 0 0])
      let during : List Move := [.request .interruptAll, .notice 0, .giveUp 0, .work 0]
      start.Successive (untilJoining ++ [.poll 0 0] ++ during) ∧
        c.members = [⟨false, 1, .running (.joining true)
          ⟨0, 0.05, false, true, [⟨⟨.jump, none, 0.05⟩, "jump_", false, .ended .completed⟩]⟩ {}⟩] ∧
        (c.play during).members = [⟨false, 1, .reporting
          ⟨0, ⟨[⟨.jump, none, 0.05⟩], 0.05⟩, [⟨⟨.jump, none, 0.05⟩, .cancelled⟩], true⟩ false⟩]) := by
  decide +kernel

/-- The hold of the group is pressed. -/
def untilHeld : List Move := untilJoining ++ [.poll 0 0]

/-- The hold is let go, joined and reported, and the next look finds nothing. -/
def untilReported : List Move :=
  [.poll 0 0, .join 0 0, .work 0, .work 0, .work 0, .work 0, .work 0, .work 0]

/-- An interrupted hold is reported as it was cut short. -/
theorem interrupt_ends_group_hold :
    let start := new onlyHold {} {} {} {}
    let c := (start.play untilHeld).move (.request .interruptAll)
    let run : Run := ⟨0, 2.0, false, true, [⟨forwardHold, "w_2", false, .holding .forward 2000⟩]⟩
    (start.play untilHeld).members[0]? = some ⟨false, 1, .running (.joining true) run {}⟩ ∧
      start.Successive (untilHeld ++ .request .interruptAll :: untilReported) ∧
      c.Orderly untilReported ∧ (∀ e ∈ c.seen Option.isSome untilReported, e.isLoss = false) ∧
      ∃ report es after, report.IsCutShort run es ∧
        c.seen Option.isSome untilReported = es ++ .reported report :: after := by
  have member : ((new onlyHold {} {} {} {}).play untilHeld).members[0]? = some ⟨false, 1, .running (.joining true)
      ⟨0, 2.0, false, true, [⟨forwardHold, "w_2", false, .holding .forward 2000⟩]⟩ {}⟩ := by decide +kernel
  have successive :
      (new onlyHold {} {} {} {}).Successive (untilHeld ++ .request .interruptAll :: untilReported) := by
    decide +kernel
  have ends := (interrupt_ends_group onlyHold {} {} {} {} untilHeld member (by simp) untilReported successive).2.2.2
  intro start c run
  have orderly : c.Orderly untilReported := by
    have orderly := orderly_of_cleanupMs onlyHold {} {} {} {} (by decide) (untilHeld ++ [.request .interruptAll])
      (by simpa using successive) (by simp [untilReported])
    rwa [play_append] at orderly
  have whole : ∀ e ∈ c.seen Option.isSome untilReported, e.isLoss = false := by decide +kernel
  have quiet : (c.play untilReported).isQuiet = true := by decide +kernel
  have rests : (c.play untilReported).members = [⟨false, 1, .sleeping 50⟩] := by decide +kernel
  refine ⟨member, successive, orderly, whole, ?_⟩
  rcases ends orderly whole with ⟨-, busy, -⟩ | ⟨report, es, cut, ⟨-, w, b, k, faulty, hm⟩ | ⟨after, seen⟩⟩
  · exact absurd (quiet.symm.trans busy) (by simp)
  · have mem := List.mem_of_getElem? hm
    rw [rests] at mem
    cases List.mem_singleton.1 mem
  · exact ⟨report, es, after, cut, seen⟩

end Crew

end Combo
