-- SUMMARY: The steps of the only worker at work, each mirrored by the same step of a single worker.
import Combo.Proofs.Crew.Seat

/-!
# The steps of a lone worker

One lemma for each post of the worker. While it waits for its actions the two differ
in what they know: a member of a crew goes on when it has taken the outcome of every
started action, a single worker when they have ended. The outcomes taken are of
actions that have ended, so whatever the first does the second can do as well.
-/

namespace Combo

namespace Crew

variable {φ : Type} [Feed φ] {c : Crew φ} {old : List Member} {m : Member}

section Work

variable {b : Bool} {round : Nat} (gone : ∀ o ∈ old, o.post = .gone)
  (slot : c.slot = if b then none else some old.length) (leftovers : c.leftovers = [])
include gone slot leftovers

theorem mirrors_top {post : Post} (ready : Member.isReady c.now ⟨b, round, post⟩ = true)
    (top : post = .checking ∨ ∃ due, post = .sleeping due) (blank : c.board.IsBlank) :
    (c.seat old ⟨b, round, post⟩).Mirrors (.work old.length) := by
  have ready' : Member.isReady (c.seat old ⟨b, round, post⟩).now ⟨b, round, post⟩ = true := ready
  have plain : (c.seat old ⟨b, round, post⟩).plainMove (.work old.length) = [.work] := by
    rcases top with rfl | ⟨due, rfl⟩ <;> simp [plainMove, plainWork, getElem?_seat, ready']
  have hmove : (c.seat old ⟨b, round, post⟩).move (.work old.length) =
      (c.seat old ⟨b, round, post⟩).beginRound old.length b := by
    rcases top with rfl | ⟨due, rfl⟩ <;> simp [move, work, getElem?_seat, ready']
  have silent : (c.seat old ⟨b, round, post⟩).notes (.work old.length) =
      if b then [⟨some old.length, .left⟩] else [] := by
    rcases top with rfl | ⟨due, rfl⟩ <;> cases b <;> simp [notes, workEvents, getElem?_seat]
  cases b with
  | true =>
    rw [beginRound, if_pos rfl, enter_seat] at hmove
    refine .of_leave { c with board := { c.board with phase := .idle } } [.work] gone hmove slot
      leftovers ⟨blank.1, blank.2, blank.3⟩ plain ?_ ?_
    · rcases top with rfl | ⟨due, rfl⟩ <;> rfl
    · rw [silent]
      rcases top with rfl | ⟨due, rfl⟩ <;> rfl
  | false =>
    rw [beginRound, if_neg (by simp), setPost_seat] at hmove
    refine .of_seat { c with board := { c.board with phase := .dequeuing, deferred := {} } } [.work]
      gone hmove slot leftovers ⟨⟨blank.1, blank.2, blank.3⟩, rfl, by simp⟩ plain ?_ ?_
    · rcases top with rfl | ⟨due, rfl⟩
      · rfl
      · have elapsed : due ≤ c.now := by simpa [Member.isReady] using ready
        simp [Member.worker?, Post.stage?, Clockwork.move, Clockwork.workerStep,
          Clockwork.workerReady, vacant, elapsed, Clockwork.beginRound, Clockwork.enter,
          Executor.setStage, calls]
    · rw [silent]
      rcases top with rfl | ⟨due, rfl⟩ <;> rfl

theorem mirrors_asking (fits : c.board.Fits old.length ⟨b, round, .asking⟩) :
    (c.seat old ⟨b, round, .asking⟩).Mirrors (.work old.length) := by
  obtain ⟨blank, phase, all⟩ := fits
  have asks : (c.seat old ⟨b, round, .asking⟩).move (.work old.length) =
      (c.seat old ⟨b, round, .asking⟩).ask old.length b := by
    simp [move, work, getElem?_seat, Member.isReady]
  have seen : ((c.seat old ⟨b, round, .asking⟩).notes (.work old.length)).map (·.event) =
      [.asked c.now (Feed.next c.now c.feed).1] := by
    simp [notes, workEvents, seat]
  have plain : (c.seat old ⟨b, round, .asking⟩).plainMove (.work old.length) =
      if b && (Feed.next c.now c.feed).1 == .crash then [.work, .requestStop] else [.work] := by
    simp [plainMove, plainWork, Member.isReady, seat]
  have now : (c.seat old ⟨b, round, .asking⟩).now = c.now := rfl
  have feed : (c.seat old ⟨b, round, .asking⟩).feed = c.feed := rfl
  have hw : (c.vacant.withWorker (some ⟨b, .asking c.board.deferred⟩)).executor.worker =
      some ⟨b, .asking c.board.deferred⟩ := rfl
  rw [ask, now, feed] at asks
  rcases next : Feed.next c.now c.feed with ⟨t | _ | _, feed'⟩
  · rw [next] at asks plain
    exact .of_seat { c with feed := feed' } [.work] gone
      (asks.trans (setPost_seat (c := { c with feed := feed' }) _)) slot leftovers
      (show Board.Fits _ _ ⟨b, round, .taken t⟩ from ⟨blank, phase, all⟩) (by simpa using plain)
      (Clockwork.work_of_group hw next).symm seen
  · rw [next] at asks plain
    exact .of_seat { c with feed := feed', board := { c.board with phase := .idle } } [.work] gone
      (asks.trans (enter_seat (c := { c with feed := feed' }) _ _)) slot leftovers
      (show Board.Fits _ _ ⟨b, round, .sleeping _⟩ from ⟨blank.1, blank.2, blank.3⟩)
      (by simpa using plain) (Clockwork.work_of_empty hw next).symm seen
  · rw [next] at asks plain
    cases b with
    | true =>
      refine .of_leave { c with feed := feed' } [.work, .requestStop] gone
        (asks.trans (setPost_seat (c := { c with feed := feed' }) _)) slot leftovers
        ⟨blank.1, blank.2, blank.3⟩ (by simpa using plain) ?_ ?_
      · exact (congrArg (Clockwork.move · .requestStop) (Clockwork.work_of_crash hw next)).symm
      · rw [seen]
        exact (List.append_nil _).symm
    | false =>
      exact .of_seat { c with feed := feed' } [.work] gone
        (asks.trans (setPost_seat (c := { c with feed := feed' }) _)) slot leftovers
        (show Board.Fits _ _ ⟨false, round, .crashed⟩ from ⟨blank, rfl⟩)
        (by simpa using plain) (Clockwork.work_of_crash hw next).symm seen

theorem mirrors_taken {t : Ticket} (fits : c.board.Fits old.length ⟨b, round, .taken t⟩) :
    (c.seat old ⟨b, round, .taken t⟩).Mirrors (.work old.length) := by
  obtain ⟨blank, phase, all⟩ := fits
  have doomed : b = true → c.board.deferred.all = true := all
  let run := Run.dispatch c.target.requireFocus c.board.deferred t
  have plain : (c.seat old ⟨b, round, .taken t⟩).plainMove (.work old.length) = [.work] := by
    simp [plainMove, plainWork, Member.isReady, seat]
  have silent : (c.seat old ⟨b, round, .taken t⟩).notes (.work old.length) = [] := by
    simp [notes, workEvents, seat]
  have lists : t.group.actions.foldl (Listing.accept c.board.deferred old.length b)
      ([], c.board.listings) = (run.entries, run.shown old.length) := by
    have spared := Run.foldl_accept c.board.deferred t.group.actions old.length []
    rw [blank.listings]
    cases b with
    | false => exact spared
    | true => exact (Run.foldl_accept_all (doomed rfl) true false _ _ _).trans spared
  have cancelled : (c.board.deferred.all || b) = c.board.deferred.all := by
    cases b <;> simp_all
  let board := c.board.dispatched t ⟨old.length, round + 1⟩ (run.shown old.length)
  have hmove : (c.seat old ⟨b, round, .taken t⟩).move (.work old.length) =
      { c with board }.seat old
        ⟨b, round + 1, .running (if run.needsFocus then .focusing else .opening) run
          (Ledger.ofEntries run.entries)⟩ := by
    have board' : (c.seat old ⟨b, round, .taken t⟩).board = c.board := rfl
    have target : (c.seat old ⟨b, round, .taken t⟩).target = c.target := rfl
    simp only [move, work, getElem?_seat, Member.isReady, if_true, dispatch, board', target, lists,
      cancelled]
    rw [Run.ofEntries_dispatch, setMember_seat]
    rfl
  refine .of_seat { c with board } [.work] gone hmove slot leftovers ?_ plain rfl (by rw [silent]; rfl)
  exact
    { phase := rfl
      guests := rfl
      stopped := doomed
      coherent := Run.coherent_dispatch _ _ _
      listings := rfl
      token := by simp [board, Board.dispatched, blank.token, run, Run.dispatch]
      current := by
        have whole : run.group = t.group := by
          rw [Run.group, (Run.dispatch_spec _ _ _).1]
          rfl
        simp [board, Board.dispatched, blank.current, whole]
        rfl
      noticed := by simp [Ledger.ofEntries]
      gate := by split <;> simp }

theorem mirrors_reporting {report : Report} {faulty : Bool} (blank : c.board.IsBlank) :
    (c.seat old ⟨b, round, .reporting report faulty⟩).Mirrors (.work old.length) := by
  have plain : (c.seat old ⟨b, round, .reporting report faulty⟩).plainMove (.work old.length) =
      [.work] := by
    simp [plainMove, plainWork, Member.isReady, seat]
  have seen : ((c.seat old ⟨b, round, .reporting report faulty⟩).notes (.work old.length)).map
      (·.event) = [.reported report] := by
    simp [notes, workEvents, seat]
  have hmove : (c.seat old ⟨b, round, .reporting report faulty⟩).move (.work old.length) =
      { c with feed := Feed.complete report c.feed }.seat old
        ⟨b, round, if faulty then .sleeping (c.now + c.engine.backoffMs) else .checking⟩ := by
    simp only [move, work, getElem?_seat, Member.isReady, if_true, handIn]
    exact setPost_seat (c := { c with feed := Feed.complete report c.feed }) _
  refine .of_seat { c with feed := Feed.complete report c.feed } [.work] gone hmove slot leftovers
    ?_ plain ?_ seen
  · cases faulty <;> exact blank
  · cases faulty <;> rfl

section Running

variable {step : Step} {run : Run} {ledger : Ledger}
  (shows : c.board.Shows b ⟨old.length, round⟩ step run ledger)
include shows

/-- A step in a run that both make alike. -/
theorem mirrors_step (post : Post) (c₁ : Crew φ)
    (ready : Member.stepReady c.now run ledger step = true)
    (same : Clockwork.stepReady c.now run step = true) (accepting : step ≠ .joining true)
    (hmove : (c.seat old ⟨b, round, .running step run ledger⟩).stepRun old.length run ledger step =
      c₁.seat old ⟨b, round, post⟩)
    (slot₁ : c₁.slot = c.slot) (leftovers₁ : c₁.leftovers = c.leftovers)
    (fits : c₁.board.Fits old.length ⟨b, round, post⟩)
    (single : c₁.vacant.withWorker (Member.worker? c₁.board.deferred ⟨b, round, post⟩) =
      (c.vacant.withWorker (some ⟨b, .running step run⟩)).stepRun run step) :
    (c.seat old ⟨b, round, .running step run ledger⟩).Mirrors (.work old.length) := by
  have ready' : Member.isReady (c.seat old ⟨b, round, .running step run ledger⟩).now
      ⟨b, round, .running step run ledger⟩ = true := ready
  refine .of_seat c₁ [.work] gone ?_ (slot₁.trans slot) (leftovers₁.trans leftovers) fits ?_
    (single.trans ?_) ?_
  · simp only [move, work, getElem?_seat, ready', if_true]
    exact hmove
  · simp only [plainMove, plainWork, getElem?_seat, ready', if_true]
    split
    · rename_i h
      cases h
    · rename_i h
      cases h
      exact absurd rfl accepting
    · rfl
  · exact (Clockwork.move_work_running rfl same).symm
  · simp [notes, workEvents, getElem?_seat]
    rfl

theorem mirrors_focusing (h : step = .focusing) :
    (c.seat old ⟨b, round, .running step run ledger⟩).Mirrors (.work old.length) := by
  subst h
  have focus : (c.seat old ⟨b, round, .running .focusing run ledger⟩).focus = c.focus := rfl
  have focus' : (c.vacant.withWorker (some ⟨b, .running .focusing run⟩)).executor.focus = c.focus := rfl
  by_cases active : c.focus.isActive = true
  · refine mirrors_step gone slot leftovers shows (.running .opening run ledger) c rfl rfl (by simp) ?_
      rfl rfl (shows.at_step (by simp)) ?_
    · rw [stepRun, seeToFocus, focus, if_pos active, setPost_seat]
    · rw [Clockwork.stepRun, Clockwork.seeToFocus, focus', if_pos active]
      rfl
  · rcases tried : c.focus.activate with ⟨focus₁, _ | e⟩
    · refine mirrors_step gone slot leftovers shows
        (.running (.settling (c.now + c.target.settleMs)) run ledger) { c with focus := focus₁ } rfl rfl
        (by simp) ?_ rfl rfl (shows.at_step (by simp)) ?_
      · rw [stepRun, seeToFocus, focus, if_neg active, tried]
        exact setPost_seat (c := { c with focus := focus₁ }) _
      · rw [Clockwork.stepRun, Clockwork.seeToFocus, focus', if_neg active, tried]
        rfl
    · refine mirrors_step gone slot leftovers shows
        (.running (.closing (some e)) (run.failAll e.message) ledger) { c with focus := focus₁ } rfl rfl
        (by simp) ?_ rfl rfl ?_ ?_
      · rw [stepRun, seeToFocus, focus, if_neg active, tried]
        exact setPost_seat (c := { c with focus := focus₁ }) _
      · exact (shows.at_step (by simp)).onward rfl rfl rfl (by simp [Run.failAll])
      · rw [Clockwork.stepRun, Clockwork.seeToFocus, focus', if_neg active, tried]
        rfl

theorem mirrors_settling {due : Nat} (h : step = .settling due)
    (ready : Member.stepReady c.now run ledger step = true) :
    (c.seat old ⟨b, round, .running step run ledger⟩).Mirrors (.work old.length) := by
  subst h
  exact mirrors_step gone slot leftovers shows (.running .opening run ledger) c ready ready (by simp)
    (setPost_seat _) rfl rfl (shows.at_step (by simp)) rfl

theorem mirrors_opening (h : step = .opening) :
    (c.seat old ⟨b, round, .running step run ledger⟩).Mirrors (.work old.length) := by
  subst h
  let board : Board := { c.board with gate := some old.length, focused := run.needsFocus }
  refine mirrors_step gone slot leftovers shows (.running (.joining true) run.releaseAll ledger)
    { c with board } rfl rfl (by simp) ?_ rfl rfl ?_ rfl
  · rw [stepRun, setPost_seat]
    rfl
  · have onward : c.board.Shows b ⟨old.length, round⟩ .opening run.releaseAll ledger :=
      shows.onward rfl rfl rfl (by simp [Run.releaseAll])
    exact { onward with gate := fun _ => ⟨rfl, rfl⟩ }

theorem mirrors_closing {fault : Option InputError} (h : step = .closing fault) :
    (c.seat old ⟨b, round, .running step run ledger⟩).Mirrors (.work old.length) := by
  subst h
  refine mirrors_step gone slot leftovers shows (.reporting run.report fault.isSome)
    { c with board := c.board.wiped } rfl rfl (by simp) ?_ rfl rfl ⟨rfl, rfl, rfl⟩ rfl
  rw [stepRun, setPost_seat]
  rfl

/-- A worker closes its run for layering as a single worker does it, late or not. -/
theorem mirrors_close {mv : Move} (late : Combo.Move) (joined : run.isJoined ledger = true)
    (hmove : (c.seat old ⟨b, round, .running (.joining true) run ledger⟩).move mv =
      (c.seat old ⟨b, round, .running (.joining true) run ledger⟩).close old.length run ledger)
    (plain : (c.seat old ⟨b, round, .running (.joining true) run ledger⟩).plainMove mv = [late])
    (hlate : late = .closeLate ∨ late = .work ∧ run.hasQueued = false)
    (silent : (c.seat old ⟨b, round, .running (.joining true) run ledger⟩).notes mv = [])
    (h : step = .joining true) :
    (c.seat old ⟨b, round, .running (.joining true) run ledger⟩).Mirrors mv := by
  subst h
  have drained := Run.isDrained_of_isJoined joined
  have hw : (c.vacant.withWorker (some ⟨b, .running (.joining true) run⟩)).executor.worker =
      some ⟨b, .running (.joining true) run⟩ := rfl
  have closed : (c.seat old ⟨b, round, .running (.joining true) run ledger⟩).close old.length run ledger =
      { c with board := { c.board with gate := none } }.seat old
        ⟨b, round, .running (.joining false) run.releaseAll ledger⟩ := by
    rw [close, setPost_seat]
    rfl
  refine .of_seat { c with board := { c.board with gate := none } } [late] gone (hmove.trans closed)
    slot leftovers ?_ plain ?_ ?_
  · have onward : c.board.Shows b ⟨old.length, round⟩ (.joining false) run.releaseAll ledger :=
      (shows.at_step (by simp)).onward rfl rfl rfl (by simp [Run.releaseAll])
    exact { onward with gate := by simp }
  · rcases hlate with rfl | ⟨rfl, queued⟩
    · exact (Clockwork.move_closeLate hw drained).symm
    · rw [Run.releaseAll_of_not_queued queued]
      exact (Clockwork.work_of_drained hw drained queued).symm
  · rw [silent]
    rcases hlate with rfl | ⟨rfl, queued⟩ <;> rfl

theorem mirrors_joining {accepting : Bool} (h : step = .joining accepting)
    (ready : Member.stepReady c.now run ledger step = true) :
    (c.seat old ⟨b, round, .running step run ledger⟩).Mirrors (.work old.length) := by
  subst h
  have ready' : Member.isReady (c.seat old ⟨b, round, .running (.joining accepting) run ledger⟩).now
      ⟨b, round, .running (.joining accepting) run ledger⟩ = true := ready
  have silent : (c.seat old ⟨b, round, .running (.joining accepting) run ledger⟩).notes
      (.work old.length) = [] := by
    simp [notes, workEvents, getElem?_seat]
  have waits : (c.seat old ⟨b, round, .running (.joining accepting) run ledger⟩).move
      (.work old.length) =
        (c.seat old ⟨b, round, .running (.joining accepting) run ledger⟩).wait old.length accepting run
          ledger := by
    simp only [move, work, getElem?_seat, ready', if_true, stepRun]
  cases accepting with
  | false =>
    have joined : run.isJoined ledger = true := by
      simpa [Member.stepReady, Member.canReceive] using ready
    refine mirrors_step gone slot leftovers shows (.running (.closing none) run ledger) c ready ?_
      (by simp) ?_ rfl rfl (shows.at_step (by simp)) rfl
    · simp [Clockwork.stepReady, Run.isDrained_of_isJoined joined]
    · rw [stepRun, wait, if_neg (by simp [Member.canReceive]), if_neg (by simp), setPost_seat]
  | true =>
    have plain : (c.seat old ⟨b, round, .running (.joining true) run ledger⟩).plainMove
        (.work old.length) =
          if run.hasQueued && !Member.canReceive true run ledger then [.closeLate] else [.work] := by
      simp only [plainMove, plainWork, getElem?_seat, ready', if_true]
    have hw : (c.vacant.withWorker (some ⟨b, .running (.joining true) run⟩)).executor.worker =
        some ⟨b, .running (.joining true) run⟩ := rfl
    by_cases receives : Member.canReceive true run ledger = true
    · have queued : run.hasQueued = true := by
        simp only [Member.canReceive, Bool.true_and, Bool.and_eq_true] at receives
        exact receives.1
      rw [wait, if_pos receives, setPost_seat] at waits
      refine .of_seat c [.work] gone waits slot leftovers ?_ (by simp [plain, receives]) ?_
        (by rw [silent]; rfl)
      · refine shows.onward run.receive_cancelled ?_ ?_ (Run.map_receive _ Entry.release_tag run)
        · rcases run.receive_cases with heq | ⟨i, heq⟩ <;> rw [heq]
        · rcases run.receive_cases with heq | ⟨i, heq⟩ <;> rw [heq]
      · exact (Clockwork.work_of_queued hw queued).symm
    · have joined : run.isJoined ledger = true := by
        simpa [Member.stepReady, receives] using ready
      rw [wait, if_neg receives, if_pos rfl] at waits
      refine mirrors_close gone slot leftovers shows (if run.hasQueued then .closeLate else .work)
        joined waits ?_ ?_ silent rfl
      · cases queued : run.hasQueued <;> simp [plain, queued, receives]
      · cases queued : run.hasQueued <;> simp

end Running

end Work

end Crew

end Combo
