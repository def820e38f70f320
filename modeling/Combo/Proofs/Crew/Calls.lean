-- SUMMARY: Calls to a crew with one worker at work: interrupts, layering and stop, served as a single worker serves them.
import Combo.Proofs.Crew.Seat

/-!
# Calls to a lone worker

While no group runs an interrupt finds nothing on the board, and it is noted if a
group is being dequeued. While one runs, the board lists its actions that are not
cancelled and names its token, so to cancel what is on the board is to cancel it
in the run. Each request is then answered as a single worker answers it.
-/

namespace Combo

/-- The board after an interrupt that found no run: it is noted while a group is being dequeued. -/
def Board.defer (note : Deferred → Deferred) (b : Board) : Board :=
  { b with deferred := if b.phase = .dequeuing then note b.deferred else b.deferred }

namespace Board.Fits

variable {b : Board} {worker : Nat} {m : Member} (fits : b.Fits worker m)
  (rest : ∀ step run ledger, m.post ≠ .running step run ledger)
include fits rest

/-- Nothing is on the board while no group runs. -/
theorem isBlank : b.IsBlank := by
  obtain ⟨stopping, round, post⟩ := m
  cases post with
  | running step run ledger => exact absurd rfl (rest step run ledger)
  | checking | reporting _ _ | sleeping _ => exact fits
  | asking | taken _ | crashed => exact fits.1
  | gone => exact fits.elim

/-- The board fits when an interrupt is noted. -/
theorem defer {note : Deferred → Deferred} (keeps : ∀ d, d.all = true → (note d).all = true) :
    (b.defer note).Fits worker m := by
  obtain ⟨stopping, round, post⟩ := m
  have blank := isBlank fits rest
  have blank' : (b.defer note).IsBlank := ⟨blank.1, blank.2, blank.3⟩
  cases post with
  | running step run ledger => exact absurd rfl (rest step run ledger)
  | checking | reporting _ _ | sleeping _ => exact blank'
  | asking | taken _ =>
    refine ⟨blank', fits.2.1, fun told => ?_⟩
    simp only [Board.defer, fits.2.1, if_true]
    exact keeps _ (fits.2.2 told)
  | crashed => exact ⟨blank', fits.2⟩
  | gone => exact fits.elim

end Board.Fits

namespace Crew

variable {φ : Type} {c : Crew φ} {old : List Member} {m : Member}

/-! ## Calls while no group runs -/

/-- Whether none of the workers is at a run. -/
def IsAtRest (c : Crew φ) : Prop := ∀ m ∈ c.members, ∀ step run ledger, m.post ≠ .running step run ledger

theorem isAtRest_of_gone (gone : ∀ m ∈ c.members, m.post = .gone) : c.IsAtRest := by
  intro m hm step run ledger running
  rw [gone m hm] at running
  cases running

theorem isAtRest_seat (gone : ∀ o ∈ old, o.post = .gone)
    (rest : ∀ step run ledger, m.post ≠ .running step run ledger) : (c.seat old m).IsAtRest := by
  intro o ho step run ledger running
  rcases List.mem_append.1 ho with ho | ho
  · rw [gone o ho] at running
    cases running
  · rw [List.mem_singleton.1 ho] at running
    exact rest step run ledger running

section Rest

variable (rest : c.IsAtRest)
include rest

theorem mapRuns_of_rest (f : Nat → Shift → Ledger → Run → Run) : c.mapRuns f = c := by
  have stay : (c.members.mapIdx fun worker m => m.mapRun (f worker ⟨worker, m.round⟩)) = c.members := by
    refine mapIdx_eq_self fun i m hm => ?_
    unfold Member.mapRun
    split
    · rename_i step run ledger post
      exact absurd post (rest m (List.mem_of_getElem? hm) step run ledger)
    · rfl
  rw [mapRuns, stay]

theorem interruptAll_of_rest (blank : c.board.IsBlank) :
    c.interruptAll = ({ c with board := c.board.defer fun d => { d with all := true } }, 0) := by
  simp [interruptAll, cancelUnder, cancelListed, mapRuns_of_rest rest, Board.defer, blank.listings,
    blank.token, blank.current]

theorem interruptConflicting_of_rest (blank : c.board.IsBlank) (g : Group) :
    c.interruptConflicting g =
      ({ c with board := c.board.defer fun d => { d with kinds := d.kinds ++ g.kinds } }, 0) := by
  by_cases phase : c.board.phase = .dequeuing
  · simp [interruptConflicting, phase, Board.defer]
  · simp only [interruptConflicting, cancelListed, mapRuns_of_rest rest, if_neg phase, blank.listings,
      List.filter_nil]
    simp [Board.defer, phase, ← blank.listings]

end Rest

/-- A group is layered only onto the run of a worker that takes in actions. -/
theorem layer_of_refused (g : Group)
    (closed : ∀ m ∈ c.members, ∀ run ledger, m.post ≠ .running (.joining true) run ledger) :
    c.layer g = (c, false) := by
  unfold layer
  split
  · split
    · rename_i member
      exact absurd rfl (closed _ (List.mem_of_getElem? member) _ _)
    · rfl
  · rfl

/-! ## Calls while the worker is at a run -/

section Running

variable {b : Bool} {round : Nat} {step : Step} {run : Run} {ledger : Ledger}
  (gone : ∀ o ∈ old, o.post = .gone)
  (shows : c.board.Shows b ⟨old.length, round⟩ step run ledger)
include shows

section Interrupt

include gone

theorem interruptAll_seat :
    (c.seat old ⟨b, round, .running step run ledger⟩).interruptAll =
      ({ c with board := { c.board with token := none, current := none, listings := [] } }.seat old
        ⟨b, round, .running step run.interruptAll.1 ledger⟩, run.interruptAll.2) := by
  have board : (c.seat old ⟨b, round, .running step run ledger⟩).board = c.board := rfl
  have count : c.board.listings.length = run.interruptAll.2 := by
    rw [shows.listings, Run.shown, Listing.length_ofEntries]
    rfl
  have under : run.cancelUnder (fun shift => c.board.token == some shift) ⟨old.length, round⟩ ledger =
      run.interruptAll.1 := by
    rw [shows.token]
    cases cancelled : run.cancelled with
    | true =>
      rw [Run.cancelUnder_of_not_hit shows.guests (by simp),
        Run.interruptAll_of_cancelled shows.coherent cancelled]
    | false => exact Run.cancelUnder_of_hit shows.guests (by simp)
  have listed : run.interruptAll.1.cancelListed c.board.listings old.length = run.interruptAll.1 :=
    Run.cancelListed_of_cancelled _ (Run.coherent_interruptAll run rfl)
  simp only [interruptAll, board, shows.phase, cancelUnder, cancelListed, mapRuns_seat gone,
    Member.mapRun, under, listed, count]
  rfl

theorem interruptConflicting_seat (g : Group) :
    (c.seat old ⟨b, round, .running step run ledger⟩).interruptConflicting g =
      ({ c with board := { c.board with
          listings := (run.interruptConflicting g.kinds).1.shown old.length } }.seat old
        ⟨b, round, .running step (run.interruptConflicting g.kinds).1 ledger⟩,
        (run.interruptConflicting g.kinds).2) := by
  have board : (c.seat old ⟨b, round, .running step run ledger⟩).board = c.board := rfl
  simp only [interruptConflicting, board, shows.phase, shows.listings, cancelListed, mapRuns_seat gone,
    Member.mapRun, Run.cancelListed_shown, Run.filter_shown, Run.length_filter_shown]
  rfl

end Interrupt

/-- Whether a group is layered onto a run that takes in actions. -/
theorem layer_seat (g : Group) (h : step = .joining true) :
    (c.seat old ⟨b, round, .running step run ledger⟩).layer g =
      if run.cancelled || (c.needsFocus g && !run.needsFocus) then
        (c.seat old ⟨b, round, .running step run ledger⟩, false)
      else
        ({ c with board := { c.board with
            current := some (run.layer g.actions).group
            listings := (run.layer g.actions).shown old.length } }.seat old
          ⟨b, round, .running step (run.layer g.actions) ledger⟩, true) := by
  subst h
  obtain ⟨gate, focused⟩ := shows.gate rfl
  have board : (c.seat old ⟨b, round, .running (.joining true) run ledger⟩).board = c.board := rfl
  have needs : (c.seat old ⟨b, round, .running (.joining true) run ledger⟩).needsFocus g =
      c.needsFocus g := rfl
  cases cancelled : run.cancelled with
  | true => simp [layer, board, gate, shows.token, cancelled]
  | false =>
    have told : b = false := by
      cases b with
      | false => rfl
      | true => exact absurd (shows.stopped rfl) (by simp [cancelled])
    have live : (c.seat old ⟨b, round, .running (.joining true) run ledger⟩).isCancelled
        ⟨old.length, round⟩ = false := by
      simp [isCancelled, getElem?_seat, told, cancelled]
    have token : c.board.token = some ⟨old.length, round⟩ := by simp [shows.token, cancelled]
    have current : c.board.current = some run.group := by simp [shows.current, cancelled]
    simp only [layer, board, gate, token, getElem?_seat, live, shows.phase, focused, needs,
      shows.listings, current, Run.foldl_enlist]
    by_cases refused : (c.needsFocus g && !run.needsFocus) = true
    · simp [refused]
    · have whole : (run.layer g.actions).group = ⟨run.group.actions ++ g.actions, run.group.estimate⟩ := by
        rw [Run.group, Run.layer_actions]
        rfl
      simp only [refused, setMember_seat]
      simp [seat, Run.layer]
      exact whole.symm

end Running

/-! ## Requests -/

/-- How a request is served while the last worker is at work. -/
def Serves (c : Crew φ) (old : List Member) (m : Member) (r : Request) : Prop :=
  ∃ (board : Board) (m₁ : Member) (answer : Answer),
    (c.seat old m).serve r = ({ c with board }.seat old m₁, answer) ∧
      m₁.stopping = m.stopping ∧ board.Fits old.length m₁ ∧
      (c.vacant.withWorker (m.worker? c.board.deferred)).executor.serve r =
        (({ c with board }.vacant.withWorker (m₁.worker? board.deferred)).executor, answer)

section Serve

variable (gone : ∀ o ∈ old, o.post = .gone) (fits : c.board.Fits old.length m)
include gone fits

section AtRest

variable (rest : ∀ step run ledger, m.post ≠ .running step run ledger)
include rest

theorem serves_interruptAll_of_rest : c.Serves old m .interruptAll := by
  have blank := fits.isBlank rest
  refine ⟨c.board.defer fun d => { d with all := true }, m, .count 0,
    congrArg (fun r : Crew φ × Nat => (r.1, Answer.count r.2))
      (interruptAll_of_rest (isAtRest_seat gone rest) blank), rfl, fits.defer rest fun _ _ => rfl, ?_⟩
  obtain ⟨b, round, post⟩ := m
  cases post with
  | running step run ledger => exact absurd rfl (rest step run ledger)
  | asking | taken _ =>
    rw [Board.defer, if_pos fits.2.1]
    rfl
  | gone => exact fits.elim
  | _ => rfl

theorem serves_interruptConflicting_of_rest (g : Group) : c.Serves old m (.interruptConflicting g) := by
  have blank := fits.isBlank rest
  refine ⟨c.board.defer fun d => { d with kinds := d.kinds ++ g.kinds }, m, .count 0,
    congrArg (fun r : Crew φ × Nat => (r.1, Answer.count r.2))
      (interruptConflicting_of_rest (isAtRest_seat gone rest) blank g), rfl,
    fits.defer rest fun _ all => all, ?_⟩
  obtain ⟨b, round, post⟩ := m
  cases post with
  | running step run ledger => exact absurd rfl (rest step run ledger)
  | asking | taken _ =>
    rw [Board.defer, if_pos fits.2.1]
    rfl
  | gone => exact fits.elim
  | _ => rfl

end AtRest

/-- A group is refused by a worker that takes in nothing. -/
theorem serves_layer_of_closed (g : Group)
    (closed : ∀ run ledger, m.post ≠ .running (.joining true) run ledger) :
    c.Serves old m (.layer g) := by
  have shut : ∀ o ∈ (c.seat old m).members, ∀ run ledger, o.post ≠ .running (.joining true) run ledger := by
    intro o ho run ledger opened
    rcases List.mem_append.1 ho with ho | ho
    · rw [gone o ho] at opened
      cases opened
    · rw [List.mem_singleton.1 ho] at opened
      exact closed run ledger opened
  refine ⟨c.board, m, .accepted false,
    congrArg (fun r : Crew φ × Bool => (r.1, Answer.accepted r.2)) (layer_of_refused g shut), rfl, fits, ?_⟩
  obtain ⟨b, round, post⟩ := m
  rcases post with _ | _ | _ | ⟨_ | _ | _ | accepting | _, run, ledger⟩ | _ | _ | _ | _
  case running.joining => 
    cases accepting with
    | true => exact absurd rfl (closed run ledger)
    | false => rfl
  all_goals rfl

theorem serves_interruptAll : c.Serves old m .interruptAll := by
  by_cases running : ∃ step run ledger, m.post = .running step run ledger
  · obtain ⟨b, round, post⟩ := m
    obtain ⟨step, run, ledger, rfl⟩ := running
    refine ⟨{ c.board with token := none, current := none, listings := [] },
      ⟨b, round, .running step run.interruptAll.1 ledger⟩, .count run.interruptAll.2, ?_, rfl, ?_, rfl⟩
    · simp only [serve, interruptAll_seat gone fits]
    · exact
        { fits with
          stopped := fun _ => rfl
          coherent := Run.coherent_interruptAll run
          listings := (Run.shown_of_cancelled (Run.coherent_interruptAll run) rfl).symm
          token := rfl
          current := rfl
          noticed := fun _ => rfl }
  · exact serves_interruptAll_of_rest gone fits (by simpa using running)

theorem serves_interruptConflicting (g : Group) : c.Serves old m (.interruptConflicting g) := by
  by_cases running : ∃ step run ledger, m.post = .running step run ledger
  · obtain ⟨b, round, post⟩ := m
    obtain ⟨step, run, ledger, rfl⟩ := running
    refine ⟨{ c.board with listings := (run.interruptConflicting g.kinds).1.shown old.length },
      ⟨b, round, .running step (run.interruptConflicting g.kinds).1 ledger⟩,
      .count (run.interruptConflicting g.kinds).2, ?_, rfl, ?_, rfl⟩
    · simp only [serve, interruptConflicting_seat gone fits]
    · exact
        { fits with
          coherent := fits.coherent.map rfl _ (fun e he => by split <;> simp [he]) rfl
          listings := rfl
          token := fits.token
          current := fits.current.trans (by simp [Run.group, Run.interruptConflicting_actions]; rfl) }
  · exact serves_interruptConflicting_of_rest gone fits (by simpa using running) g

theorem serves_layer (g : Group) : c.Serves old m (.layer g) := by
  by_cases opened : ∃ run ledger, m.post = .running (.joining true) run ledger
  · obtain ⟨b, round, post⟩ := m
    obtain ⟨run, ledger, rfl⟩ := opened
    by_cases refused : (run.cancelled || (c.needsFocus g && !run.needsFocus)) = true
    · refine ⟨c.board, ⟨b, round, .running (.joining true) run ledger⟩, .accepted false, ?_, rfl, fits, ?_⟩
      · simp only [serve, layer_seat fits g rfl, if_pos refused]
      · exact congrArg (fun r : Executor × Bool => (r.1, Answer.accepted r.2)) (if_pos refused)
    · have live : run.cancelled = false := by
        cases cancelled : run.cancelled with
        | true => exact absurd (by simp [cancelled]) refused
        | false => rfl
      have cancelled : (run.layer g.actions).cancelled = false := live
      refine ⟨{ c.board with
          current := some (run.layer g.actions).group
          listings := (run.layer g.actions).shown old.length },
        ⟨b, round, .running (.joining true) (run.layer g.actions) ledger⟩, .accepted true, ?_, rfl, ?_, ?_⟩
      · simp only [serve, layer_seat fits g rfl, if_neg refused]
      · exact
          { fits with
            coherent := Run.coherent_of_not_cancelled cancelled
            listings := rfl
            token := fits.token
            current := by rw [cancelled]; rfl }
      · exact congrArg (fun r : Executor × Bool => (r.1, Answer.accepted r.2)) (if_neg refused)
  · exact serves_layer_of_closed gone fits g (by simpa using opened)

theorem serves (r : Request) : c.Serves old m r := by
  cases r with
  | interruptAll => exact serves_interruptAll gone fits
  | interruptConflicting g => exact serves_interruptConflicting gone fits g
  | layer g => exact serves_layer gone fits g

end Serve

/-! ## Calls, mirrored -/

/-- A stop that tells the worker, in two parts. -/
theorem stop_seat (slot : c.slot = if m.stopping then none else some old.length)
    (told : m.stopping = false) :
    (c.seat old m).stop =
      (({ c with slot := none }.seat old m.stop).cancelUnder
        fun shift => shift.worker == old.length).interruptAll.1 := by
  have slot' : (c.seat old m).slot = some old.length := slot.trans (by simp [told])
  have tells : { c.seat old m with
      slot := none, members := (c.seat old m).members.modify old.length Member.stop } =
        { c with slot := none }.seat old m.stop := by
    rw [modify_seat]
    rfl
  simp only [stop, slot', tells]

variable [Feed φ]

section Moves

variable (gone : ∀ o ∈ old, o.post = .gone) (slot : c.slot = if m.stopping then none else some old.length)
  (leftovers : c.leftovers = []) (fits : c.board.Fits old.length m)
include gone slot leftovers fits

theorem mirrors_request (r : Request) : (c.seat old m).Mirrors (.request r) := by
  obtain ⟨board, m₁, answer, served, told, fits₁, single⟩ := serves gone fits r
  refine .of_seat { c with board } [.request r] gone (congrArg Prod.fst served) (by rw [told]; exact slot)
    leftovers fits₁ rfl ?_ ?_
  · simp only [Clockwork.play_cons, Clockwork.play_nil, Clockwork.move, single]
    rfl
  · cases r with
    | layer g =>
      have same : ((c.seat old m).layer g).2 =
          ((c.vacant.withWorker (m.worker? c.board.deferred)).executor.layer g).2 :=
        Answer.accepted.inj ((congrArg Prod.snd served).trans (congrArg Prod.snd single).symm)
      simp only [notes, Clockwork.journal_cons, Clockwork.journal_nil, Clockwork.events, same,
        List.append_nil]
      split <;> rfl
    | interruptAll => rfl
    | interruptConflicting g => rfl

theorem mirrors_stop_of_crashed {round : Nat} (h : m = ⟨false, round, .crashed⟩) :
    (c.seat old m).Mirrors .stop := by
  subst h
  let c' : Crew φ := { c with slot := none }
  have away := gone_seat (c := c') gone round true
  have rest := isAtRest_of_gone away
  have stops := stop_seat slot rfl
  rw [show Member.stop ⟨false, round, .crashed⟩ = ⟨true, round, .gone⟩ from rfl, cancelUnder,
    mapRuns_of_rest rest, interruptAll_of_rest rest fits.1] at stops
  have slot' : (c.seat old ⟨false, round, .crashed⟩).slot = some old.length := slot
  refine .of_leave { c' with board := c.board.defer fun d => { d with all := true } } [.requestStop] gone
    stops rfl leftovers ⟨fits.1.1, fits.1.2, fits.1.3⟩ (by simp [plainMove, slot']) rfl rfl

theorem mirrors_stop_of_rest (told : m.stopping = false)
    (rest : ∀ step run ledger, m.post ≠ .running step run ledger) (alive : m.post ≠ .crashed) :
    (c.seat old m).Mirrors .stop := by
  let c' : Crew φ := { c with slot := none }
  have stops := stop_seat slot told
  have rest' : ∀ step run ledger, m.stop.post ≠ .running step run ledger := by
    simpa [Member.stop, alive] using rest
  have atRest := isAtRest_seat (c := c') gone rest'
  have blank := fits.isBlank rest
  rw [cancelUnder, mapRuns_of_rest atRest, interruptAll_of_rest atRest blank] at stops
  have slot' : (c.seat old m).slot = some old.length := slot.trans (by simp [told])
  refine .of_seat { c' with board := c.board.defer fun d => { d with all := true } } [.requestStop] gone
    stops rfl leftovers ?_ (by simp [plainMove, slot']) ?_ rfl
  · obtain ⟨b, round, post⟩ := m
    have blank' : (c.board.defer fun d => { d with all := true }).IsBlank := ⟨blank.1, blank.2, blank.3⟩
    cases post with
    | running step run ledger => exact absurd rfl (rest step run ledger)
    | crashed => exact absurd rfl alive
    | gone => exact fits.elim
    | checking | reporting _ _ | sleeping _ => exact blank'
    | asking | taken _ => exact ⟨blank', fits.2.1, fun _ => by rw [Board.defer, if_pos fits.2.1]⟩
  · obtain ⟨b, round, post⟩ := m
    cases post with
    | running step run ledger => exact absurd rfl (rest step run ledger)
    | crashed => exact absurd rfl alive
    | gone => exact fits.elim
    | checking | reporting _ _ | sleeping _ => rfl
    | asking | taken _ =>
      rw [Board.defer, if_pos fits.2.1]
      rfl

theorem mirrors_stop_of_running {round : Nat} {step : Step} {run : Run} {ledger : Ledger}
    (h : m = ⟨false, round, .running step run ledger⟩) : (c.seat old m).Mirrors .stop := by
  subst h
  let c' : Crew φ := { c with slot := none }
  have stops := stop_seat slot rfl
  have slot' : (c.seat old ⟨false, round, .running step run ledger⟩).slot = some old.length := slot
  have coherent := Run.coherent_interruptAll run
  have cut : ({ c with slot := none }.seat old (Member.stop ⟨false, round, .running step run ledger⟩)).cancelUnder
      (fun shift => shift.worker == old.length) =
        c'.seat old ⟨true, round, .running step run.interruptAll.1 ledger⟩ := by
    have hit : run.cancelUnder (fun shift => shift.worker == old.length) ⟨old.length, round⟩ ledger =
        run.interruptAll.1 := Run.cancelUnder_of_hit fits.guests (by simp)
    rw [show Member.stop ⟨false, round, .running step run ledger⟩ = ⟨true, round, .running step run ledger⟩
      by simp [Member.stop], cancelUnder, mapRuns_seat gone]
    exact congrArg (fun r => c'.seat old ⟨true, round, .running step r ledger⟩) hit
  have board : (c'.seat old ⟨true, round, .running step run.interruptAll.1 ledger⟩).board = c.board := rfl
  have clears : (c'.seat old ⟨true, round, .running step run.interruptAll.1 ledger⟩).interruptAll.1 =
      { c' with board := { c.board with token := none, current := none, listings := [] } }.seat old
        ⟨true, round, .running step run.interruptAll.1 ledger⟩ := by
    simp only [interruptAll, board, fits.phase, cancelUnder, cancelListed, mapRuns_seat gone,
      Member.mapRun, Run.cancelUnder_of_cancelled coherent rfl,
      Run.cancelListed_of_cancelled _ (coherent rfl)]
    rfl
  refine .of_seat { c' with board := { c.board with token := none, current := none, listings := [] } }
    [.requestStop] gone (stops.trans (by rw [cut, clears])) rfl leftovers ?_ (by simp [plainMove, slot']) rfl rfl
  exact
    { fits with
      stopped := fun _ => rfl
      coherent
      listings := (Run.shown_of_cancelled coherent rfl).symm
      token := rfl
      current := rfl
      noticed := fun _ => rfl }

theorem mirrors_stop : (c.seat old m).Mirrors .stop := by
  obtain ⟨b, round, post⟩ := m
  cases b with
  | true =>
    have slot' : (c.seat old ⟨true, round, post⟩).slot = none := slot
    exact .of_still (.one rfl gone slot leftovers fits) (by simp [move, stop, slot'])
      (by simp [plainMove, slot']) rfl
  | false =>
    by_cases running : ∃ step run ledger, post = .running step run ledger
    · obtain ⟨step, run, ledger, rfl⟩ := running
      exact mirrors_stop_of_running gone slot leftovers fits rfl
    · by_cases crashed : post = .crashed
      · subst crashed
        exact mirrors_stop_of_crashed gone slot leftovers fits rfl
      · exact mirrors_stop_of_rest gone slot leftovers fits rfl (by simpa using running) crashed

end Moves

end Crew

end Combo
