-- SUMMARY: Every regular move of a crew with one worker is mirrored by a single worker, and seen alike.
import Combo.Proofs.Crew.Calls
import Combo.Proofs.Crew.Fare
import Combo.Proofs.Crew.Work

/-!
# Regular moves

As long as no worker is hired before the last one has left, none is taken away
and none gives up its actions, a crew is a single worker seen from outside: after
each move it stands where the single worker stands after the moves `plainMove` names,
and the same is seen. So whatever holds of every play of a single worker holds of
every orderly play of a crew (`Lone.trim_play`).
-/

namespace Combo

namespace Crew

variable {φ : Type} {c : Crew φ} {old : List Member} {m : Member}

/-! ## Quiet -/

/-- A worker that is not busy has nothing to do as a single worker either. -/
theorem isQuiet_seat (fits : c.board.Fits old.length m) (idle : m.isBusy c.now = false) :
    (c.vacant.withWorker (m.worker? c.board.deferred)).isQuiet = true := by
  simp only [Member.isBusy, Bool.or_eq_false_iff] at idle
  obtain ⟨b, round, post⟩ := m
  obtain ⟨⟨⟨⟨unready, -⟩, -⟩, still⟩, taken⟩ := idle
  cases post with
  | running step run ledger =>
    cases step with
    | focusing | opening | closing _ => cases unready
    | settling due => exact congrArg (fun ready => !ready && true) unready
    | joining accepting =>
      obtain ⟨receives, joined⟩ := Bool.or_eq_false_iff.1 unready
      have busy : run.isDrained = false := by
        refine Bool.eq_false_iff.2 fun drained => ?_
        rw [Run.isJoined_of_isDrained drained (by simpa [Member.joinable?] using taken)] at joined
        cases joined
      have rests : run.runnable? c.now = none := by simpa [Member.runnable?] using still
      have waiting : (accepting && run.hasQueued) = false := by
        -- a deadline is set only when the run is cancelled, and then something is left to do
        cases noticed : ledger.deadline with
        | none => simpa [Member.canReceive, noticed] using receives
        | some due =>
          have cancelled := fits.noticed (by rw [noticed]; rfl)
          rw [fits.coherent.isDrained_of_cancelled cancelled rests] at busy
          cases busy
      have unready' : Clockwork.stepReady c.now run (.joining accepting) = false := by
        simp [Clockwork.stepReady, waiting, busy]
      exact (congrArg₂ (fun ready runnable => !ready && Option.isNone runnable) unready' rests).trans rfl
  | sleeping due => exact congrArg (fun ready => !ready && true) unready
  | crashed => rfl
  | gone => exact fits.elim
  | checking | asking | taken _ | reporting _ _ => cases unready

variable [Feed φ]

section Actions

variable {b : Bool} {round : Nat} (gone : ∀ o ∈ old, o.post = .gone)
  (slot : c.slot = if b then none else some old.length) (leftovers : c.leftovers = [])
include gone slot leftovers

section Running

variable {step : Step} {run : Run} {ledger : Ledger}
  (shows : c.board.Shows b ⟨old.length, round⟩ step run ledger)
include shows

theorem mirrors_poll (position : Nat) :
    (c.seat old ⟨b, round, .running step run ledger⟩).Mirrors (.poll old.length position) := by
  have lone : (c.seat old ⟨b, round, .running step run ledger⟩).Lone :=
    .one rfl gone slot leftovers shows
  have plain : (c.seat old ⟨b, round, .running step run ledger⟩).plainMove (.poll old.length position) =
      [.poll position] := by
    simp [plainMove, getElem?_seat]
  have rests (still : (c.seat old ⟨b, round, .running step run ledger⟩).poll old.length position =
        c.seat old ⟨b, round, .running step run ledger⟩)
      (single : ∀ s : Clockwork φ, s.now = c.now → s.executor.worker = some ⟨b, .running step run⟩ →
        s.poll position = s) :
      (c.seat old ⟨b, round, .running step run ledger⟩).Mirrors (.poll old.length position) := by
    refine .of_rest [.poll position] gone lone still plain (fun s now hw => ?_) ?_
    · have stays := single s now hw
      simp [Clockwork.move, Clockwork.events, Clockwork.callsSince, stays]
    · simp [notes, callsSince, still]
  cases step with
  | joining accepting =>
    let c' : Crew φ := c.seat old ⟨b, round, .running (.joining accepting) run ledger⟩
    have hm : c'.members[old.length]? = some ⟨b, round, .running (.joining accepting) run ledger⟩ :=
      getElem?_seat
    cases hentry : run.entries[position]? with
    | none =>
      refine rests (poll_of_none hm hentry) fun s _ hw => ?_
      simp [Clockwork.poll, hw, hentry]
    | some entry =>
      by_cases ready : entry.runnable c.now = true
      · rcases hpoll : entry.progress.poll c.device c.engine.attackMs c.now entry.action
          entry.cancelled with ⟨progress, exchange⟩
        let run' : Run := { run with entries := run.entries.set position { entry with progress } }
        let sent := (Exchange.calls c.now run.id position exchange).map (Sent.mk ⟨old.length, round⟩)
        have polled : c'.poll old.length position =
            { c with sent := c.sent ++ sent }.seat old
              ⟨b, round, .running (.joining accepting) run' ledger⟩ := by
          rw [poll_of_ready hm hentry ready hpoll, setPost_seat]
          rfl
        have hw : (c.vacant.withWorker (some ⟨b, .running (.joining accepting) run⟩)).executor.worker =
            some ⟨b, .running (.joining accepting) run⟩ := rfl
        have seen : c'.callsSince (c'.poll old.length position) =
            (Exchange.calls c.now run.id position exchange).map .called := by
          rw [polled, callsSince_of_append (show _ = c'.sent ++ sent from rfl)]
          simp [sent, Function.comp_def]
        refine .of_seat { c with sent := c.sent ++ sent } [.poll position] gone polled slot leftovers ?_
          plain ?_ ?_
        · exact shows.onward rfl rfl rfl (Run.set_tag hentry rfl)
        · refine Eq.trans ?_ (Clockwork.poll_of_ready hw hentry ready hpoll).symm
          simp [vacant, calls, sent, Member.worker?, Post.stage?, run', Function.comp_def]
        · have polled' := Clockwork.poll_of_ready hw hentry ready hpoll
          rw [notes, seen]
          simp only [Clockwork.journal_cons, Clockwork.journal_nil, Clockwork.events,
            List.append_nil, List.map_map, Function.comp_def]
          exact (Clockwork.callsSince_of_append _
            (congrArg (fun s : Clockwork φ => s.executor.calls) polled')).symm
      · refine rests (poll_of_unready hm hentry ready) fun s now hw => ?_
        simp [Clockwork.poll, hw, hentry, now, ready]
  | _ =>
    refine rests ?_ ?_
    · simp [poll, getElem?_seat]
    · intro s _ hw
      simp [Clockwork.poll, hw]

end Running

end Actions


/-! ## Moves that change nothing -/

/-- The step of a worker that is not ready. -/
theorem Mirrors.of_unready {worker : Nat} (lone : c.Lone)
    (unready : ∀ m, c.members[worker]? = some m → m.isReady c.now = false) : c.Mirrors (.work worker) := by
  cases member : c.members[worker]? with
  | none =>
    exact .of_still lone (by simp [move, work, member]) (by simp [plainMove, plainWork, member])
      (by simp [notes, workEvents, member])
  | some m =>
    have idle := unready m member
    refine .of_still lone (by simp [move, work, member, idle]) (by simp [plainMove, plainWork, member, idle])
      ?_
    simp only [notes, workEvents, member, List.map_eq_nil_iff]
    unfold Member.isReady at idle
    split <;> simp_all

/-- A move of a worker that has left, or of none. -/
theorem Mirrors.of_absent {mv : Move} {worker : Nat} (about : mv.worker? = some worker) (lone : c.Lone)
    (absent : ∀ m, c.members[worker]? = some m → m.post = .gone) : c.Mirrors mv := by
  have member : c.members[worker]? = none ∨ ∃ b round, c.members[worker]? = some ⟨b, round, .gone⟩ := by
    cases h : c.members[worker]? with
    | none => exact .inl rfl
    | some m => exact .inr ⟨m.stopping, m.round, by rw [← absent m h]⟩
  have still : c.move mv = c := by
    cases mv <;> cases about <;> rcases member with member | ⟨b, round, member⟩ <;>
      simp [move, work, closeLate, poll, join, notice, giveUp, abort, member, Member.isReady,
        Member.isAbortable]
  refine .of_still lone still ?_ ?_
  · cases mv <;> cases about <;> rcases member with member | ⟨b, round, member⟩ <;>
      simp [plainMove, plainWork, member, Member.isReady]
  · cases mv <;> cases about <;> rcases member with member | ⟨b, round, member⟩ <;>
      simp [notes, workEvents, callsSince, poll, member, Member.isAbortable]

section Seat

variable (gone : ∀ o ∈ old, o.post = .gone) (slot : c.slot = if m.stopping then none else some old.length)
  (leftovers : c.leftovers = []) (fits : c.board.Fits old.length m)
include gone slot leftovers fits

omit [Feed φ] in
theorem lone_seat : (c.seat old m).Lone := .one rfl gone slot leftovers fits

theorem mirrors_work : (c.seat old m).Mirrors (.work old.length) := by
  obtain ⟨b, round, post⟩ := m
  by_cases ready : Member.isReady c.now ⟨b, round, post⟩ = true
  · cases post with
    | checking => exact mirrors_top gone slot leftovers ready (.inl rfl) fits
    | sleeping due => exact mirrors_top gone slot leftovers ready (.inr ⟨due, rfl⟩) fits
    | asking => exact mirrors_asking gone slot leftovers fits
    | taken t => exact mirrors_taken gone slot leftovers fits
    | reporting report faulty => exact mirrors_reporting gone slot leftovers fits
    | running step run ledger =>
      cases step with
      | focusing => exact mirrors_focusing gone slot leftovers fits rfl
      | settling due => exact mirrors_settling gone slot leftovers fits rfl ready
      | opening => exact mirrors_opening gone slot leftovers fits rfl
      | joining accepting => exact mirrors_joining gone slot leftovers fits rfl ready
      | closing fault => exact mirrors_closing gone slot leftovers fits rfl
    | crashed | gone => cases ready
  · refine .of_unready (lone_seat gone slot leftovers fits) fun m member => ?_
    rw [getElem?_seat] at member
    cases member
    exact Bool.not_eq_true _ ▸ ready

theorem mirrors_closeLate : (c.seat old m).Mirrors (.closeLate old.length) := by
  obtain ⟨b, round, post⟩ := m
  have lone := lone_seat gone slot leftovers fits
  by_cases joins : ∃ run ledger, post = .running (.joining true) run ledger ∧ run.isJoined ledger = true
  · obtain ⟨run, ledger, rfl, joined⟩ := joins
    refine mirrors_close gone slot leftovers fits .closeLate joined ?_ ?_ (.inl rfl) rfl rfl
    · simp [move, closeLate, getElem?_seat, joined]
    · simp [plainMove, getElem?_seat, joined]
  · have away : ∀ run ledger, post = .running (.joining true) run ledger → run.isJoined ledger = false :=
      fun run ledger h => Bool.eq_false_iff.2 fun joined => joins ⟨run, ledger, h, joined⟩
    refine .of_still lone ?_ ?_ rfl
    · simp only [move, closeLate, getElem?_seat]
      split
      · rename_i h
        cases h
        simp [away _ _ rfl]
      · rfl
    · simp only [plainMove, getElem?_seat]
      split
      · rename_i h
        cases h
        simp [away _ _ rfl]
      · rfl

theorem mirrors_join (position : Nat) : (c.seat old m).Mirrors (.join old.length position) := by
  obtain ⟨b, round, post⟩ := m
  have lone := lone_seat gone slot leftovers fits
  by_cases takes : ∃ accepting run ledger, post = .running (.joining accepting) run ledger ∧
      (run.entries[position]?.any (·.progress.isEnded) && !ledger.joined.contains position) = true
  · obtain ⟨accepting, run, ledger, rfl, takes⟩ := takes
    let ledger' : Ledger := { ledger with joined := ledger.joined ++ [position] }
    have hmove : (c.seat old ⟨b, round, .running (.joining accepting) run ledger⟩).move
        (.join old.length position) =
          c.seat old ⟨b, round, .running (.joining accepting) run ledger'⟩ := by
      simp only [move, join, getElem?_seat, if_pos takes, setPost_seat]
      rfl
    exact .of_seat c [] gone hmove slot leftovers
      { fits with guests := fits.guests, noticed := fits.noticed } rfl rfl rfl
  · have away : ∀ accepting run ledger, post = .running (.joining accepting) run ledger →
        ¬(run.entries[position]?.any (·.progress.isEnded) && !ledger.joined.contains position) = true :=
      fun accepting run ledger h taken => takes ⟨accepting, run, ledger, h, taken⟩
    refine .of_still lone ?_ rfl rfl
    simp only [move, join, getElem?_seat]
    split
    · rename_i h
      cases h
      exact if_neg (away _ _ _ rfl)
    · rfl

theorem mirrors_notice : (c.seat old m).Mirrors (.notice old.length) := by
  obtain ⟨b, round, post⟩ := m
  have lone := lone_seat gone slot leftovers fits
  by_cases notices : ∃ accepting run ledger, post = .running (.joining accepting) run ledger ∧
      (run.cancelled && ledger.deadline.isNone) = true
  · obtain ⟨accepting, run, ledger, rfl, notices⟩ := notices
    let ledger' : Ledger := { ledger with deadline := some (c.now + c.engine.cleanupMs) }
    have hmove : (c.seat old ⟨b, round, .running (.joining accepting) run ledger⟩).move
        (.notice old.length) = c.seat old ⟨b, round, .running (.joining accepting) run ledger'⟩ := by
      simp only [move, notice, getElem?_seat, if_pos notices, setPost_seat]
      rfl
    have cancelled : run.cancelled = true := (Bool.and_eq_true _ _ ▸ notices).1
    exact .of_seat c [] gone hmove slot leftovers
      { fits with guests := fits.guests, noticed := fun _ => cancelled } rfl rfl rfl
  · have away : ∀ accepting run ledger, post = .running (.joining accepting) run ledger →
        ¬(run.cancelled && ledger.deadline.isNone) = true :=
      fun accepting run ledger h noticed => notices ⟨accepting, run, ledger, h, noticed⟩
    refine .of_still lone ?_ rfl rfl
    simp only [move, notice, getElem?_seat]
    split
    · rename_i h
      cases h
      exact if_neg (away _ _ _ rfl)
    · rfl

theorem mirrors_tick : (c.seat old m).Mirrors .tick := by
  have lone := lone_seat gone slot leftovers fits
  cases quiet : (c.seat old m).isQuiet with
  | false => exact .of_still lone (by simp [move, tick, quiet]) (by simp [plainMove, quiet]) rfl
  | true =>
    have idle : m.isBusy c.now = false := by
      have all := (Bool.and_eq_true _ _ ▸ quiet : _ ∧ _).2
      have free : (!m.isBusy c.now) = true := List.all_eq_true.1 all m (by simp [seat])
      simpa using free
    have rests := isQuiet_seat fits idle
    refine .of_seat { c with now := c.now + 1 } [.tick] gone ?_ slot leftovers fits
      (by simp [plainMove, quiet]) ?_ rfl
    · simp only [move, tick, quiet, if_true]
      rfl
    · simp only [Clockwork.play_cons, Clockwork.play_nil, Clockwork.move, Clockwork.tick, rests, if_true]
      rfl

theorem mirrors_start (regular : (c.seat old m).isRegular .start = true) : (c.seat old m).Mirrors .start := by
  have lone := lone_seat gone slot leftovers fits
  have busy : ((c.seat old m).members.all fun o => o.post == .gone) = false := by
    refine List.all_eq_false.2 ⟨m, by simp [seat], ?_⟩
    simp only [beq_iff_eq]
    intro left
    obtain ⟨b, round, post⟩ := m
    obtain rfl : post = .gone := left
    exact fits.elim
  have kept : (c.seat old m).slot.isSome = true := by simpa [isRegular, isSuccessive, busy] using regular
  obtain ⟨worker, started⟩ := Option.isSome_iff_exists.1 kept
  exact .of_still lone (by simp [move, start, started]) (by simp [plainMove, started]) rfl

theorem mirrors_poll_seat (position : Nat) : (c.seat old m).Mirrors (.poll old.length position) := by
  have lone := lone_seat gone slot leftovers fits
  obtain ⟨b, round, post⟩ := m
  cases post with
  | running step run ledger => exact mirrors_poll gone slot leftovers fits position
  | _ =>
    exact .of_still lone (by simp [move, poll, getElem?_seat]) (by simp [plainMove, getElem?_seat])
      (by simp [notes, callsSince, poll, getElem?_seat])

theorem mirrors_giveUp (regular : (c.seat old m).isRegular (.giveUp old.length) = true) :
    (c.seat old m).Mirrors (.giveUp old.length) := by
  refine .of_still (lone_seat gone slot leftovers fits) ?_ rfl rfl
  simp only [move, giveUp, getElem?_seat]
  split
  · rename_i member
    cases member
    refine if_neg fun due => ?_
    simp [isRegular, getElem?_seat, Member.canGiveUp, due] at regular
  · rfl

theorem mirrors_abort (regular : (c.seat old m).isRegular (.abort old.length) = true) :
    (c.seat old m).Mirrors (.abort old.length) := by
  have kept : m.isAbortable = false := by simpa [isRegular, getElem?_seat] using regular
  exact .of_still (lone_seat gone slot leftovers fits) (by simp [move, abort, getElem?_seat, kept]) rfl
    (by simp [notes, getElem?_seat, kept])

theorem mirrors_seat {mv : Move} (regular : (c.seat old m).isRegular mv = true) :
    (c.seat old m).Mirrors mv := by
  have lone := lone_seat gone slot leftovers fits
  -- a move about another worker than the last one changes nothing
  have elsewhere (worker : Nat) (about : mv.worker? = some worker) (other : worker ≠ old.length) :
      (c.seat old m).Mirrors mv := by
    refine .of_absent about lone fun o member => ?_
    rw [seat, List.getElem?_append] at member
    split at member
    · exact gone o (List.mem_of_getElem? member)
    · obtain ⟨lt, -⟩ := List.getElem?_eq_some_iff.1 member
      simp only [List.length_singleton] at lt
      omega
  by_cases about : ∃ worker, mv.worker? = some worker ∧ worker ≠ old.length
  · obtain ⟨worker, about, other⟩ := about
    exact elsewhere worker about other
  · have here (worker : Nat) (h : mv.worker? = some worker) : worker = old.length :=
      Classical.byContradiction fun other => about ⟨worker, h, other⟩
    cases mv with
    | work worker => exact here worker rfl ▸ mirrors_work gone slot leftovers fits
    | closeLate worker => exact here worker rfl ▸ mirrors_closeLate gone slot leftovers fits
    | poll worker position => exact here worker rfl ▸ mirrors_poll_seat gone slot leftovers fits position
    | join worker position => exact here worker rfl ▸ mirrors_join gone slot leftovers fits position
    | notice worker => exact here worker rfl ▸ mirrors_notice gone slot leftovers fits
    | giveUp worker =>
      obtain rfl := here worker rfl
      exact mirrors_giveUp gone slot leftovers fits regular
    | abort worker =>
      obtain rfl := here worker rfl
      exact mirrors_abort gone slot leftovers fits regular
    | letGo i =>
      have empty : (c.seat old m).leftovers[i]? = none := by simp [seat, leftovers]
      exact .of_still lone (by simp [move, letGo, empty]) rfl (by simp [notes, callsSince, letGo, empty])
    | tick => exact mirrors_tick gone slot leftovers fits
    | start => exact mirrors_start gone slot leftovers fits regular
    | stop => exact mirrors_stop gone slot leftovers fits
    | request r => exact mirrors_request gone slot leftovers fits r
    | setFocus active failing =>
      exact .of_seat { c with focus := { c.focus with active, failing } } _ gone rfl slot leftovers fits rfl
        rfl rfl
    | setDevice device => exact .of_seat { c with device } _ gone rfl slot leftovers fits rfl rfl rfl

end Seat

/-! ## No worker -/

section Vacant

variable (gone : ∀ o ∈ c.members, o.post = .gone)
include gone

/-- A move after which there is still no worker. -/
theorem Mirrors.of_vacant {mv : Move} (c₁ : Crew φ) (moves : List Combo.Move) (hmove : c.move mv = c₁)
    (members : c₁.members = c.members) (slot₁ : c₁.slot = none) (leftovers₁ : c₁.leftovers = [])
    (blank₁ : c₁.board.IsBlank) (plain : c.plainMove mv = moves) (single : c₁.vacant = c.vacant.play moves)
    (events : (c.notes mv).map (·.event) = c.vacant.journal moves) : c.Mirrors mv where
  lone := by
    rw [hmove]
    exact .none (by rw [members]; exact gone) slot₁ leftovers₁ blank₁
  single := by
    rw [hmove, single_of_gone (by rw [members]; exact gone), single_of_gone gone, plain, single]
  events := by rw [single_of_gone gone, plain, events]

section Moves

variable (slot : c.slot = none) (leftovers : c.leftovers = []) (blank : c.board.IsBlank)
include slot leftovers blank

theorem mirrors_request_vacant (r : Request) : c.Mirrors (.request r) := by
  have rest := isAtRest_of_gone gone
  cases r with
  | interruptAll =>
    have served := interruptAll_of_rest rest blank
    exact .of_vacant gone { c with board := c.board.defer fun d => { d with all := true } }
      [.request .interruptAll] (by simp [move, serve, served]) rfl slot leftovers
      ⟨blank.1, blank.2, blank.3⟩ rfl rfl rfl
  | interruptConflicting g =>
    have served := interruptConflicting_of_rest rest blank g
    exact .of_vacant gone
      { c with board := c.board.defer fun d => { d with kinds := d.kinds ++ g.kinds } }
      [.request (.interruptConflicting g)] (by simp [move, serve, served]) rfl slot leftovers
      ⟨blank.1, blank.2, blank.3⟩ rfl rfl rfl
  | layer g =>
    have refused := layer_of_refused g fun m hm run ledger => rest m hm (.joining true) run ledger
    exact .of_vacant gone c [.request (.layer g)] (by simp [move, serve, refused]) rfl slot
      leftovers blank rfl rfl (by simp [notes, refused]; rfl)

theorem mirrors_vacant (mv : Move) : c.Mirrors mv := by
  have lone : c.Lone := .none gone slot leftovers blank
  by_cases about : ∃ worker, mv.worker? = some worker
  · obtain ⟨worker, about⟩ := about
    exact .of_absent about lone fun m member => gone m (List.mem_of_getElem? member)
  · cases mv with
    | letGo i =>
      have empty : c.leftovers[i]? = none := by simp [leftovers]
      exact .of_still lone (by simp [move, letGo, empty]) rfl (by simp [notes, callsSince, letGo, empty])
    | tick =>
      have quiet : c.isQuiet = true := by
        rw [isQuiet, leftovers, List.isEmpty_nil, Bool.true_and, List.all_eq_true]
        intro m hm
        simp [Member.isBusy, Member.isReady, Member.canNotice, Member.canGiveUp, Member.runnable?,
          Member.joinable?, gone m hm]
      exact .of_vacant gone { c with now := c.now + 1 } [.tick] (by simp [move, tick, quiet])
        rfl slot leftovers blank (by simp [plainMove, quiet]) rfl rfl
    | start =>
      have hires : c.move .start = { c with slot := some c.members.length }.seat c.members {} := by
        simp only [move, start, slot]
        rfl
      have plain : c.plainMove .start = [.start] := by simp [plainMove, slot]
      refine ⟨?_, ?_, ?_⟩
      · rw [hires]
        exact .one rfl gone rfl leftovers blank
      · rw [hires, single_seat gone, single_of_gone gone, plain]
        rfl
      · rw [plain, single_of_gone gone]
        rfl
    | stop => exact .of_still lone (by simp [move, stop, slot]) (by simp [plainMove, slot]) rfl
    | request r => exact mirrors_request_vacant gone slot leftovers blank r
    | setFocus active failing =>
      exact .of_vacant gone { c with focus := { c.focus with active, failing } } _ rfl rfl
        slot leftovers blank rfl rfl rfl
    | setDevice device =>
      exact .of_vacant gone { c with device } _ rfl rfl slot leftovers blank rfl rfl rfl
    | _ => exact absurd ⟨_, rfl⟩ about

end Moves

end Vacant

/-! ## Every move -/

/-- A regular move leaves one worker at most, and a single worker mirrors it. -/
theorem Lone.mirrors (h : c.Lone) {mv : Move} (regular : c.isRegular mv = true) : c.Mirrors mv := by
  cases h with
  | none members slot leftovers blank => exact mirrors_vacant members slot leftovers blank mv
  | one members gone slot leftovers fits =>
    rw [← seat_self members] at slot leftovers fits regular ⊢
    exact mirrors_seat gone slot leftovers fits regular

end Crew

end Combo
