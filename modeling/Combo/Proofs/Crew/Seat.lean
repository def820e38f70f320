-- SUMMARY: A crew with one worker at work: what is seen of it, how its board is kept, and when a move is mirrored by a single worker.
import Combo.Proofs.Clockwork.Turn
import Combo.Proofs.Crew.Single

/-!
# A seat and who sits on it

`seat` is a crew of which only the last worker has not left. To set its post, to
do something to all runs, or to look at the crew from outside is then to do it to
that worker. `Mirrors` says of a move that it leaves at most one worker at work, and
that a single worker makes it alike; it is shown by naming the crew after the move.
-/

namespace Combo

/-! ## What stays on the board -/

namespace Board.Shows

variable {b : Board} {stopping : Bool} {own : Shift} {step step' : Step} {run run' : Run}
  {ledger : Ledger}

/-- The same run at another step, when it is not the gate that changes. -/
theorem at_step (h : b.Shows stopping own step run ledger) (closed : step' ≠ .joining true) :
    b.Shows stopping own step' run ledger :=
  { h with gate := fun opened => absurd opened closed }

/-- A run that has got on, with the same tags. -/
theorem onward (h : b.Shows stopping own step run ledger) (cancelled : run'.cancelled = run.cancelled)
    (estimate : run'.estimate = run.estimate) (needsFocus : run'.needsFocus = run.needsFocus)
    (same : run'.entries.map Entry.tag = run.entries.map Entry.tag) :
    b.Shows stopping own step run' ledger where
  phase := h.phase
  guests := h.guests
  stopped := fun told => cancelled.trans (h.stopped told)
  coherent := by
    intro hc e he
    have tags : e.tag ∈ run.entries.map Entry.tag := same ▸ List.mem_map_of_mem he
    obtain ⟨e', he', heq⟩ := List.mem_map.1 tags
    exact (congrArg Prod.fst heq).symm.trans (h.coherent (cancelled ▸ hc) e' he')
  listings := h.listings.trans (Run.shown_congr same).symm
  token := by rw [h.token, cancelled]
  current := by
    have group : run'.group = run.group := by
      have actions := congrArg (List.map fun tag : Bool × String × Action => tag.2.2) same
      simp only [List.map_map] at actions
      rw [Run.group, Run.group, estimate]
      exact congrArg (Group.mk · _) actions
    rw [h.current, cancelled, group]
  noticed := fun known => cancelled.trans (h.noticed known)
  gate := fun opened => by rw [needsFocus]; exact h.gate opened

end Board.Shows

namespace Clockwork

variable {φ : Type} [Feed φ] {s : Clockwork φ} {b : Bool} {d : Deferred} {feed : φ}

section Ask

variable (hw : s.executor.worker = some ⟨b, .asking d⟩)
include hw

theorem move_work_asking : s.move .work = s.ask d := by
  simp [move, workerStep, workerReady, hw]

theorem work_of_group {t : Ticket} (next : Feed.next s.now s.feed = (.group t, feed)) :
    s.move .work = { s with feed }.withWorker (some ⟨b, .taken t d⟩) := by
  rw [move_work_asking hw, ask, next]
  exact setStage_of_some (s := { s with feed }) hw

theorem work_of_empty (next : Feed.next s.now s.feed = (.empty, feed)) :
    s.move .work = { s with feed }.withPhase .idle
      (some ⟨b, .sleeping (s.now + s.executor.engine.pollMs)⟩) := by
  rw [move_work_asking hw, ask, next]
  exact enter_of_some (s := { s with feed }) hw

theorem work_of_crash (next : Feed.next s.now s.feed = (.crash, feed)) :
    s.move .work = { s with feed }.withWorker (some ⟨b, .crashed⟩) := by
  rw [move_work_asking hw, ask, next]
  exact setStage_of_some (s := { s with feed }) hw

end Ask

theorem move_work_running {step : Step} {run : Run} (hw : s.executor.worker = some ⟨b, .running step run⟩)
    (ready : stepReady s.now run step = true) : s.move .work = s.stepRun run step := by
  simp [move, workerStep, workerReady, hw, ready]

section Joining

variable {run : Run} (hw : s.executor.worker = some ⟨b, .running (.joining true) run⟩)
include hw

theorem move_closeLate (drained : run.isDrained = true) :
    s.move .closeLate = s.withWorker (some ⟨b, .running (.joining false) run.releaseAll⟩) := by
  simp only [move, closeLate, hw, if_pos drained]
  exact setStage_of_some hw

theorem work_of_queued (queued : run.hasQueued = true) :
    s.move .work = s.withWorker (some ⟨b, .running (.joining true) run.receive⟩) := by
  rw [move_work_running hw (by simp [stepReady, queued]), stepRun, join, if_pos rfl, if_pos queued]
  exact setStage_of_some hw

theorem work_of_drained (drained : run.isDrained = true) (queued : run.hasQueued = false) :
    s.move .work = s.withWorker (some ⟨b, .running (.joining false) run⟩) := by
  rw [move_work_running hw (by simp [stepReady, drained]), stepRun, join, if_pos rfl,
    if_neg (by simp [queued])]
  exact setStage_of_some hw

end Joining

omit [Feed φ] in
theorem poll_of_ready {accepting : Bool} {run : Run} {position : Nat} {entry : Entry}
    {progress : Progress} {exchange : Option Exchange}
    (hw : s.executor.worker = some ⟨b, .running (.joining accepting) run⟩)
    (hentry : run.entries[position]? = some entry) (ready : entry.runnable s.now = true)
    (hpoll : entry.progress.poll s.executor.device s.executor.engine.attackMs s.now entry.action
      entry.cancelled = (progress, exchange)) :
    s.poll position = { s with executor := { s.executor with
      calls := s.executor.calls ++ Exchange.calls s.now run.id position exchange
      worker := some ⟨b, .running (.joining accepting)
        { run with entries := run.entries.set position { entry with progress } }⟩ } } := by
  simp only [poll, hw, hentry, if_pos ready, hpoll, setStage, Executor.setStage]
  rfl

end Clockwork

namespace Crew

variable {φ : Type} {c : Crew φ} {old : List Member} {m : Member}

/-! ## Crews with one worker at work -/

/-- A crew with these workers, the last of which is at work. -/
def seat (c : Crew φ) (old : List Member) (m : Member) : Crew φ := { c with members := old ++ [m] }

theorem seat_self (h : c.members = old ++ [m]) : c.seat old m = c := by
  rw [seat, ← h]

/-- A crew without any worker, as an executor. -/
def vacant (c : Crew φ) : Clockwork φ :=
  ⟨c.now, c.feed,
    { engine := c.engine
      target := c.target
      device := c.device
      focus := c.focus
      phase := c.board.phase
      worker := none
      calls := c.calls }⟩

theorem worker?_of_gone {d : Deferred} (h : m.post = .gone) : m.worker? d = none := by
  simp [Member.worker?, Post.stage?, h]

theorem findSome?_of_gone {d : Deferred} (gone : ∀ o ∈ old, o.post = .gone) :
    old.findSome? (Member.worker? d) = none :=
  List.findSome?_eq_none_iff.2 fun o ho => worker?_of_gone (gone o ho)

/-- When all workers have left, none is seen. -/
theorem single_of_gone (gone : ∀ o ∈ c.members, o.post = .gone) : c.single = c.vacant := by
  rw [single, executor, findSome?_of_gone gone, vacant]

section Seat

variable (gone : ∀ o ∈ old, o.post = .gone)

theorem getElem?_seat : (c.seat old m).members[old.length]? = some m := by simp [seat]

theorem setMember_seat (m' : Member) : (c.seat old m).setMember old.length m' = c.seat old m' := by
  simp only [seat, setMember, List.set_append_right _ _ (Nat.le_refl _), Nat.sub_self]
  rfl

theorem modify_seat (f : Member → Member) :
    (c.seat old m).members.modify old.length f = old ++ [f m] := by
  refine List.ext_getElem? fun i => ?_
  rw [List.getElem?_modify, seat]
  by_cases h : old.length = i
  · subst h
    simp
  · have other : ∀ x : Member, (old ++ [x])[i]? = old[i]? := by
      intro x
      rw [List.getElem?_append]
      split
      · rfl
      · rw [List.getElem?_eq_none (by simp; omega), List.getElem?_eq_none (by omega)]
    rw [other, other]
    simp [h]

theorem setPost_seat (post : Post) :
    (c.seat old m).setPost old.length post = c.seat old { m with post } := by
  rw [setPost, modify_seat]
  rfl

theorem enter_seat (phase : Phase) (post : Post) :
    (c.seat old m).enter old.length phase post =
      { c with board := { c.board with phase } }.seat old { m with post } := by
  rw [enter, setPost_seat]
  rfl

include gone

theorem mapRuns_seat (f : Nat → Shift → Ledger → Run → Run) :
    (c.seat old m).mapRuns f = c.seat old (m.mapRun (f old.length ⟨old.length, m.round⟩)) := by
  have stay : (old.mapIdx fun worker m => m.mapRun (f worker ⟨worker, m.round⟩)) = old :=
    mapIdx_eq_self fun i o ho => by simp [Member.mapRun, gone o (List.mem_of_getElem? ho)]
  simp [seat, mapRuns, List.mapIdx_append, stay]

/-- The worker that is seen is the last one. -/
theorem single_seat : (c.seat old m).single = c.vacant.withWorker (m.worker? c.board.deferred) := by
  simp only [single, executor, seat, List.findSome?_append, findSome?_of_gone gone, Option.none_or]
  cases h : m.worker? c.board.deferred <;> simp [h, vacant, calls]

theorem gone_seat (round : Nat) (b : Bool) :
    ∀ o ∈ (c.seat old ⟨b, round, .gone⟩).members, o.post = .gone := by
  intro o ho
  rcases List.mem_append.1 ho with ho | ho
  · exact gone o ho
  · rw [List.mem_singleton.1 ho]

end Seat

variable [Feed φ]

/-- How a move of a crew is seen, and that it leaves one worker at most. -/
structure Mirrors (c : Crew φ) (m : Move) : Prop where
  lone : (c.move m).Lone
  single : (c.move m).single = c.single.play (c.plainMove m)
  events : (c.notes m).map (·.event) = c.single.journal (c.plainMove m)

theorem Mirrors.of_still {m : Move} (lone : c.Lone) (still : c.move m = c) (plain : c.plainMove m = [])
    (silent : c.notes m = []) : c.Mirrors m where
  lone := by rwa [still]
  single := by rw [still, plain]; rfl
  events := by rw [silent, plain]; rfl

/-- A move that changes nothing, where what a single worker does changes nothing either. -/
theorem Mirrors.of_rest {mv : Move} (moves : List Combo.Move) (gone : ∀ o ∈ old, o.post = .gone)
    (lone : (c.seat old m).Lone) (still : (c.seat old m).move mv = c.seat old m)
    (plain : (c.seat old m).plainMove mv = moves)
    (rest : ∀ s : Clockwork φ, s.now = c.now → s.executor.worker = m.worker? c.board.deferred →
      s.play moves = s ∧ s.journal moves = [])
    (silent : (c.seat old m).notes mv = []) : (c.seat old m).Mirrors mv := by
  obtain ⟨stays, unseen⟩ := rest (c.vacant.withWorker (m.worker? c.board.deferred)) rfl rfl
  refine ⟨by rwa [still], ?_, ?_⟩
  · rw [still, plain, single_seat gone, stays]
  · rw [silent, plain, single_seat gone, unseen]
    rfl

/-- A move after which the last worker is still there. -/
theorem Mirrors.of_seat {m₁ : Member} {mv : Move} (c₁ : Crew φ) (moves : List Combo.Move)
    (gone : ∀ o ∈ old, o.post = .gone) (hmove : (c.seat old m).move mv = c₁.seat old m₁)
    (slot : c₁.slot = if m₁.stopping then none else some old.length) (leftovers : c₁.leftovers = [])
    (fits : c₁.board.Fits old.length m₁) (plain : (c.seat old m).plainMove mv = moves)
    (single : c₁.vacant.withWorker (m₁.worker? c₁.board.deferred) =
      (c.vacant.withWorker (m.worker? c.board.deferred)).play moves)
    (events : ((c.seat old m).notes mv).map (·.event) =
      (c.vacant.withWorker (m.worker? c.board.deferred)).journal moves) :
    (c.seat old m).Mirrors mv where
  lone := by
    rw [hmove]
    exact .one rfl gone slot leftovers fits
  single := by rw [hmove, single_seat gone, single_seat gone, plain, single]
  events := by rw [single_seat gone, plain, events]

/-- A move with which the last worker leaves. -/
theorem Mirrors.of_leave {b : Bool} {round : Nat} {mv : Move} (c₁ : Crew φ)
    (moves : List Combo.Move) (gone : ∀ o ∈ old, o.post = .gone)
    (hmove : (c.seat old m).move mv = c₁.seat old ⟨b, round, .gone⟩)
    (slot : c₁.slot = none) (leftovers : c₁.leftovers = []) (blank : c₁.board.IsBlank)
    (plain : (c.seat old m).plainMove mv = moves)
    (single : c₁.vacant = (c.vacant.withWorker (m.worker? c.board.deferred)).play moves)
    (events : ((c.seat old m).notes mv).map (·.event) =
      (c.vacant.withWorker (m.worker? c.board.deferred)).journal moves) :
    (c.seat old m).Mirrors mv where
  lone := by
    rw [hmove]
    exact .none (gone_seat gone _ _) slot leftovers blank
  single := by
    rw [hmove, single_of_gone (gone_seat gone _ _), single_seat gone, plain, ← single]
    rfl
  events := by rw [single_seat gone, plain, events]

end Crew

end Combo
