-- SUMMARY: With any time at all to unwind in, the actions of a cancelled group are never given up by a lone worker.
import Combo.Proofs.Crew.Trim

/-!
# Deadlines

Only a worker that notices that its group is cancelled sets a deadline, and the
clock stands still until it has reported: every action of a cancelled group
can be polled and ends with that, and the worker can join those that have ended. So the
deadline is not reached unless it was due when it was set, which is so only
without any time to unwind in.
-/

namespace Combo

/-- Until when a worker at a post waits for the actions of a cancelled group. -/
def Post.deadline? : Post → Option Nat
  | .running _ _ ledger => ledger.deadline
  | .checking | .asking | .taken _ | .reporting _ _ | .sleeping _ | .crashed | .gone => none

/-- A worker at a cancelled run has something left to do. -/
theorem Member.isBusy_of_cancelled {m : Member} {now : Nat} {step : Step} {run : Run} {ledger : Ledger}
    (running : m.post = .running step run ledger) (coherent : run.Coherent)
    (cancelled : run.cancelled = true) : m.isBusy now = true := by
  obtain ⟨b, k, post⟩ := m
  obtain rfl : post = _ := running
  have of_ready (ready : stepReady now run ledger step = true) :
      isBusy now ⟨b, k, .running step run ledger⟩ = true := by
    simp [isBusy, isReady, ready]
  cases step with
  | focusing | opening | closing => exact of_ready rfl
  | settling due => exact of_ready (by simp [stepReady, cancelled])
  | joining accepting =>
    cases rests : run.runnable? now with
    | some position => simp [isBusy, runnable?, rests]
    | none =>
      cases taken : run.joinable? ledger with
      | some position => simp [isBusy, joinable?, taken]
      | none =>
        have drained := coherent.isDrained_of_cancelled cancelled rests
        have joined := Run.isJoined_of_isDrained drained taken
        exact of_ready (by simp [stepReady, joined])

namespace Crew

variable {φ : Type} {c c' c'' : Crew φ} {sent : List Sent}

/-! ## Who sets a deadline -/

/-- Whether every deadline of a crew is one that the same worker has in another. -/
def SetsNone (c c' : Crew φ) : Prop :=
  ∀ (w : Nat) (m' : Member), c'.members[w]? = some m' → ∀ d ∈ m'.post.deadline?,
    ∃ m, c.members[w]? = some m ∧ d ∈ m.post.deadline?

theorem SetsNone.of_members (h : c'.members = c.members) : c.SetsNone c' :=
  fun _ m' hm' _ hd => ⟨m', h ▸ hm', hd⟩

theorem SetsNone.trans (h : c.SetsNone c') (h' : c'.SetsNone c'') : c.SetsNone c'' := by
  intro w m'' hm'' d hd
  obtain ⟨m', hm', hd'⟩ := h' w m'' hm'' d hd
  exact h w m' hm' d hd'

/-- A worker that is replaced keeps its deadline at most. -/
theorem SetsNone.of_replaces {w : Nat} {m m' : Member} (hm : c.members[w]? = some m)
    (replaces : c.Replaces w m' c') (kept : ∀ d ∈ m'.post.deadline?, d ∈ m.post.deadline?) :
    c.SetsNone c' := by
  intro v o ho d hd
  by_cases here : v = w
  · subst here
    cases replaces.here.symm.trans ho
    exact ⟨m, hm, kept d hd⟩
  · exact ⟨o, (replaces.elsewhere v here).symm.trans ho, hd⟩

theorem SetsNone.of_setPost {w : Nat} {m : Member} (hm : c.members[w]? = some m) (post : Post)
    (members : c'.members = (c.setPost w post).members) (kept : ∀ d ∈ post.deadline?, d ∈ m.post.deadline?) :
    c.SetsNone c' :=
  .of_replaces hm (replaces_setPost hm post members) kept

theorem setsNone_mapRuns (f : Nat → Shift → Ledger → Run → Run) (c : Crew φ) : c.SetsNone (c.mapRuns f) := by
  intro w m' hm' d hd
  obtain ⟨m, hm, rfl⟩ : ∃ m, c.members[w]? = some m ∧ m.mapRun (f w ⟨w, m.round⟩) = m' := by
    simpa [mapRuns, List.getElem?_mapIdx] using hm'
  refine ⟨m, hm, ?_⟩
  obtain ⟨b, k, post⟩ := m
  cases post <;> exact hd

theorem setsNone_cancelUnder (hit : Shift → Bool) (c : Crew φ) : c.SetsNone (c.cancelUnder hit) :=
  setsNone_mapRuns _ c

theorem setsNone_cancelListed (listings : List Listing) (c : Crew φ) :
    c.SetsNone (c.cancelListed listings) :=
  setsNone_mapRuns _ c

theorem setsNone_interruptAll (c : Crew φ) : c.SetsNone c.interruptAll.1 :=
  ((setsNone_cancelUnder _ c).trans (setsNone_cancelListed _ _)).trans (.of_members rfl)

theorem setsNone_stop (c : Crew φ) : c.SetsNone c.stop := by
  unfold stop
  split
  · exact .of_members rfl
  · rename_i worker _
    refine SetsNone.trans ?_ ((setsNone_cancelUnder _ _).trans (setsNone_interruptAll _))
    intro w m' hm' d hd
    simp only [List.getElem?_modify] at hm'
    by_cases here : worker = w
    · obtain ⟨m, hm, rfl⟩ : ∃ m, c.members[w]? = some m ∧ m.stop = m' := by simpa [here] using hm'
      refine ⟨m, hm, ?_⟩
      unfold Member.stop at hd
      split at hd
      · cases hd
      · exact hd
    · exact ⟨m', by simpa [here] using hm', hd⟩

/-- A request sets no deadline. -/
theorem setsNone_serve (r : Request) (c : Crew φ) : c.SetsNone (c.serve r).1 := by
  cases r with
  | interruptAll => exact setsNone_interruptAll c
  | interruptConflicting g =>
    simp only [serve, interruptConflicting]
    split
    · exact .of_members rfl
    · exact (setsNone_cancelListed _ c).trans (.of_members rfl)
  | layer g =>
    simp only [serve, layer]
    split
    · split
      · rename_i member
        split
        · exact .of_members rfl
        · exact .of_replaces member (replaces_setMember member _ rfl) fun _ hd => hd
      · exact .of_members rfl
    · exact .of_members rfl

/-- A step of a worker in a run sets no deadline. -/
theorem setsNone_stepRun {w k : Nat} {b : Bool} {step : Step} {run : Run} {ledger : Ledger}
    (hm : c.members[w]? = some ⟨b, k, .running step run ledger⟩) :
    c.SetsNone (c.stepRun w run ledger step) := by
  have stays {c' : Crew φ} (step' : Step) (run' : Run)
      (members : c'.members = (c.setPost w (.running step' run' ledger)).members) : c.SetsNone c' :=
    .of_setPost hm _ members fun _ hd => hd
  cases step with
  | focusing =>
    simp only [stepRun, seeToFocus]
    split
    · exact stays _ _ rfl
    · split
      · exact stays _ _ rfl
      · exact stays _ _ rfl
  | settling due => exact stays _ _ rfl
  | opening => exact stays _ _ rfl
  | joining accepting =>
    simp only [stepRun, wait]
    split
    · exact stays _ _ rfl
    · split
      · exact stays _ _ rfl
      · exact stays _ _ rfl
  | closing fault => exact .of_setPost hm (.reporting run.report fault.isSome) rfl fun _ hd => by cases hd

variable [Feed φ]

/-- A step of a worker sets no deadline. -/
theorem setsNone_work (w : Nat) (c : Crew φ) : c.SetsNone (c.work w) := by
  unfold work
  split
  · exact .of_members rfl
  · rename_i m hm
    split
    · obtain ⟨b, k, post⟩ := m
      have free {c' : Crew φ} (post' : Post) (none : post'.deadline? = Option.none)
          (members : c'.members = (c.setPost w post').members) : c.SetsNone c' :=
        .of_setPost hm _ members fun _ hd => by rw [none] at hd; cases hd
      have top : c.SetsNone (c.beginRound w b) := by
        unfold beginRound
        split
        · exact free .gone rfl rfl
        · exact free .asking rfl rfl
      cases post with
      | checking | sleeping due => exact top
      | asking =>
        simp only [ask]
        split
        · exact free (.taken _) rfl rfl
        · exact free (.sleeping _) rfl rfl
        · exact free (if b then .gone else .crashed) (by cases b <;> rfl) rfl
      | taken ticket =>
        exact .of_replaces hm (replaces_setMember hm _ rfl) fun _ hd => by cases hd
      | running step run ledger => exact setsNone_stepRun hm
      | reporting report faulty =>
        exact free (if faulty then .sleeping _ else .checking) (by cases faulty <;> rfl) rfl
      | crashed | gone => exact .of_members rfl
    · exact .of_members rfl

/-- No move but that of a worker that notices that its group is cancelled sets a deadline. -/
theorem setsNone_move {mv : Move} (unnoticed : ∀ w, mv ≠ .notice w) (c : Crew φ) : c.SetsNone (c.move mv) := by
  cases mv with
  | work worker => exact setsNone_work worker c
  | closeLate worker =>
    simp only [move, closeLate]
    split
    · rename_i hm
      split
      · exact .of_setPost hm _ rfl fun _ hd => hd
      · exact .of_members rfl
    · exact .of_members rfl
  | poll worker position =>
    simp only [move, poll]
    split
    · rename_i hm
      split
      · exact .of_members rfl
      · split
        · exact .of_setPost hm _ rfl fun _ hd => hd
        · exact .of_members rfl
    · exact .of_members rfl
  | join worker position =>
    simp only [move, join]
    split
    · rename_i hm
      split
      · exact .of_setPost hm _ rfl fun _ hd => hd
      · exact .of_members rfl
    · exact .of_members rfl
  | notice worker => exact absurd rfl (unnoticed worker)
  | giveUp worker =>
    simp only [move, giveUp]
    split
    · rename_i hm
      split
      · exact .of_setPost hm _ rfl fun _ hd => hd
      · exact .of_members rfl
    · exact .of_members rfl
  | letGo index =>
    simp only [move, letGo]
    split <;> exact .of_members rfl
  | tick =>
    simp only [move, tick]
    split <;> exact .of_members rfl
  | start =>
    simp only [move, start]
    split
    · exact .of_members rfl
    · intro w m' hm' d hd
      rw [List.getElem?_append] at hm'
      split at hm'
      · exact ⟨m', hm', hd⟩
      · obtain rfl : m' = {} := by simpa using List.mem_of_getElem? hm'
        cases hd
  | stop => exact setsNone_stop c
  | abort worker =>
    simp only [move, abort]
    split
    · rename_i hm
      split
      · exact .of_setPost hm .gone rfl fun _ hd => by cases hd
      · exact .of_members rfl
    · exact .of_members rfl
  | request r => exact setsNone_serve r c
  | setFocus active failing => exact .of_members rfl
  | setDevice device => exact .of_members rfl

/-! ## The clock -/

/-- Whether every deadline is still to come. -/
def InTime (c : Crew φ) : Prop :=
  ∀ (w : Nat) (m : Member), c.members[w]? = some m → ∀ d ∈ m.post.deadline?, c.now < d

omit [Feed φ] in
/-- While a lone worker has a deadline it has something left to do. -/
theorem Lone.isBusy_of_deadline (lone : (c.trim sent).Lone) {w d : Nat} {m : Member}
    (hm : c.members[w]? = some m) (hd : d ∈ m.post.deadline?) : m.isBusy c.now = true := by
  obtain ⟨b, k, post⟩ := m
  cases post with
  | running step run ledger =>
    obtain ⟨old, shows⟩ : ∃ own, c.board.Shows b own step run ledger := by
      cases lone with
      | none gone => cases gone _ (List.mem_of_getElem? hm)
      | @one old m members gone _ _ fits =>
        have members : c.members = old ++ [m] := members
        obtain ⟨rfl, rfl⟩ := eq_last_of_there gone (members ▸ hm) (by simp)
        exact ⟨_, fits⟩
    have noticed : ledger.deadline.isSome = true := Option.isSome_iff_exists.2 ⟨d, hd⟩
    exact Member.isBusy_of_cancelled rfl shows.coherent (shows.noticed noticed)
  | checking | asking | taken | reporting | sleeping | crashed | gone => cases hd

/-- A worker that notices that its group is cancelled sets a deadline that is still to come. -/
theorem InTime.notice (h : c.InTime) (time : 0 < c.engine.cleanupMs) (worker : Nat) :
    (c.move (.notice worker)).InTime := by
  simp only [move, Crew.notice]
  split
  · rename_i b k accepting run ledger hm
    split
    · intro w m' hm' d hd
      have replaces := replaces_setPost (c := c) hm (.running (.joining accepting) run
        { ledger with deadline := some (c.now + c.engine.cleanupMs) }) rfl
      by_cases here : w = worker
      · subst here
        cases replaces.here.symm.trans hm'
        obtain rfl : c.now + c.engine.cleanupMs = d := by simpa [Post.deadline?] using hd
        exact Nat.lt_add_of_pos_right time
      · exact h w m' ((replaces.elsewhere w here).symm.trans hm') d hd
    · exact h
  · exact h

/-- The clock does not reach a deadline that is set for later. -/
theorem InTime.move (h : c.InTime) (time : 0 < c.engine.cleanupMs) (lone : (c.trim sent).Lone) (mv : Move) :
    (c.move mv).InTime := by
  by_cases notices : ∃ w, mv = .notice w
  · obtain ⟨w, rfl⟩ := notices
    exact h.notice time w
  · intro w m' hm' d hd
    obtain ⟨m, hm, hd'⟩ := setsNone_move (fun w heq => notices ⟨w, heq⟩) c w m' hm' d hd
    by_cases ticks : mv = .tick
    · subst ticks
      have busy := lone.isBusy_of_deadline hm hd'
      have loud : c.isQuiet = false := by
        refine Bool.eq_false_iff.2 fun quiet => ?_
        have idle := List.all_eq_true.1 (Bool.and_eq_true_iff.1 quiet).2 m (List.mem_of_getElem? hm)
        simp [busy] at idle
      have still : c.move .tick = c := by simp [Crew.move, tick, loud]
      rw [still]
      exact h w m hm d hd'
    · rw [now_move c ticks]
      exact h w m hm d hd'

omit [Feed φ] in
/-- No worker gives up before its deadline. -/
theorem InTime.canGiveUp (h : c.InTime) (w : Nat) : c.members[w]?.any (Member.canGiveUp c.now) = false := by
  cases hm : c.members[w]? with
  | none => rfl
  | some m =>
    refine Bool.eq_false_iff.2 fun due => ?_
    obtain ⟨b, k, post⟩ := m
    cases post with
    | running step run ledger =>
      cases step with
      | joining accepting =>
        obtain ⟨d, hd, le⟩ : ∃ d, ledger.deadline = some d ∧ d ≤ c.now := by
          simpa [Member.canGiveUp, Option.any_eq_true] using due
        exact absurd (h w _ hm d hd) (Nat.not_lt.2 le)
      | focusing | settling | opening | closing => cases due
    | checking | asking | taken | reporting | sleeping | crashed | gone => cases due

/-- While one worker at a time is hired no deadline is reached. -/
theorem InTime.play (h : c.InTime) (time : 0 < c.engine.cleanupMs) (lone : (c.trim sent).Lone) {moves : List Move}
    (successive : c.Successive moves) : (c.play moves).InTime := by
  induction moves generalizing c with
  | nil => exact h
  | cons mv moves ih =>
    have time' : 0 < (c.move mv).engine.cleanupMs := by rwa [(settings_move c mv).1]
    exact ih (h.move time lone mv) time' (lone.trim_move successive.1) successive.2

/-- Where no deadline is reached, no worker is hired too early and none is taken away, all is in order. -/
theorem InTime.orderly (h : c.InTime) (time : 0 < c.engine.cleanupMs) (lone : (c.trim sent).Lone)
    {moves : List Move} (successive : c.Successive moves) (kept : ∀ w, .abort w ∉ moves) : c.Orderly moves := by
  induction moves generalizing c with
  | nil => trivial
  | cons mv moves ih =>
    have time' : 0 < (c.move mv).engine.cleanupMs := by rwa [(settings_move c mv).1]
    refine ⟨?_, ih (h.move time lone mv) time' (lone.trim_move successive.1) successive.2 fun w hw =>
      kept w (List.mem_cons_of_mem _ hw)⟩
    cases mv with
    | giveUp w => simp only [isRegular, h.canGiveUp w, Bool.not_false]
    | abort w => exact absurd List.mem_cons_self (kept w)
    | _ => exact successive.1

/--
With any time to unwind in and one worker at a time, the deadline at which a worker may give up its
actions never comes: the clock does not go on before the worker has joined them. So from any moment on
all is in order as long as no worker is taken away.
-/
theorem orderly_of_cleanupMs (feed : φ) (engine : Engine) (target : Target) (device : Device) (focus : Focus)
    (time : 0 < engine.cleanupMs) (earlier : List Move) {later : List Move}
    (successive : (new feed engine target device focus).Successive (earlier ++ later))
    (kept : ∀ w, .abort w ∉ later) : ((new feed engine target device focus).play earlier).Orderly later := by
  obtain ⟨before, after⟩ := successive_append.1 successive
  have first : (new feed engine target device focus).InTime := fun w m hm => by simp [new] at hm
  have alone : ((new feed engine target device focus).trim []).Lone :=
    .none (fun _ h => by cases h) rfl rfl ⟨rfl, rfl, rfl⟩
  have lone := lone_play feed engine target device focus earlier before []
  refine (first.play time alone before).orderly ?_ lone after kept
  rwa [(settings_play _ earlier).1]

end Crew

end Combo
