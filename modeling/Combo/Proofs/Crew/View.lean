-- SUMMARY: What a crew shows and answers with one worker at a time, which is what a single worker shows and answers.
import Combo.Proofs.Crew.Trim
import Combo.Proofs.Clockwork.Course

/-!
# A lone worker seen from outside

With one worker at a time a crew cannot be told from a single worker by what others
can see of the workers: the clock, the phase, the running group, the keys, whether it
is started, and the answers to requests. `LooksLike` lists this, and `SeenAs` says of a whole play
that it is seen as a play of a single worker. What was given up before may still let go meanwhile.
-/

namespace Combo

namespace Crew

variable {φ : Type} {c : Crew φ} {old : List Member} {m : Member}

/-- Whether a crew shows and answers what a system with a single worker does. -/
structure LooksLike (c : Crew φ) (s : Clockwork φ) : Prop where
  now : s.now = c.now
  phase : s.executor.phase = c.board.phase
  current : s.executor.current = c.board.current
  keys : s.executor.keys = c.keys
  started : s.executor.isStarted = c.isStarted
  quiet : c.isQuiet = true → s.isQuiet = true
  answers : ∀ r, (s.executor.serve r).2 = (c.serve r).2
  running : ∀ step run, s.IsRunning step run ↔
    ∃ (w : Nat) (b : Bool) (k : Nat) (ledger : Ledger), c.members[w]? = some ⟨b, k, .running step run ledger⟩
  reporting : ∀ report, s.IsReporting report ↔
    ∃ (w : Nat) (b : Bool) (k : Nat) (faulty : Bool), c.members[w]? = some ⟨b, k, .reporting report faulty⟩

/-- A worker that is there is the one that is seen. -/
theorem Lone.worker_of_member (lone : c.Lone) {w : Nat} {m : Member} (hm : c.members[w]? = some m)
    (there : m.post ≠ .gone) : c.single.executor.worker = m.worker? c.board.deferred := by
  cases lone with
  | none gone => exact absurd (gone m (List.mem_of_getElem? hm)) there
  | @one old m₁ members gone =>
    rw [members] at hm
    rw [← seat_self members, single_seat gone]
    rcases List.mem_append.1 (List.mem_of_getElem? hm) with earlier | last
    · exact absurd (gone m earlier) there
    · rw [List.mem_singleton.1 last]
      rfl

/-- The board is as the worker that is there has left it. -/
theorem Lone.fits_of_member {sent : List Sent} (lone : (c.trim sent).Lone) {w : Nat} {m : Member}
    (hm : c.members[w]? = some m) (there : m.post ≠ .gone) : c.board.Fits w m := by
  cases lone with
  | none gone => exact absurd (gone m (List.mem_of_getElem? hm)) there
  | @one old m₁ members gone slot leftovers fits =>
    have members : c.members = old ++ [m₁] := members
    obtain ⟨rfl, rfl⟩ := eq_last_of_there gone (members ▸ hm) there
    exact fits

/-- The worker that is seen is one of the workers. -/
theorem exists_member_of_worker {b : Bool} {stage : Stage} (h : c.single.executor.worker = some ⟨b, stage⟩) :
    ∃ (w k : Nat) (post : Post), c.members[w]? = some ⟨b, k, post⟩ ∧ post.stage? c.board.deferred = some stage := by
  obtain ⟨m, mem, hm⟩ := List.exists_of_findSome?_eq_some h
  obtain ⟨w, hw⟩ := List.mem_iff_getElem?.1 mem
  obtain ⟨stage', posted, heq⟩ := Option.map_eq_some_iff.1 hm
  cases heq
  exact ⟨w, m.round, m.post, hw, posted⟩

theorem Lone.running (lone : c.Lone) (step : Step) (run : Run) : c.single.IsRunning step run ↔
    ∃ (w : Nat) (b : Bool) (k : Nat) (ledger : Ledger), c.members[w]? = some ⟨b, k, .running step run ledger⟩ := by
  constructor
  · rintro ⟨b, hw⟩
    obtain ⟨w, k, post, hm, stage⟩ := exists_member_of_worker hw
    cases post <;> cases stage
    exact ⟨w, b, k, _, hm⟩
  · rintro ⟨w, b, k, ledger, hm⟩
    exact ⟨b, lone.worker_of_member hm (by simp)⟩

theorem Lone.reporting (lone : c.Lone) (report : Report) : c.single.IsReporting report ↔
    ∃ (w : Nat) (b : Bool) (k : Nat) (faulty : Bool), c.members[w]? = some ⟨b, k, .reporting report faulty⟩ := by
  constructor
  · rintro ⟨b, faulty, hw⟩
    obtain ⟨w, k, post, hm, stage⟩ := exists_member_of_worker hw
    cases post <;> cases stage
    exact ⟨w, b, k, _, hm⟩
  · rintro ⟨w, b, k, faulty, hm⟩
    exact ⟨b, faulty, lone.worker_of_member hm (by simp)⟩

/-- What a worker at work shows of itself is on the board. -/
theorem shown_seat (fits : c.board.Fits old.length m) :
    let s := c.vacant.withWorker (m.worker? c.board.deferred)
    s.executor.current = c.board.current ∧ s.executor.keys = c.keys := by
  obtain ⟨b, k, post⟩ := m
  have blank (h : c.board.IsBlank) : (none : Option Group) = c.board.current ∧ ([] : List String) = c.keys :=
    ⟨h.current.symm, by rw [Crew.keys, h.listings]; rfl⟩
  cases post with
  | running step run ledger =>
    refine ⟨fits.current.symm, ?_⟩
    rw [Crew.keys, fits.listings, Run.shown, Listing.keys_ofEntries]
    rfl
  | asking | taken _ => exact blank fits.1
  | crashed => exact blank fits.1
  | checking | reporting _ _ | sleeping _ => exact blank fits
  | gone => exact fits.elim

theorem Lone.looksLike (lone : c.Lone) : c.LooksLike c.single := by
  have running := lone.running
  have reporting := lone.reporting
  cases lone with
  | none gone slot leftovers blank =>
    rw [single_of_gone gone] at running reporting ⊢
    exact
      { now := rfl
        phase := rfl
        current := blank.current.symm
        keys := by rw [Crew.keys, blank.listings]; rfl
        started := by rw [isStarted, slot]; rfl
        quiet := fun _ => rfl
        answers := fun r => by
          have rest := isAtRest_of_gone gone
          cases r with
          | interruptAll => simp only [serve, interruptAll_of_rest rest blank]; rfl
          | interruptConflicting g => simp only [serve, interruptConflicting_of_rest rest blank g]; rfl
          | layer g =>
            have refused := layer_of_refused g fun m hm run ledger => rest m hm (.joining true) run ledger
            simp only [serve, refused]
            rfl
        running, reporting }
  | @one old m members gone slot leftovers fits =>
    rw [← seat_self members] at slot leftovers fits running reporting ⊢
    rw [single_seat gone] at running reporting ⊢
    obtain ⟨current, keys⟩ := shown_seat fits
    exact
      { now := rfl
        phase := rfl
        current, keys
        started := by
          have kept : (c.seat old m).slot = if m.stopping then Option.none else some old.length := slot
          rw [isStarted, kept]
          obtain ⟨b, k, post⟩ := m
          cases post with
          | gone => exact fits.elim
          | _ => cases b <;> rfl
        quiet := fun quiet => by
          refine isQuiet_seat fits ?_
          have idle : (!m.isBusy c.now) = true :=
            List.all_eq_true.1 (Bool.and_eq_true_iff.1 quiet).2 m (by simp [seat])
          simpa using idle
        answers := fun r => by
          obtain ⟨board, m₁, answer, served, -, -, single⟩ := serves gone fits r
          exact (congrArg Prod.snd single).trans (congrArg Prod.snd served).symm
        running, reporting }

/-- What was given up, and what was sent, is not looked at. -/
theorem LooksLike.of_trim {sent : List Sent} {s : Clockwork φ} (h : (c.trim sent).LooksLike s) :
    c.LooksLike s where
  now := h.now
  phase := h.phase
  current := h.current
  keys := h.keys
  started := h.started
  quiet := fun quiet => h.quiet (by simpa [isQuiet, trim] using (Bool.and_eq_true_iff.1 quiet).2)
  answers := fun r => (h.answers r).trans (by rw [serve_trim])
  running := h.running
  reporting := h.reporting

variable [Feed φ]

/-- Whether what is seen of the workers in a play of a crew is seen in a play of a single worker. -/
structure SeenAs (c : Crew φ) (moves : List Move) (s : Clockwork φ) (plain : List Combo.Move) : Prop where
  journal : c.seen Option.isSome moves = s.journal plain
  looks : (c.play moves).LooksLike (s.play plain)

theorem Lone.seenAs (lone : (c.trim c.sent).Lone) {moves : List Move} (orderly : c.Orderly moves) :
    c.SeenAs moves c.single (c.plain moves) := by
  obtain ⟨sent', lone', single, journal⟩ := lone.trim_play orderly
  have single : ((c.play moves).trim sent').single = c.single.play (c.plain moves) := single
  exact ⟨journal, single ▸ lone'.looksLike.of_trim⟩

omit [Feed φ] in
/-- A lone worker is as far with its actions as its step says. -/
theorem Lone.sound (lone : (c.trim c.sent).Lone) (tidy : c.Tidy) : c.single.executor.Sound := by
  intro b step run hw
  obtain ⟨w, k, post, hm, stage⟩ := exists_member_of_worker hw
  obtain ⟨ledger, rfl⟩ : ∃ ledger, post = .running step run ledger := by
    cases post <;> cases stage
    exact ⟨_, rfl⟩
  have shows : c.board.Shows b ⟨w, k⟩ step run ledger := lone.fits_of_member hm (by simp)
  exact ⟨(tidy.sound w _ hm).1, shows.coherent, shows.phase⟩

omit [Feed φ] in
/-- What was given up does not matter to who is seen. -/
theorem Lone.worker (lone : (c.trim c.sent).Lone) {w : Nat} (hm : c.members[w]? = some m)
    (there : m.post ≠ .gone) : c.single.executor.worker = m.worker? c.board.deferred :=
  lone.worker_of_member hm there

/-- A move that a single worker makes as well leads to what the single worker is led to. -/
theorem Lone.single_move (lone : (c.trim c.sent).Lone) {mv : Move} {m : Combo.Move}
    (regular : c.isRegular mv = true) (plain : c.plainMove mv = [m]) :
    ((c.move mv).trim (c.move mv).sent).Lone ∧ (c.move mv).single = c.single.move m := by
  rcases isOwn_or_still c.sent regular with own | ⟨-, silent, -⟩
  · obtain ⟨new, grown, lone', single, -⟩ := lone.trim_mirrors_own regular own
    rw [← grown, plain] at *
    exact ⟨lone', single⟩
  · cases plain.symm.trans silent

/-- When no worker was hired before the last one had left, a crew is seen as a single worker, which is sound. -/
theorem lone_of_successive {feed : φ} {engine : Engine} {target : Target} {device : Device} {focus : Focus}
    {earlier : List Move} (successive : (new feed engine target device focus).Successive earlier) :
    let c := (new feed engine target device focus).play earlier
    (c.trim c.sent).Lone ∧ c.single.executor.Sound := by
  intro c
  have lone := lone_play feed engine target device focus earlier successive c.sent
  exact ⟨lone, lone.sound (tidy_play feed engine target device focus earlier)⟩

end Crew

end Combo
