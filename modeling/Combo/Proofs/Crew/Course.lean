-- SUMMARY: Induction over a play with one worker at a time: what the single worker does, and how it gives up its actions or is taken away.
import Combo.Proofs.Crew.View

/-!
# The course of one worker at a time

As long as no worker is hired before the last one has left, every move is one or two of the single worker that is
seen, or none; or the worker gives its actions up; or it is taken away. A fact about what was seen and about
the single worker that all of these keep is kept in the whole play.
-/

namespace Combo

namespace Crew

variable {φ : Type} [Feed φ] {c : Crew φ} {sent : List Sent} {mv : Move}

/-- The single worker makes at most one move, unless the feed crashes on one that was told to stop. -/
theorem plainMove_cases (c : Crew φ) (mv : Move) :
    c.plainMove mv = [] ∨ (∃ m, c.plainMove mv = [m] ∧ m ≠ .abort ∧ (m = .requestStop → mv = .stop)) ∨
      ∃ (w k : Nat), c.plainMove mv = [.work, .requestStop] ∧ c.members[w]? = some ⟨true, k, .asking⟩ ∧
        (Feed.next c.now c.feed).1 = .crash := by
  cases mv with
  | work worker =>
    simp only [plainMove, plainWork]
    split
    · exact .inl rfl
    · rename_i m hm
      obtain ⟨b, k, post⟩ := m
      split
      · cases post with
        | asking =>
          by_cases crash : (b && (Feed.next c.now c.feed).1 == .crash) = true
          · obtain ⟨rfl, crash⟩ := Bool.and_eq_true_iff.1 crash
            exact .inr (.inr ⟨worker, k, by simp [crash], hm, beq_iff_eq.1 crash⟩)
          · exact .inr (.inl ⟨.work, by simp [crash], by simp, by simp⟩)
        | running step run ledger =>
          cases step with
          | joining accepting =>
            cases accepting
            · exact .inr (.inl ⟨.work, rfl, by simp, by simp⟩)
            · refine .inr (.inl ?_)
              dsimp only
              split
              · exact ⟨.closeLate, rfl, by simp, by simp⟩
              · exact ⟨.work, rfl, by simp, by simp⟩
          | _ => exact .inr (.inl ⟨.work, rfl, by simp, by simp⟩)
        | _ => exact .inr (.inl ⟨.work, rfl, by simp, by simp⟩)
      · exact .inl rfl
  | closeLate worker =>
    simp only [plainMove]
    split
    · split
      · exact .inr (.inl ⟨_, rfl, by simp, by simp⟩)
      · exact .inl rfl
    · exact .inl rfl
  | poll worker position =>
    simp only [plainMove]
    split
    · exact .inr (.inl ⟨_, rfl, by simp, by simp⟩)
    · exact .inl rfl
  | tick | stop =>
    simp only [plainMove]
    split
    · exact .inr (.inl ⟨_, rfl, by simp, by simp⟩)
    · exact .inl rfl
  | start =>
    simp only [plainMove]
    split
    · exact .inl rfl
    · exact .inr (.inl ⟨_, rfl, by simp, by simp⟩)
  | request | setFocus | setDevice => exact .inr (.inl ⟨_, rfl, by simp, by simp⟩)
  | join | notice | giveUp | letGo | abort => exact .inl rfl

/-- Whether what is known of one worker at a time is kept, whatever happens to it. -/
structure Keeps (P : List Event → Clockwork φ → Prop) (told : Prop) : Prop where
  /-- The record of commands is not looked at. -/
  blind : ∀ {j : List Event} {s : Clockwork φ} (calls : List Call), P j s →
    P j { s with executor := { s.executor with calls } }
  move : ∀ {j : List Event} {s : Clockwork φ} {m : Combo.Move}, P j s → m ≠ .abort →
    (m = .requestStop → told ∨ ∃ stage, s.executor.worker = some ⟨true, stage⟩) → P (j ++ s.events m) (s.move m)
  giveUp : ∀ {j : List Event} {s : Clockwork φ} {b accepting : Bool} {run : Run} (ledger : Ledger), P j s →
    s.executor.worker = some ⟨b, .running (.joining accepting) run⟩ → run.Coherent → run.cancelled = true →
    P j (s.withWorker (some ⟨b, .running (.closing none) (run.giveUp ledger)⟩))
  abort : ∀ {j : List Event} {s : Clockwork φ} {stage : Stage}, P j s →
    s.executor.worker = some ⟨true, stage⟩ → P (j ++ [.aborted]) (s.withWorker none)

/-! ## Giving up, and being taken away -/

omit [Feed φ] in
/-- A worker that gives up its actions is the one that is seen, and its run is cancelled. -/
theorem Lone.giveUp_cases (lone : (c.trim sent).Lone) (worker : Nat) : c.giveUp worker = c ∨
    ∃ (b accepting : Bool) (run : Run) (ledger : Ledger),
      c.single.executor.worker = some ⟨b, .running (.joining accepting) run⟩ ∧ run.Coherent ∧
        run.cancelled = true ∧ (c.giveUp worker).single =
          c.single.withWorker (some ⟨b, .running (.closing Option.none) (run.giveUp ledger)⟩) := by
  have after := lone.giveUp worker
  revert after
  unfold Crew.giveUp
  split
  · rename_i b k accepting run ledger member
    split
    · rename_i due
      intro after
      have shows : c.board.Shows b ⟨worker, k⟩ (.joining accepting) run ledger :=
        lone.fits_of_member member (by simp)
      have due : ledger.deadline.isSome = true := by cases h : ledger.deadline <;> simp_all
      refine .inr ⟨b, accepting, run, ledger, lone.worker_of_member member (by simp), shows.coherent,
        shows.noticed due, ?_⟩
      have seen := after.worker_of_member (w := worker)
        (m := ⟨b, k, .running (.closing Option.none) (run.giveUp ledger) ledger⟩)
        (by simp [trim, setPost, member]) (by simp)
      exact congrArg c.single.withWorker seen
    · exact fun _ => .inl rfl
  · exact fun _ => .inl rfl

omit [Feed φ] in
/-- A worker that is taken away is the one that is seen, and was told to stop. -/
theorem Lone.abort_cases (lone : (c.trim sent).Lone) {worker : Nat}
    (kept : c.members[worker]?.any Member.isAbortable = true) :
    ∃ stage, c.single.executor.worker = some ⟨true, stage⟩ ∧
      (c.abort worker).single = c.single.withWorker Option.none := by
  obtain ⟨⟨b, k, post⟩, member, kept⟩ := (Option.any_eq_true _ _).1 kept
  have aborted : c.abort worker = { c.setPost worker .gone with
      leftovers := c.leftovers ++ Member.leftovers worker ⟨b, k, post⟩ } := by
    simp only [Crew.abort, member, kept, if_true]
  obtain ⟨rfl, kept⟩ := Bool.and_eq_true_iff.1 kept
  have there : post ≠ .gone := by rintro rfl; cases kept
  obtain ⟨stage, posted⟩ : ∃ stage, post.stage? c.board.deferred = some stage := by
    cases post with
    | gone => exact absurd rfl there
    | _ => exact ⟨_, rfl⟩
  have told : c.single.executor.worker = some ⟨true, stage⟩ :=
    (lone.worker_of_member member there).trans (congrArg (Option.map _) posted)
  -- nobody else is there
  have left : ∀ o ∈ (c.setPost worker .gone).members, o.post = .gone := by
    intro o ho
    obtain ⟨w, hw⟩ := List.mem_iff_getElem?.1 ho
    by_contra there'
    by_cases own : worker = w
    · subst own
      simp [setPost, member] at hw
      subst hw
      exact there' rfl
    · simp only [setPost, List.getElem?_modify, if_neg own, Option.map_eq_map, Option.map_id'] at hw
      exact own (lone.unique member there hw there').1
  refine ⟨stage, told, ?_⟩
  rw [aborted]
  exact congrArg c.single.withWorker (findSome?_of_gone (d := c.board.deferred) left)

/-- A worker on which the feed crashes is dead. -/
theorem Lone.crashed (lone : (c.trim sent).Lone) {w k : Nat} {b : Bool} (hm : c.members[w]? = some ⟨b, k, .asking⟩)
    (crash : (Feed.next c.now c.feed).1 = .crash) :
    ((c.trim sent).single.move .work).executor.worker = some ⟨b, .crashed⟩ := by
  have asking : (c.trim sent).single.executor.worker = some ⟨b, .asking c.board.deferred⟩ :=
    lone.worker_of_member hm (by simp)
  have next : Feed.next (c.trim sent).single.now (c.trim sent).single.feed =
      (.crash, (Feed.next c.now c.feed).2) := Prod.ext crash rfl
  simp [Clockwork.move, Clockwork.workerStep, Clockwork.workerReady, asking, Clockwork.ask, next,
    Clockwork.setStage, Executor.setStage]

/-! ## Plays -/

variable {P : List Event → Clockwork φ → Prop} {told : Prop} {j : List Event}

/-- What is known of one worker at a time is known after the moves that the single worker makes for a move. -/
theorem Keeps.plain (keeps : Keeps P told) (lone : (c.trim sent).Lone) (h : P j (c.trim sent).single)
    (stop : mv = .stop → told) :
    P (j ++ (c.trim sent).single.journal (c.plainMove mv)) ((c.trim sent).single.play (c.plainMove mv)) := by
  rcases plainMove_cases c mv with plain | ⟨m, plain, there, same⟩ | ⟨w, k, plain, hm, crash⟩
  · rw [plain]
    simpa using h
  · rw [plain]
    simpa using keeps.move h there fun hm => .inl (stop (same hm))
  · have crashed := lone.crashed hm crash
    have first := keeps.move (m := .work) h (by simp) (by simp)
    have second := keeps.move (m := .requestStop) first (by simp) fun _ => .inr ⟨_, crashed⟩
    rw [plain]
    simpa using second

/-- What is known of one worker at a time is known after a move with which none is hired beside another. -/
theorem Keeps.crewMove (keeps : Keeps P told) (lone : (c.trim sent).Lone) (h : P j c.single)
    (next : c.isSuccessive mv = true) (stop : mv = .stop → told) :
    P (j ++ ((c.notes mv).filter fun n => n.worker.isSome).map (·.event)) (c.move mv).single := by
  have mirrored (regular : c.isRegular mv = true) :
      P (j ++ ((c.notes mv).filter fun n => n.worker.isSome).map (·.event)) (c.move mv).single := by
    obtain ⟨sent', -, single, events⟩ := lone.trim_mirrors regular
    have h' : P j (c.trim sent).single := keeps.blind _ h
    have after := keeps.plain lone h' stop
    rw [← events, ← single] at after
    exact keeps.blind (c.move mv).calls after
  cases mv with
  | giveUp worker =>
    have silent : j ++ ((c.notes (.giveUp worker)).filter fun n => n.worker.isSome).map (·.event) = j :=
      List.append_nil j
    rw [silent, Crew.move]
    rcases lone.giveUp_cases worker with still | ⟨b, accepting, run, ledger, worker, coherent, cancelled, single⟩
    · rwa [still]
    · rw [single]
      exact keeps.giveUp ledger h worker coherent cancelled
  | abort worker =>
    cases kept : c.members[worker]?.any Member.isAbortable with
    | false => exact mirrored (by simp [isRegular, kept])
    | true =>
      obtain ⟨stage, told, single⟩ := lone.abort_cases kept
      rw [Crew.move, single, show c.notes (.abort worker) = [⟨some worker, .aborted⟩] from if_pos kept]
      exact keeps.abort h told
  | _ => exact mirrored next

/-- What is known of one worker at a time is known after a play with no worker hired before the last one left. -/
theorem Keeps.play (keeps : Keeps P told) (lone : (c.trim sent).Lone) (h : P j c.single) {moves : List Move}
    (successive : c.Successive moves) (stop : .stop ∈ moves → told) :
    P (j ++ c.seen Option.isSome moves) (c.play moves).single := by
  induction moves generalizing c j with
  | nil => simpa [seen] using h
  | cons mv moves ih =>
    have first := keeps.crewMove lone h successive.1 fun same => stop (by simp [same])
    have rest := ih (lone.trim_move successive.1) first successive.2 fun hs => stop (List.mem_cons_of_mem _ hs)
    rw [List.append_assoc] at rest
    simpa [seen] using rest

/-- What is known at first is known after every play with one worker at a time. -/
theorem Keeps.play_new (keeps : Keeps P told) {feed : φ} {engine : Engine} {target : Target} {device : Device}
    {focus : Focus} (h : P [] (new feed engine target device focus).single) {moves : List Move}
    (successive : (new feed engine target device focus).Successive moves) (stop : .stop ∈ moves → told) :
    P ((new feed engine target device focus).seen Option.isSome moves)
      ((new feed engine target device focus).play moves).single :=
  keeps.play (lone_play feed engine target device focus [] trivial []) h successive stop

end Crew

end Combo
