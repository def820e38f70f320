-- SUMMARY: What is listed of a run: each action that was not cancelled, ended or not, under a key of its own, and what interrupts count of them.
import Mathlib.Data.List.Basic
import Combo.Clockwork.Supply
import Combo.Proofs.Clockwork.Live
import Combo.Proofs.Executor.Keys

/-!
# What is listed

An action of a run is listed from the moment it is accepted until it is
cancelled or the run is reported, each under a key of its own. An action that
ends by itself lingers: nothing can be cancelled any more, but it is listed as
long as the rest of its run goes on. An interrupt counts what is listed, and so
it counts the actions that it turns from unfinished into cancelled and the ones
that linger. Both numbers are right just when nothing lingers.
-/

namespace Combo

/-! ## Entries -/

namespace Entry

/-- Whether an action has neither ended nor been cancelled. -/
def isUnfinished (e : Entry) : Bool := !e.cancelled && !e.progress.isEnded

/-- Whether an action has ended and was not cancelled. -/
def lingers (e : Entry) : Bool := !e.cancelled && e.progress.isEnded

/-- Whether an action is shown to have been cancelled only if it was. -/
def IsHonest (e : Entry) : Prop := e.progress = .ended .cancelled → e.cancelled = true

/-- Whatever happens to an action, it is not made to seem cancelled. -/
theorem Change.isHonest {device : Device} {attackMs now : Nat} {e e' : Entry}
    (change : Change device attackMs now e e') (h : e.IsHonest) : e'.IsHonest := by
  intro ended
  cases change with
  | stay => exact h ended
  | cancel => rfl
  | release =>
      rw [release_cancelled]
      refine h ?_
      unfold Entry.release at ended
      split at ended
      · cases ended
      · exact ended
  | fail message =>
      rw [fail_cancelled]
      refine h ?_
      unfold Entry.fail at ended
      split at ended
      · exact ended
      · cases ended
  | poll ready hpoll =>
      cases hc : e.cancelled with
      | true => rfl
      | false =>
          have before : e.progress ≠ .ended .cancelled := fun hp => by simp [h hp] at hc
          rw [hc] at hpoll
          exact absurd ended (Progress.poll_ne_cancelled before hpoll)

/-- An action that lingers was completed or failed. -/
theorem IsHonest.ending {e : Entry} (h : e.IsHonest) (lingers : e.lingers = true) :
    e.progress = .ended .completed ∨ ∃ message, e.progress = .ended (.failed message) := by
  simp only [Entry.lingers, Bool.and_eq_true, Bool.not_eq_true'] at lingers
  cases hp : e.progress with
  | ended ending =>
      cases ending with
      | completed => exact .inl rfl
      | failed message => exact .inr ⟨message, rfl⟩
      | cancelled =>
          have := h hp
          simp [lingers.1] at this
  | _ => simp [hp, Progress.isEnded] at lingers

end Entry

namespace Run

/-- What is listed is unfinished or lingers. -/
theorem countP_listed (p : Entry → Bool) (entries : List Entry) :
    entries.countP (fun e => !e.cancelled && p e) =
      entries.countP (fun e => e.isUnfinished && p e) + entries.countP (fun e => e.lingers && p e) := by
  induction entries with
  | nil => rfl
  | cons e entries ih =>
      cases hc : e.cancelled <;> cases he : e.progress.isEnded <;> cases hp : p e <;>
        simp [Entry.isUnfinished, Entry.lingers, hc, he, hp, ih] <;> omega

theorem Change.keysOf_sublist {device : Device} {attackMs now : Nat} {r r' : Run}
    (h : Change device attackMs now [] r r') : (keysOf r'.entries).Sublist (keysOf r.entries) :=
  h.map_listed_sublist fun _ _ evolves => evolves.key

end Run

/-! ## Executors -/

namespace Executor

/-- The actions of the run of an executor, as far as they have come. -/
def entries (x : Executor) : List Entry :=
  match x.run? with
  | some run => run.entries
  | none => []

/-- The number of actions that were unfinished in one executor and are cancelled in another. -/
def turned (x x' : Executor) : Nat :=
  (x.entries.zip x'.entries).countP fun (e, e') => e.isUnfinished && e'.cancelled

theorem entries_of_some {x : Executor} {b : Bool} {stage : Stage} (h : x.worker = some ⟨b, stage⟩) :
    x.entries = (stage.run?.map Run.entries).getD [] := by
  rw [entries, run?_of_some h]
  cases stage.run? <;> rfl

theorem exists_run_of_mem {x : Executor} {e : Entry} (h : e ∈ x.entries) :
    ∃ run, x.run? = some run ∧ e ∈ run.entries := by
  unfold entries at h
  cases hrun : x.run? with
  | none => simp [hrun] at h
  | some run => exact ⟨run, rfl, by simpa [hrun] using h⟩

theorem keys_eq (x : Executor) : x.keys = Run.keysOf x.entries := by
  unfold keys entries
  cases x.run? <;> rfl

/-- The keys are as many as the actions that are unfinished and those that linger. -/
theorem keys_length (x : Executor) :
    x.keys.length = x.entries.countP Entry.isUnfinished + x.entries.countP Entry.lingers := by
  rw [keys_eq, Run.keysOf, List.length_map, Run.listed, ← List.countP_eq_length_filter]
  simpa using Run.countP_listed (fun _ => true) x.entries

theorem countP_lingers_eq_zero (x : Executor) :
    x.entries.countP Entry.lingers = 0 ↔ ∀ e ∈ x.entries, e.lingers = false := by
  simp [List.countP_eq_zero]

/-- The keys are those of the unfinished actions just when nothing lingers. -/
theorem keys_eq_unfinished_iff (x : Executor) :
    x.keys = (x.entries.filter Entry.isUnfinished).map (·.key) ↔
      ∀ e ∈ x.entries, e.lingers = false := by
  constructor
  · intro heq
    have lengths := congrArg List.length heq
    rw [keys_length, List.length_map, ← List.countP_eq_length_filter] at lengths
    exact x.countP_lingers_eq_zero.1 (by omega)
  · intro spared
    rw [keys_eq, Run.keysOf]
    refine congrArg (List.map _) (List.filter_congr fun e he => ?_)
    have := spared e he
    cases hc : e.cancelled <;> simp_all [Entry.isUnfinished, Entry.lingers]

/-- What a change of each entry turns is what was unfinished and is cancelled by the change. -/
theorem turned_of_map {x x' : Executor} {f : Entry → Entry} (h : x'.entries = x.entries.map f) :
    x.turned x' = x.entries.countP fun e => e.isUnfinished && (f e).cancelled := by
  rw [turned, h, ← List.map_prod_left_eq_zip, List.countP_map]
  rfl

/-- An interrupt of everything cancels every action and counts what was listed. -/
theorem interruptAll_eq (x : Executor) :
    x.interruptAll.1.entries = x.entries.map Entry.cancel ∧
      x.interruptAll.2 = x.entries.countP fun e => !e.cancelled := by
  rw [interruptAll_fst]
  cases hw : x.worker with
  | none => simp [mapStage_of_none hw, interruptAll, entries, run?_of_none hw, hw]
  | some w =>
      obtain ⟨b, stage⟩ := w
      rw [mapStage_of_some hw, entries_of_some rfl, entries_of_some hw]
      cases stage <;>
        simp [interruptAll, hw, Stage.interruptAll, Stage.run?, Run.interruptAll, Run.listed,
          List.countP_eq_length_filter]

/-- An interrupt by a group cancels what its kinds hit and counts that. -/
theorem interruptConflicting_eq (g : Group) (x : Executor) :
    (x.interruptConflicting g).1.entries =
        x.entries.map (fun e => if Run.Entry.hitBy g.kinds e then e.cancel else e) ∧
      (x.interruptConflicting g).2 = x.entries.countP (Run.Entry.hitBy g.kinds) := by
  rw [interruptConflicting_fst]
  cases hw : x.worker with
  | none => simp [mapStage_of_none hw, interruptConflicting, entries, run?_of_none hw, hw]
  | some w =>
      obtain ⟨b, stage⟩ := w
      rw [mapStage_of_some hw, entries_of_some rfl, entries_of_some hw]
      cases stage <;>
        simp [interruptConflicting, hw, Stage.interruptConflicting, Stage.run?,
          Run.interruptConflicting, List.countP_eq_length_filter]

/-- An interrupt of everything counts the actions it turns and those that linger. -/
theorem interruptAll_count (x : Executor) :
    x.interruptAll.2 = x.turned x.interruptAll.1 + x.entries.countP Entry.lingers := by
  obtain ⟨hentries, hcount⟩ := x.interruptAll_eq
  rw [hcount, turned_of_map hentries]
  simpa using Run.countP_listed (fun _ => true) x.entries

/-- An interrupt by a group counts the actions it turns and those of the kinds it hits that linger. -/
theorem interruptConflicting_count (g : Group) (x : Executor) :
    (x.interruptConflicting g).2 = x.turned (x.interruptConflicting g).1 +
      x.entries.countP fun e => e.lingers && e.action.kind.interrupted g.kinds := by
  obtain ⟨hentries, hcount⟩ := x.interruptConflicting_eq g
  have turns : ∀ e : Entry,
      (e.isUnfinished && (if Run.Entry.hitBy g.kinds e then e.cancel else e).cancelled) =
        (e.isUnfinished && e.action.kind.interrupted g.kinds) := by
    intro e
    cases hc : e.cancelled with
    | true => simp [Entry.isUnfinished, hc]
    | false =>
        cases hi : e.action.kind.interrupted g.kinds <;> simp [Run.Entry.hitBy, hc, hi]
  rw [hcount, turned_of_map hentries]
  simp only [turns]
  exact Run.countP_listed (fun e => e.action.kind.interrupted g.kinds) x.entries

end Executor

/-! ## Plays -/

namespace Clockwork

variable {φ : Type} [Feed φ] {s s' : Clockwork φ} {es : List Event}

/-- A turn layers a group onto the run that is joined, or nothing. -/
theorem Turn.layers (turn : Turn s es s') : es.flatMap Event.layeredActions = [] ∨
    ∃ b run actions, s.executor.worker = some ⟨b, .running (.joining true) run⟩ ∧
      s'.executor.worker = some ⟨b, .running (.joining true) (run.layer actions)⟩ := by
  cases turn with
  | stride stride =>
      refine .inl (List.flatMap_eq_nil_iff.2 ?_)
      cases stride <;> simp [Event.layeredActions]
  | abort =>
      refine .inl (List.flatMap_eq_nil_iff.2 ?_)
      simp [Event.layeredActions, or_imp, forall_and]
  | bury | interruptAll | interruptConflicting | vanish => exact .inl rfl
  | layer group hw => exact .inr ⟨_, _, _, hw, rfl⟩

/-- No turn makes two listed actions share a key. -/
theorem Turn.nodup_keys (turn : Turn s es s') (h : s.executor.keys.Nodup) :
    s'.executor.keys.Nodup := by
  cases after : s'.executor.run? with
  | none => simp [Executor.keys, after]
  | some run' =>
      simp only [Executor.keys, after]
      cases before : s.executor.run? with
      | none =>
          obtain ⟨b, t, d, -, rfl⟩ := turn.dispatches before after
          exact Run.nodup_keysOf_dispatch _ _ _
      | some run =>
          simp only [Executor.keys, before] at h
          rcases turn.layers with unlayered | ⟨b, r, actions, hw, hw'⟩
          · obtain ⟨step, running⟩ := exists_isRunning before
            rcases turn.proceeds running with
              ⟨step', r, ⟨b, hw⟩, proceeds⟩ | ⟨-, ⟨b, faulty, hw⟩, -⟩ | ⟨-, hw⟩
            · cases (Executor.run?_of_some hw).symm.trans after
              have change := proceeds.change
              rw [unlayered] at change
              exact h.sublist change.keysOf_sublist
            · cases (Executor.run?_of_some hw).symm.trans after
            · cases (Executor.run?_of_none hw).symm.trans after
          · cases (Executor.run?_of_some hw).symm.trans before
            cases (Executor.run?_of_some hw').symm.trans after
            exact Run.nodup_keysOf_layer h actions

/-- After every play no two listed actions share a key. -/
theorem nodup_keys_play (feed : φ) (engine : Engine) (target : Target) (device : Device)
    (focus : Focus) (moves : List Move) :
    ((new feed engine target device focus).play moves).executor.keys.Nodup :=
  play_induct (P := fun _ s => s.executor.keys.Nodup)
    (by simp [new, Executor.keys, Executor.run?]) (fun h turn => turn.nodup_keys h) moves

/-- Whether only what was cancelled is shown to have been. -/
def IsHonest (s : Clockwork φ) : Prop := ∀ e ∈ s.executor.entries, e.IsHonest

/-- No turn makes an action seem cancelled. -/
theorem Turn.isHonest (turn : Turn s es s') (h : s.IsHonest) : s'.IsHonest := by
  intro e he
  obtain ⟨run', after, hmem⟩ := Executor.exists_run_of_mem he
  refine turn.forall_entries (P := Entry.IsHonest) (fun _ _ _ _ _ change => change.isHonest) ?_ ?_ ?_ run' after e
    hmem
  · intro e fresh ended
    rw [fresh.2] at ended
    cases ended
  · intro e cancelled _ _
    exact cancelled
  · intro run before e he
    exact h e (by rw [Executor.entries, before]; exact he)

end Clockwork

end Combo
