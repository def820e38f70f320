-- SUMMARY: A group of pauses never looks at the window, and only pauses are layered onto it.
import Combo.Proofs.Clockwork.Sight

/-!
# Pauses

A group whose actions need no focus is dispatched without need of it. So the worker
does not look at the window for it, and it stays so: what needs the focus is not
layered onto such a group.
-/

namespace Combo

/-- A group whose spared actions need no focus is dispatched without need of it. -/
theorem Run.needsFocus_dispatch {requireFocus : Bool} {d : Deferred} {t : Ticket}
    (pauses : ∀ a ∈ t.group.actions, d.hits a = false → a.kind.needsFocus = false) :
    (dispatch requireFocus d t).needsFocus = false := by
  obtain ⟨actions, dispatched⟩ := dispatch_spec requireFocus d t
  have unneeded : (listed (dispatch requireFocus d t).entries).any (·.action.kind.needsFocus) =
      false := by
    refine List.any_eq_false.2 fun e he => ?_
    obtain ⟨he, alive⟩ := List.mem_filter.1 he
    have hd := dispatched e he
    have spared : d.hits e.action = false := by
      cases hit : d.hits e.action with
      | false => rfl
      | true =>
          rw [Entry.IsDispatched, if_pos hit] at hd
          simp [hd.1] at alive
    have ha : e.action ∈ t.group.actions := actions ▸ List.mem_map_of_mem he
    simp [pauses e.action ha spared]
  exact (congrArg (requireFocus && ·) unneeded).trans (Bool.and_false requireFocus)

namespace Clockwork

variable {φ : Type} [Feed φ] {s s' : Clockwork φ} {es j : List Event} {moves : List Move} {b : Bool}
  {step : Step} {run : Run} {t : Ticket} {d : Deferred}

/-- What a turn does when a group is about to be dispatched: it notes interrupts, or dispatches it. -/
theorem Turn.from_taken (turn : Turn s es s') (hw : s.executor.worker = some ⟨b, .taken t d⟩) :
    .aborted ∈ es ∨ es = [] ∧
      ((∃ b' d', s'.executor.worker = some ⟨b', .taken t d'⟩ ∧
          ∀ a, d.hits a = true → d'.hits a = true) ∨
        ∃ step run, s'.IsRunning step run ∧ run = Run.dispatch s.executor.target.requireFocus d t ∧
          step = if run.needsFocus then .focusing else .opening) := by
  have noted (h : s'.executor.worker = s.executor.worker) : ∃ b' d',
      s'.executor.worker = some ⟨b', .taken t d'⟩ ∧ ∀ a, d.hits a = true → d'.hits a = true :=
    ⟨b, d, h.trans hw, fun _ hit => hit⟩
  cases turn with
  | stride stride =>
      cases stride with
      | rest | tick | refocus | rewire => exact .inr ⟨rfl, .inl (noted rfl)⟩
      | dispatch hw₁ hrun =>
          cases hw.symm.trans hw₁
          exact .inr ⟨rfl, .inr ⟨_, _, ⟨b, rfl⟩, hrun, rfl⟩⟩
      | leave hw₁ top | begin hw₁ top =>
          cases hw.symm.trans hw₁
          rcases top with top | ⟨_, top⟩ <;> simp at top
      | _ hw₁ => cases hw.symm.trans hw₁
  | interruptAll hw₁ =>
      cases hw.symm.trans hw₁
      exact .inr ⟨rfl, .inl ⟨_, _, rfl, fun a _ => by simp [Deferred.hits]⟩⟩
  | interruptConflicting group hw₁ =>
      cases hw.symm.trans hw₁
      refine .inr ⟨rfl, .inl ⟨_, _, rfl, fun a hit => ?_⟩⟩
      simp only [Deferred.hits, Kind.interrupted, List.any_append, Bool.or_eq_true] at hit ⊢
      exact hit.imp_right .inl
  | bury hw₁ | layer group hw₁ => cases hw.symm.trans hw₁
  | abort hw₁ => cases hw.symm.trans hw₁
  | vanish => exact .inl (by simp)

/-- Where the worker may be at a group of pauses, from before its dispatch until it is handed in. -/
inductive AtPauses (t : Ticket) (s : Clockwork φ) : Prop where
  | taken {b : Bool} {d : Deferred} (hw : s.executor.worker = some ⟨b, .taken t d⟩)
      (pauses : ∀ a ∈ t.group.actions, d.hits a = false → a.kind.needsFocus = false)
  | running {step : Step} {run : Run} (running : s.IsRunning step run)
      (unneeded : run.needsFocus = false) (away : step ≠ .focusing)
  | reporting {report : Report} (reporting : s.IsReporting report)

omit [Feed φ] in
theorem AtPauses.sight? (h : s.AtPauses t) : s.sight? = none := by
  cases h with
  | taken hw => exact sight?_of_run? (Executor.run?_of_some hw)
  | running running _ away => exact sight?_of_running running away
  | reporting reporting =>
      obtain ⟨b, faulty, hw⟩ := reporting
      exact sight?_of_run? (Executor.run?_of_some hw)

/-- As long as only events of a group of pauses are seen, it goes without a look at the window. -/
theorem AtPauses.turn (h : s.AtPauses t) (required : s.executor.target.requireFocus = true)
    (turn : Turn s es s') (own : ∀ e ∈ es, e.isOf t.id = true) :
    s'.AtPauses t ∧ ∀ g, .layered g ∈ es → ∀ a ∈ g.actions, a.kind.needsFocus = false := by
  have whole : .aborted ∉ es := fun aborted => nomatch own _ aborted
  cases h with
  | @taken b d hw pauses =>
      rcases turn.from_taken hw with aborted | ⟨rfl, ⟨b', d', hw', more⟩ | ⟨step, run, running, hrun, hstep⟩⟩
      · exact absurd aborted whole
      · refine ⟨.taken hw' fun a ha spared => pauses a ha ?_, by simp⟩
        cases hit : d.hits a with
        | false => rfl
        | true => exact (more a hit).symm.trans spared
      · have unneeded : run.needsFocus = false := hrun ▸ Run.needsFocus_dispatch pauses
        exact ⟨.running running unneeded (by simp [hstep, unneeded]), by simp⟩
  | @running step run running unneeded away =>
      rcases turn.proceeds running with
        ⟨step', run', running', proceeds⟩ | ⟨silent, reporting, -⟩ | ⟨aborted, -⟩
      · refine ⟨.running running' (proceeds.change.needsFocus.trans unneeded) ?_, fun g layered a ha => ?_⟩
        · rintro rfl
          exact away (Step.eq_focusing_of_rank proceeds.forward)
        · cases needs : a.kind.needsFocus with
          | false => rfl
          | true =>
              have needed : s.executor.needsFocus g = true := by
                simp only [Executor.needsFocus, required, Bool.true_and, List.any_eq_true]
                exact ⟨_, List.mem_map_of_mem ha, needs⟩
              rw [turn.needsFocus_of_layered running layered needed] at unneeded
              cases unneeded
      · exact ⟨.reporting reporting, by simp [silent]⟩
      · exact absurd aborted whole
  | reporting reporting =>
      rcases turn.reports (fun e he => isLoss_of_isOf (own e he)) reporting with
        ⟨silent, reporting'⟩ | seen
      · exact ⟨.reporting reporting', by simp [silent]⟩
      · cases own (.reported _) (by rw [seen]; exact List.mem_singleton.2 rfl)

omit [Feed φ] in
/-- A worker that gives up a group of pauses is still at it. -/
theorem AtPauses.giveUp (h : s.AtPauses t) {accepting : Bool}
    (hw : s.executor.worker = some ⟨b, .running (.joining accepting) run⟩)
    {run' : Run} (same : run'.needsFocus = run.needsFocus) :
    (s.withWorker (some ⟨b, .running (.closing none) run'⟩)).AtPauses t := by
  cases h with
  | taken hw₁ => cases hw.symm.trans hw₁
  | running running unneeded =>
      obtain ⟨-, rfl⟩ := running.unique ⟨b, hw⟩
      exact .running ⟨b, rfl⟩ (same.trans unneeded) (by simp)
  | reporting reporting => exact absurd ⟨b, hw⟩ reporting.not_isRunning

end Clockwork

end Combo
