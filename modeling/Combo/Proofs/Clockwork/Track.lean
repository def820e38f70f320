-- SUMMARY: What is known of one action of a run is followed from its entry to its outcome in the report.
import Combo.Proofs.Clockwork.Handout
import Combo.Proofs.Clockwork.Layering
import Combo.Proofs.Clockwork.Parallel

/-!
# Keeping track of an action

While the worker is at a run, an action of it has an entry; once the report is
made, it has an outcome. `Tracks` says something of the one or of the other, and
`Tracks.play` is the principle by which it goes from one to the other: it is
enough that moves keep what is said of the entry, and that what is said of an
entry that has ended can be said of its outcome.
-/

namespace Combo.Clockwork

variable {φ : Type} {s : Clockwork φ} {moves : List Move}

/--
What is known of the action at a position of a group whose window was looked at: something of its
entry as long as the run goes on, and something of its outcome once the report is made.
-/
inductive Tracks (going : Clockwork φ → Step → Run → Entry → Prop) (done : Outcome → Prop)
    (group position : Nat) (s : Clockwork φ) : Prop where
  | going {step : Step} {run : Run} {e : Entry} (running : s.IsRunning step run)
      (id : run.id = group) (looked : step ≠ .focusing) (he : run.entries[position]? = some e)
      (holds : going s step run e)
  | done {report : Report} {outcome : Outcome} (reporting : s.IsReporting report)
      (id : report.id = group) (here : report.outcomes[position]? = some outcome)
      (holds : done outcome)

variable [Feed φ]

/--
What is known of an action and kept while its run goes on is known after a play, as long as only events
of the group are seen; when the action has ended it is known of the outcome.
-/
theorem Tracks.play {P : List Event → Clockwork φ → Step → Run → Entry → Prop}
    {D : List Event → Outcome → Prop} {group position : Nat} {j : List Event}
    (sound : s.executor.Sound) (h : s.Tracks (P j) (D j) group position)
    (own : ∀ e ∈ s.journal moves, e.isOf group = true)
    (next : ∀ {s₁ : Clockwork φ} {j : List Event} {m : Move} {step₁ step₂ : Step} {run₁ run₂ : Run}
      {e : Entry}, m ∈ moves → s₁.executor.Sound → s₁.IsRunning step₁ run₁ → run₁.id = group →
      step₁ ≠ .focusing → run₁.entries[position]? = some e → P j s₁ step₁ run₁ e →
      (s₁.move m).IsRunning step₂ run₂ → ∃ e', run₂.entries[position]? = some e' ∧
        P (j ++ s₁.events m) (s₁.move m) step₂ run₂ e')
    (ended : ∀ {s₁ : Clockwork φ} {j : List Event} {step₁ : Step} {run₁ : Run} {e : Entry}
      {ending : Ending}, P j s₁ step₁ run₁ e → e.progress = .ended ending → D j ⟨e.action, ending⟩) :
    (s.play moves).Tracks (P (j ++ s.journal moves)) (D (j ++ s.journal moves)) group position := by
  induction moves generalizing s j with
  | nil => simpa using h
  | cons m moves ih =>
      have turn := turn_move (s := s) m
      have own' : ∀ e ∈ s.events m, e.isOf group = true := fun e he => own e (List.mem_append_left _ he)
      rw [journal_cons, ← List.append_assoc]
      refine ih (turn.sound sound) ?_ (fun e he => own e (List.mem_append_right _ he))
        fun hm => next (List.mem_cons_of_mem _ hm)
      cases h with
      | @going step run e running id looked he holds =>
          rcases turn.proceeds running with
            ⟨step', run', running', proceeds⟩ | ⟨silent, reporting, fault, rfl⟩ | ⟨aborted, -⟩
          · obtain ⟨e', he', holds'⟩ :=
              next List.mem_cons_self sound running id looked he holds running'
            refine .going running' (proceeds.change.id.trans id) ?_ he' holds'
            rintro rfl
            exact looked (Step.eq_focusing_of_rank proceeds.forward)
          · obtain ⟨b, hw⟩ := running
            obtain ⟨ending, hp, outcome⟩ :=
              (Run.tellsOf_report (sound b _ run hw).1).ended position e he
            rw [silent, List.append_nil]
            exact .done reporting id outcome (ended holds hp)
          · cases own' .aborted aborted
      | @done report outcome reporting id here holds =>
          rcases turn.reports (fun e he => isLoss_of_isOf (own' e he)) reporting with
            ⟨silent, reporting'⟩ | seen
          · rw [silent, List.append_nil]
            exact .done reporting' id here holds
          · cases own' (.reported report) (by rw [seen]; exact List.mem_singleton.2 rfl)

end Combo.Clockwork
