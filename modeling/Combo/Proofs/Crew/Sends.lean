-- SUMMARY: Who sends a command of a crew that does something: an action that is polled at its worker's run, and nobody else.
import Combo.Proofs.Crew.Rounds

/-!
# Who sends a command

An action that was given up only lets go. Every command that holds or presses
something or moves the mouse is sent by a poll of an action at the run of its worker,
and it is all that is seen of the move. `exists_sends` finds that moment in a play.
-/

namespace Combo

namespace Crew

variable {φ : Type}

/-- Whether a poll of an action at the run of a worker sends a command. -/
structure Sends (c : Crew φ) (w : Nat) (run : Run) (e : Entry) (call : Call) : Prop where
  running : ∃ b k accepting ledger, c.members[w]? = some ⟨b, k, .running (.joining accepting) run ledger⟩
  entry : run.entries[call.position]? = some e
  ready : e.runnable c.now = true
  time : call.time = c.now
  group : call.group = run.id
  polled : ∃ progress, e.progress.poll c.device c.engine.attackMs c.now e.action e.cancelled =
    (progress, some (call.command, call.response))

variable [Feed φ] {c : Crew φ}

/-- A poll sends the command of an action at the run of its worker, or none. -/
theorem notes_poll (c : Crew φ) (worker position : Nat) : c.notes (.poll worker position) = [] ∨
    ∃ run e call, c.notes (.poll worker position) = [⟨some worker, .called call⟩] ∧
      c.Sends worker run e call := by
  have stays (still : c.poll worker position = c) : c.notes (.poll worker position) = [] := by
    simp [notes, callsSince, still]
  by_cases joins : ∃ b k accepting run ledger,
      c.members[worker]? = some ⟨b, k, .running (.joining accepting) run ledger⟩
  · obtain ⟨b, k, accepting, run, ledger, hm⟩ := joins
    cases hentry : run.entries[position]? with
    | none => exact .inl (stays (poll_of_none hm hentry))
    | some e =>
      by_cases ready : e.runnable c.now = true
      · rcases hpoll : e.progress.poll c.device c.engine.attackMs c.now e.action e.cancelled with
          ⟨progress, exchange⟩
        have sent : c.notes (.poll worker position) =
            (Exchange.calls c.now run.id position exchange).map fun call => ⟨some worker, .called call⟩ := by
          rw [notes, poll_of_ready hm hentry ready hpoll, callsSince_of_append rfl]
          simp [Function.comp_def]
        rcases exchange with _ | ⟨command, response⟩
        · exact .inl sent
        · exact .inr ⟨run, e, _, sent, ⟨b, k, accepting, ledger, hm⟩, hentry, ready, rfl, rfl, progress, hpoll⟩
      · exact .inl (stays (poll_of_unready hm hentry ready))
  · refine .inl (stays ?_)
    unfold poll
    split
    · rename_i member
      exact absurd ⟨_, _, _, _, _, member⟩ joins
    · rfl

/-- A command that does something is sent by a poll, which is all that is seen of the move. -/
theorem sends_of_notes {mv : Move} {n : Note} (hn : n ∈ c.notes mv) {call : Call}
    (called : n.event = .called call) (acts : call.command.acts = true) :
    ∃ w run e, c.notes mv = [⟨some w, .called call⟩] ∧ c.Sends w run e call := by
  cases reveals_of_notes hn with
  | called hm =>
    rename_i worker position m call'
    rcases notes_poll c worker position with silent | ⟨run, e, call', sent, sends⟩
    · rw [silent] at hn
      cases hn
    · rw [sent] at hn
      cases List.mem_singleton.1 hn
      cases called
      exact ⟨worker, run, e, sent, sends⟩
  | letGo hl =>
    -- Letting go releases an input, which pushes nothing down.
    cases called
    cases acts
  | asked | reported | left | aborted | layered => cases called

/-- An event of a play is seen in one of its moves, after what is seen of the moves before. -/
theorem exists_move_of_journal {moves : List Move} {before after : List Event} {e : Event}
    (h : c.journal moves = before ++ e :: after) : ∃ first mv rest pre post, moves = first ++ mv :: rest ∧
      ((c.play first).notes mv).map (·.event) = pre ++ e :: post ∧ before = c.journal first ++ pre := by
  induction moves generalizing c before with
  | nil => simp at h
  | cons mv moves ih =>
    rw [journal_cons] at h
    have later {before' : List Event} (hrest : (c.move mv).journal moves = before' ++ e :: after)
        (same : before = (c.notes mv).map (·.event) ++ before') : ∃ first mv' rest pre post,
        mv :: moves = first ++ mv' :: rest ∧
          ((c.play first).notes mv').map (·.event) = pre ++ e :: post ∧ before = c.journal first ++ pre := by
      obtain ⟨first, mv', rest, pre, post, rfl, hnotes, rfl⟩ := ih hrest
      exact ⟨mv :: first, mv', rest, pre, post, rfl, hnotes, by rw [same, journal_cons, List.append_assoc]⟩
    rcases List.append_eq_append_iff.1 h with ⟨front, same, hrest⟩ | ⟨back, hm, hafter⟩
    · exact later hrest same
    · cases back with
      | nil =>
        have hrest : (c.move mv).journal moves = [] ++ e :: after := hafter.symm
        exact later hrest (by simp [hm])
      | cons e' back =>
        cases hafter
        exact ⟨[], mv, moves, before, back, rfl, hm, rfl⟩

theorem exists_note_of_notes {mv : Move} {pre post : List Event} {e : Event}
    (h : (c.notes mv).map (·.event) = pre ++ e :: post) : ∃ n ∈ c.notes mv, n.event = e :=
  List.mem_map.1 (h ▸ by simp)

/-- A command that does something is sent at some moment of a play. -/
theorem exists_sends {moves : List Move} {before after : List Event} {call : Call}
    (h : c.journal moves = before ++ .called call :: after) (acts : call.command.acts = true) :
    ∃ first mv rest w run e, moves = first ++ mv :: rest ∧ before = c.journal first ∧
      (c.play first).Sends w run e call := by
  obtain ⟨first, mv, rest, pre, post, rfl, hnotes, rfl⟩ := exists_move_of_journal h
  obtain ⟨n, hn, called⟩ := exists_note_of_notes hnotes
  obtain ⟨w, run, e, alone, sends⟩ := sends_of_notes hn called acts
  obtain rfl : pre = [] := by
    rw [alone] at hnotes
    cases pre with
    | nil => rfl
    | cons _ pre => simp at hnotes
  exact ⟨first, mv, rest, w, run, e, rfl, by rw [List.append_nil], sends⟩

omit [Feed φ] in
/-- An action that is cancelled sends nothing of the kind. -/
theorem Sends.not_cancelled {w : Nat} {run : Run} {e : Entry} {call : Call} (sends : c.Sends w run e call)
    (acts : call.command.acts = true) : e.cancelled = false := by
  cases cancelled : e.cancelled with
  | false => rfl
  | true =>
    obtain ⟨progress, hpoll⟩ := sends.polled
    rw [cancelled] at hpoll
    rw [Progress.acts_of_poll_cancelled hpoll] at acts
    cases acts

end Crew

end Combo
