-- SUMMARY: Pushes and releases of an action come in pairs, and what is held is what actions hold.
import Combo.Clockwork.Supply
import Combo.Proofs.Clockwork.Held

/-!
# Held inputs are released

The commands sent for one action are followed by `Call.follow`, which has no next
state when an input is pushed while the release of one is owed, or let up while
it is not. Where the commands of an action can be followed to the end, its pushes
and releases come in pairs. A poll of the action can always be followed, and what
is owed then is the input the action holds at that moment.

The inputs the device holds are those the actions hold, and those that were let up
in vain. As long as the device refuses no release there are none of the latter.
-/

namespace Combo

/-! ## Following the commands of one action -/

/-- Whether a call was made for the action at a position of a group. -/
def Call.isAt (group position : Nat) (c : Call) : Bool :=
  c.group == group && c.position == position

/-- The input an action owes the release of after a command, if the command keeps the rules. -/
def Call.follow (owed : Option Input) (c : Call) : Option (Option Input) :=
  match c.command with
  | .down input =>
    if owed = none then some (if c.response = .done then some input else none) else none
  | .up input => if owed = some input then some none else none
  | .press _ | .move _ _ => some owed

/-- The input owed after some calls, if all of them keep the rules. -/
def owedAfter (calls : List Call) : Option (Option Input) := calls.foldlM Call.follow none

theorem owedAfter_append {calls : List Call} {owed : Option Input}
    (h : owedAfter calls = some owed) (more : List Call) :
    owedAfter (calls ++ more) = more.foldlM Call.follow owed := by
  rw [owedAfter, List.foldlM_append]
  rw [owedAfter] at h
  rw [h]
  rfl

/-- The command of a call that pushed an input down, or was to let one up. -/
def Call.hold? (c : Call) : Option Command :=
  match c.command with
  | .down input => if c.response = .done then some (.down input) else none
  | .up input => some (.up input)
  | .press _ | .move _ _ => none

/-- Inputs that were pushed and let up, one after another. -/
def Command.pairs (inputs : List Input) : List Command :=
  inputs.flatMap fun input => [.down input, .up input]

/-- A call that keeps the rules pushes with nothing owed, or lets up what is owed. -/
theorem Call.exists_pairs_of_follow {c : Call} {owed owed' : Option Input}
    (h : c.follow owed = some owed') :
    ∃ inputs, owed.toList.map Command.down ++ c.hold?.toList =
      Command.pairs inputs ++ owed'.toList.map .down := by
  unfold follow at h
  unfold hold?
  cases hcommand : c.command with
  | down input =>
      simp only [hcommand] at h ⊢
      split at h
      · rename_i hnone
        subst hnone
        cases h
        refine ⟨[], ?_⟩
        by_cases hdone : c.response = .done <;> simp [hdone, Command.pairs]
      · cases h
  | up input =>
      simp only [hcommand] at h ⊢
      split at h
      · rename_i hsome
        subst hsome
        cases h
        exact ⟨[input], rfl⟩
      · cases h
  | press input =>
      simp only [hcommand] at h ⊢
      cases h
      exact ⟨[], List.append_nil _⟩
  | move dx dy =>
      simp only [hcommand] at h ⊢
      cases h
      exact ⟨[], List.append_nil _⟩

/-- Calls that keep the rules push and let up in turn, and owe the release of the last push. -/
theorem exists_pairs_of_owed {calls : List Call} {owed owed' : Option Input}
    (h : calls.foldlM Call.follow owed = some owed') :
    ∃ inputs, owed.toList.map Command.down ++ calls.filterMap Call.hold? =
      Command.pairs inputs ++ owed'.toList.map .down := by
  induction calls generalizing owed with
  | nil =>
      cases h
      exact ⟨[], List.append_nil _⟩
  | cons c calls ih =>
      rw [List.foldlM_cons] at h
      obtain ⟨owed₁, hc, hcalls⟩ := Option.bind_eq_some_iff.1 h
      obtain ⟨first, hfirst⟩ := Call.exists_pairs_of_follow hc
      obtain ⟨rest, hrest⟩ := ih hcalls
      have hcons : (c :: calls).filterMap Call.hold? =
          c.hold?.toList ++ calls.filterMap Call.hold? := by
        rw [List.filterMap_cons]
        cases c.hold? <;> rfl
      refine ⟨first ++ rest, ?_⟩
      calc owed.toList.map Command.down ++ (c :: calls).filterMap Call.hold?
          = (Command.pairs first ++ owed₁.toList.map .down) ++ calls.filterMap Call.hold? := by
            rw [hcons, ← List.append_assoc, hfirst]
        _ = Command.pairs first ++ (Command.pairs rest ++ owed'.toList.map .down) := by
            rw [List.append_assoc, hrest]
        _ = Command.pairs (first ++ rest) ++ owed'.toList.map .down := by
            rw [Command.pairs, Command.pairs, Command.pairs, List.flatMap_append, List.append_assoc]

/-! ## The commands of a poll and of a drop -/

/-- A poll keeps the rules, and leaves owed what the action then holds. -/
theorem Progress.Polled.follow {device : Device} {p p' : Progress} {exchange : Option Exchange}
    (h : Polled device p p' exchange) (now group position : Nat) :
    (Exchange.calls now group position exchange).foldlM Call.follow p.held? = some p'.held? := by
  cases h with
  | release h =>
      rw [h]
      simp [Exchange.calls, Call.follow, Progress.held?]
  | push h =>
      rw [h]
      simp [Exchange.calls, Call.follow, Progress.held?]
  | other h h' _ sent =>
      rw [h, h']
      rcases exchange with _ | ⟨command, response⟩
      · rfl
      · obtain ⟨acts, refused⟩ := sent command response rfl
        cases command with
        | down input => simp [Exchange.calls, Call.follow, refused input rfl]
        | up input => cases acts
        | press input => simp [Exchange.calls, Call.follow]
        | move dx dy => simp [Exchange.calls, Call.follow]

namespace Clockwork

variable {φ : Type} [Feed φ] {s s' : Clockwork φ} {es : List Event}

open Executor

end Clockwork

/-! ## What the device holds -/

/-- The inputs held after one more command was carried out. -/
def Command.onHeld (held : List Input) : Command → List Input
  | .down input => held ++ [input]
  | .up input => held.erase input
  | .press _ => held
  | .move _ _ => held

theorem heldAfter_append (first second : List Command) :
    heldAfter (first ++ second) = second.foldl Command.onHeld (heldAfter first) :=
  List.foldl_append

/-- The input that a call was to let up in vain. -/
def Call.stuck? (c : Call) : Option Input :=
  match c.command with
  | .up input => if c.response = .done then none else some input
  | .down _ | .press _ | .move _ _ => none

/-- The releases that are carried out leave the inputs held of which they are not, and the rest. -/
theorem perm_of_releases {calls : List Call} {inputs rest held : List Input}
    (hcalls : calls.map (·.command) = inputs.map Command.up) (h : held.Perm (inputs ++ rest)) :
    (((calls.filter (·.response == .done)).map (·.command)).foldl Command.onHeld held).Perm
      (rest ++ calls.filterMap Call.stuck?) := by
  induction calls generalizing inputs rest held with
  | nil =>
      rw [List.map_nil, eq_comm, List.map_eq_nil_iff] at hcalls
      subst hcalls
      simpa using h
  | cons c calls ih =>
      cases inputs with
      | nil => cases hcalls
      | cons input inputs =>
          obtain ⟨hc, hcalls⟩ := List.cons.inj hcalls
          by_cases hdone : c.response = .done
          · have herased := h.erase input
            rw [List.cons_append, List.erase_cons_head] at herased
            simpa [hc, hdone, Call.stuck?, Command.onHeld] using ih hcalls herased
          · have hmoved : held.Perm (inputs ++ input :: rest) :=
              h.trans List.perm_middle.symm
            refine (List.Perm.of_eq ?_).trans ((ih hcalls hmoved).trans ?_)
            · simp [hdone]
            · simpa [hc, hdone, Call.stuck?] using List.perm_middle.symm

namespace Executor

/-- The inputs that were to be let up in vain. -/
def stuck (x : Executor) : List Input := x.calls.filterMap Call.stuck?

/-- Whether every release was carried out. -/
def ReleasesDone (x : Executor) : Prop :=
  ∀ c ∈ x.calls, c.command.acts = false → c.response = .done

/-- When every release was carried out none was in vain. -/
theorem stuck_of_releasesDone {x : Executor} (released : x.ReleasesDone) : x.stuck = [] := by
  refine List.filterMap_eq_nil_iff.2 fun c hc => ?_
  have hdone := released c hc
  unfold Call.stuck?
  cases hcommand : c.command with
  | up input => simp [hdone (by rw [hcommand]; rfl)]
  | down input | press input | move dx dy => rfl

theorem stuck_of_calls {x x' : Executor} {calls : List Call} (h : x'.calls = x.calls ++ calls) :
    x'.stuck = x.stuck ++ calls.filterMap Call.stuck? := by
  rw [stuck, stuck, h, List.filterMap_append]

/-- After more commands the device holds what it makes of those it carried out. -/
theorem held_of_calls {x x' : Executor} {calls : List Call} (h : x'.calls = x.calls ++ calls) :
    x'.held =
      ((calls.filter (·.response == .done)).map (·.command)).foldl Command.onHeld x.held := by
  rw [Executor.held, Executor.held, Executor.events, Executor.events, h, List.filter_append,
    List.map_append, heldAfter_append]

/-- A poll changes what the device holds as it changes what the action holds, or is in vain. -/
theorem held_of_poll {x x' : Executor} {device : Device} {p p' : Progress}
    {exchange : Option Exchange} {now group position : Nat} {rest : List Input}
    (polled : Progress.Polled device p p' exchange)
    (hcalls : x'.calls = x.calls ++ Exchange.calls now group position exchange)
    (h : x.held.Perm (p.held?.toList ++ rest)) :
    x'.held.Perm (p'.held?.toList ++
      (rest ++ (Exchange.calls now group position exchange).filterMap Call.stuck?)) := by
  rw [held_of_calls hcalls]
  cases polled with
  | @release input due ending hp =>
      rw [hp] at h
      have released : (Exchange.calls now group position
          (some (.up input, device.respond (.up input)))).map (·.command) = [input].map .up := rfl
      exact perm_of_releases released h
  | @push input due hp =>
      rw [hp] at h
      simp only [Exchange.calls, Progress.held?, Call.stuck?, List.filterMap_cons,
        List.filterMap_nil, List.append_nil]
      exact (h.append_right [input]).trans List.perm_append_comm
  | other hp hp' started sent =>
      rw [hp] at h
      rw [hp']
      rcases exchange with _ | ⟨command, response⟩
      · simpa [Exchange.calls] using h
      · obtain ⟨acts, refused⟩ := sent command response rfl
        cases command with
        | up input => cases acts
        | down input =>
            simpa [Exchange.calls, List.filterMap_cons, Call.stuck?, refused input rfl] using h
        | press input | move dx dy =>
            by_cases hdone : response = .done <;>
              simpa [Exchange.calls, List.filterMap_cons, Call.stuck?, hdone, Command.onHeld] using h

end Executor

namespace Clockwork

variable {φ : Type} [Feed φ] {s s' : Clockwork φ} {es : List Event}

open Executor

/-- Every turn keeps that the device holds what the actions hold and what was let up in vain. -/
theorem Turn.perm_stuck (turn : Turn s es s') (sound : s.executor.Sound)
    (h : s.executor.held.Perm (s.executor.holding ++ s.executor.stuck)) :
    s'.executor.held.Perm (s'.executor.holding ++ s'.executor.stuck) := by
  cases turn.held sound with
  | same hcalls same =>
      have hheld : s'.executor.held = s.executor.held := by
        rw [Executor.held, Executor.events, hcalls]
        rfl
      rw [hheld, same.2, stuck, hcalls]
      exact h
  | @poll b accepting run position entry progress exchange hw hentry polled hcalls hw' =>
      obtain ⟨rest, hrest, hrest'⟩ :=
        Run.exists_holding_set hentry { entry with progress }
      rw [holding_of_running hw] at h
      rw [holding_of_running hw', stuck_of_calls hcalls]
      have hbefore := h.trans (hrest.append_right _)
      rw [List.append_assoc] at hbefore
      refine (held_of_poll polled hcalls hbefore).trans ?_
      rw [List.append_assoc, ← List.append_assoc]
      exact hrest'.symm.append_right _
  | drop hw hcalls hw' =>
      rw [holding_of_running hw] at h
      rw [held_of_calls hcalls, (holdsNothing_of_none hw').holding, stuck_of_calls hcalls,
        List.nil_append]
      refine perm_of_releases ?_ h
      rw [dropCalls_eq, dropsFrom_commands]
      rfl

end Clockwork

end Combo
