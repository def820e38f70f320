-- SUMMARY: What one poll of an action can come to, and that a cancelled action only lets go.
import Combo.Proofs.Executor.Run

/-!
# Polls

A poll that gets on with an action does one of three things: it lets up the
input the action holds and ends it, it pushes an input down that the action
holds from then on, or it neither starts nor stops holding. `Polled` lists the
three cases, and `poll_polled` shows that there is no other. A poll of a
cancelled action ends it, and sends nothing but the release of a held input.
-/

namespace Combo

/-- Whether a command would have an input held or pressed, or the mouse moved. -/
def Command.acts : Command → Bool
  | .down _ | .press _ | .move _ _ => true
  | .up _ => false

theorem Device.ask_cases (device : Device) (command : Command) (next : Progress) :
    device.ask command next = (next, some (command, .done)) ∨
    ∃ message response, response ≠ .done ∧
      device.ask command next = (.ended (.failed message), some (command, response)) := by
  unfold Device.ask
  cases device.respond command with
  | done => exact .inl rfl
  | refused e => exact .inr ⟨_, _, by simp, rfl⟩
  | crashed => exact .inr ⟨_, _, by simp, rfl⟩

namespace Progress

/-- What a poll that gets on with an action makes of it, and what is sent meanwhile. -/
inductive Polled (device : Device) (p : Progress) : Progress → Option Exchange → Prop where
  | release {input : Input} {due : Nat} {ending : Ending} (h : p = .holding input due) :
      Polled device p (.ended ending) (some (.up input, device.respond (.up input)))
  | push {input : Input} {due : Nat} (h : p.held? = none) :
      Polled device p (.holding input due) (some (.down input, .done))
  | other {p' : Progress} {exchange : Option Exchange} (h : p.held? = none)
      (h' : p'.held? = none) (started : p'.isQueued = false)
      (sent : ∀ command response, exchange = some (command, response) →
        command.acts = true ∧ ∀ input, command = .down input → response ≠ .done) :
      Polled device p p' exchange

variable {device : Device} {attackMs now : Nat} {action : Action}

/-- A command that does not push an input down leaves an action without a hold that way. -/
theorem polled_ask {p next : Progress} {command : Command} (h : p.held? = none)
    (h' : next.held? = none) (started : next.isQueued = false) (acts : command.acts = true)
    (noPush : ∀ input, command ≠ .down input) :
    Polled device p (device.ask command next).1 (device.ask command next).2 := by
  rcases device.ask_cases command next with heq | ⟨message, response, -, heq⟩
  · rw [heq]
    refine .other h h' started ?_
    rintro _ _ ⟨⟩
    exact ⟨acts, fun input hc => absurd hc (noPush input)⟩
  · rw [heq]
    refine .other h rfl rfl ?_
    rintro _ _ ⟨⟩
    exact ⟨acts, fun input hc => absurd hc (noPush input)⟩

theorem polled_start {p : Progress} (h : p.held? = none) (plan : Plan) :
    Polled device p (plan.start device attackMs now action).1
      (plan.start device attackMs now action).2 := by
  cases plan with
  | hold input ms =>
      simp only [Plan.start]
      rcases device.ask_cases (.down input) (.holding input (now + ms)) with
        heq | ⟨message, response, hr, heq⟩
      · rw [heq]
        exact .push h
      · rw [heq]
        refine .other h rfl rfl ?_
        rintro _ _ ⟨⟩
        exact ⟨rfl, fun _ _ => hr⟩
  | press input => exact polled_ask h rfl rfl rfl (by simp)
  | repeatPress presses =>
      cases presses with
      | zero => exact .other h rfl rfl (by rintro _ _ ⟨⟩)
      | succ left => exact polled_ask h rfl rfl rfl (by simp)
  | pause ms => exact .other h rfl rfl (by rintro _ _ ⟨⟩)
  | move dx dy => exact polled_ask h rfl rfl rfl (by simp)
  | invalid => exact .other h rfl rfl (by rintro _ _ ⟨⟩)

/-- To let up a held input is to release it, however the device answers. -/
theorem polled_release (input : Input) (due : Nat) (ending : Ending) :
    Polled device (.holding input due) (device.ask (.up input) (.ended ending)).1
      (device.ask (.up input) (.ended ending)).2 := by
  unfold Device.ask
  cases hr : device.respond (.up input) <;> simp only [← hr] <;> exact .release rfl

/-- A poll of an action that can go on has one of the three outcomes. -/
theorem poll_polled {p p' : Progress} {cancelled : Bool} {exchange : Option Exchange}
    (ready : p.runnable now cancelled = true)
    (h : p.poll device attackMs now action cancelled = (p', exchange)) :
    Polled device p p' exchange := by
  suffices Polled device p (p.poll device attackMs now action cancelled).1
      (p.poll device attackMs now action cancelled).2 by
    rw [h] at this
    exact this
  have silent : ∀ {p p' : Progress}, p.held? = none → p'.held? = none → p'.isQueued = false →
      Polled device p p' none :=
    fun h h' started => .other h h' started (by rintro _ _ ⟨⟩)
  cases p with
  | queued => simp [runnable] at ready
  | ended ending => simp [runnable] at ready
  | ready =>
      cases cancelled with
      | true => exact silent rfl rfl rfl
      | false => exact polled_start rfl _
  | holding input due =>
      cases cancelled with
      | true => exact polled_release input due .cancelled
      | false =>
          have hdue : due ≤ now := by simpa [runnable] using ready
          simp only [poll, Bool.false_eq_true, if_false, hdue, if_true]
          exact polled_release input due .completed
  | pressing left due =>
      cases cancelled with
      | true => exact silent rfl rfl rfl
      | false =>
          have hdue : due ≤ now := by simpa [runnable] using ready
          simp only [poll, Bool.false_eq_true, if_false, hdue, if_true]
          cases left with
          | zero => exact silent rfl rfl rfl
          | succ left => exact polled_ask rfl rfl rfl rfl (by simp)
  | pausing due =>
      cases cancelled with
      | true => exact silent rfl rfl rfl
      | false =>
          have hdue : due ≤ now := by simpa [runnable] using ready
          simp only [poll, Bool.false_eq_true, if_false, hdue, if_true]
          exact silent rfl rfl rfl

/-- A poll that gets on with an action leaves none waiting to be started. -/
theorem Polled.isQueued_eq_false {p p' : Progress} {exchange : Option Exchange}
    (h : Polled device p p' exchange) : p'.isQueued = false := by
  cases h with
  | release => rfl
  | push => rfl
  | other _ _ started _ => exact started

/-- A poll of a cancelled action sends at most the release of the input it holds. -/
theorem acts_of_poll_cancelled {p p' : Progress} {command : Command} {response : Response}
    (h : p.poll device attackMs now action true = (p', some (command, response))) :
    command.acts = false := by
  cases p <;> simp_all [poll, Device.ask, Command.acts]
  obtain ⟨-, rfl, -⟩ := h
  rfl

/-- An action that a device is asked for is not cancelled by the answer. -/
theorem ask_ne_cancelled (command : Command) {next : Progress} (h : next ≠ .ended .cancelled) :
    (device.ask command next).1 ≠ .ended .cancelled := by
  rcases device.ask_cases command next with heq | ⟨message, response, -, heq⟩ <;> rw [heq]
  · exact h
  · simp

/-- Only a cancelled action is cancelled by a poll. -/
theorem poll_ne_cancelled {p p' : Progress} {exchange : Option Exchange}
    (hp : p ≠ .ended .cancelled)
    (h : p.poll device attackMs now action false = (p', exchange)) : p' ≠ .ended .cancelled := by
  suffices (p.poll device attackMs now action false).1 ≠ .ended .cancelled by
    rw [h] at this
    exact this
  cases p with
  | queued => exact hp
  | ended ending => exact hp
  | ready =>
      simp only [poll, Bool.false_eq_true, if_false]
      cases action.plan attackMs with
      | hold input ms => exact ask_ne_cancelled _ (by simp)
      | press input => exact ask_ne_cancelled _ (by simp)
      | repeatPress presses =>
          cases presses with
          | zero => simp [Plan.start]
          | succ left => exact ask_ne_cancelled _ (by simp)
      | pause ms => simp [Plan.start]
      | move dx dy => exact ask_ne_cancelled _ (by simp)
      | invalid => simp [Plan.start]
  | holding input due =>
      simp only [poll, Bool.false_eq_true, if_false]
      split
      · exact ask_ne_cancelled _ (by simp)
      · exact hp
  | pressing left due =>
      simp only [poll, Bool.false_eq_true, if_false]
      split
      · cases left with
        | zero => simp
        | succ left => exact ask_ne_cancelled _ (by simp)
      · exact hp
  | pausing due =>
      simp only [poll, Bool.false_eq_true, if_false]
      split
      · simp
      · exact hp

end Progress

end Combo
