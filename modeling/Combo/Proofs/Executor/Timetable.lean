-- SUMMARY: What an action sends and when, if nothing disturbs it: a timetable from its kind and length, and that its polls keep to it.
import Combo.Proofs.Executor.Proper
import Combo.Proofs.Number.Duration

/-!
# The timetable of an action

`Action.timetable` says from the kind, the parameter and the length of an action
what it sends, at which instants, and how long it runs: an input that is held is
pushed down at the start and let up at the end, other inputs are pressed once, an
attack is pressed at each interval, and a wait sends nothing. Nothing in it
depends on polls.

An action that is under way is `OnCourse` if what it has sent and what is still
to come make up its timetable, and nothing of that is overdue. A poll on a device
that does everything keeps an action on course, and so does the time that passes
while nothing is due.
-/

namespace Combo

/-! ## Timetables -/

/-- So many presses of the attack, one interval apart. -/
def presses (attackMs first n : Nat) : List (Nat × Command) :=
  (List.range n).map fun i => (first + i * attackMs, .press .attack)

@[simp] theorem presses_zero (attackMs first : Nat) : presses attackMs first 0 = [] := rfl

theorem presses_succ (attackMs first n : Nat) :
    presses attackMs first (n + 1) =
      (first, .press .attack) :: presses attackMs (first + attackMs) n := by
  simp only [presses, List.range_succ_eq_map, List.map_cons, List.map_map, Nat.zero_mul,
    Nat.add_zero]
  refine congrArg _ (List.map_congr_left fun i _ => ?_)
  simp only [Function.comp_apply, Nat.succ_mul]
  rw [Nat.add_assoc, Nat.add_comm attackMs]

namespace Action

/-- The input that an action holds, if it is one of those that hold an input for their whole length. -/
def heldInput? (a : Action) : Option Input :=
  match a.kind with
  | .moveForward => some .forward
  | .moveLeft => some .left
  | .moveBack => some .back
  | .moveRight => some .right
  | .charge => some .attack
  | .skill => if a.isHold || 0.0 < a.seconds then some .skill else none
  | .dash => if dashHoldSeconds < a.seconds then some .sprint else none
  | .attack => if a.isHold then some .attack else none
  | .burst | .switch | .jump | .interact | .altInteract | .wait | .moveBy => none

/-- The one command of an action that is done at once. -/
def instantCommand? (a : Action) : Option Command :=
  match a.kind with
  | .switch => a.switchSlot?.map fun slot => .press (.member slot)
  | .moveBy => a.mouseDelta?.map fun delta => .move delta.1 delta.2
  | kind => kind.input?.map .press

/-- The presses of an attack that is not held. -/
def pressCount (attackMs : Nat) (a : Action) : Nat :=
  match a.attackMode? with
  | some .single => 1
  | some (.count n) => n
  | some (.timed seconds) => timedPresses attackMs seconds
  | none => 0

/-- The milliseconds that an action lasts by its length. -/
def lengthMs (a : Action) : Nat := Duration.millisUp (Duration.nanosOrZero a.seconds)

/-- What an undisturbed action sends and when, and how many milliseconds it runs. -/
def timetable (attackMs start : Nat) (a : Action) : List (Nat × Command) × Nat :=
  match a.heldInput?, a.kind with
  | some input, _ => ([(start, .down input), (start + a.lengthMs, .up input)], a.lengthMs)
  | none, .wait => ([], a.lengthMs)
  | none, .attack => (presses attackMs start (a.pressCount attackMs), a.pressCount attackMs * attackMs)
  | none, _ => ((a.instantCommand?.map fun command => (start, command)).toList, 0)

end Action

/-- What an undisturbed plan sends and when. -/
def Plan.course (attackMs start : Nat) : Plan → List (Nat × Command)
  | .hold input ms => [(start, .down input), (start + ms, .up input)]
  | .press input => [(start, .press input)]
  | .repeatPress n => presses attackMs start n
  | .pause _ => []
  | .move dx dy => [(start, .move dx dy)]
  | .invalid => []

theorem Action.millis_eq (a : Action) : a.millis = a.lengthMs := by
  rw [millis, lengthMs, Duration.nanosOrZero_longer]

/-- The plan of an action keeps to its timetable. -/
theorem Action.timetable_of_plan {a : Action} {attackMs : Nat}
    (proper : a.plan attackMs ≠ .invalid) (start : Nat) :
    a.timetable attackMs start =
      ((a.plan attackMs).course attackMs start, (a.plan attackMs).millis attackMs) := by
  cases hkind : a.kind with
  | moveForward | moveLeft | moveBack | moveRight | charge | wait =>
      simp [timetable, heldInput?, plan, hkind, Plan.course, Plan.millis, millis_eq]
  | burst | jump | interact | altInteract =>
      simp [timetable, heldInput?, instantCommand?, Kind.input?, plan, hkind, Plan.course, Plan.millis]
  | skill =>
      by_cases held : (a.isHold || decide (0.0 < a.seconds)) = true <;>
        simp [timetable, heldInput?, instantCommand?, Kind.input?, plan, hkind, held, Plan.course,
          Plan.millis, millis_eq]
  | dash =>
      by_cases held : dashHoldSeconds < a.seconds <;>
        simp [timetable, heldInput?, instantCommand?, Kind.input?, plan, hkind, held, Plan.course,
          Plan.millis, millis_eq]
  | switch =>
      cases slot : a.switchSlot? <;>
        simp_all [timetable, heldInput?, instantCommand?, plan, Plan.course, Plan.millis]
  | moveBy =>
      cases delta : a.mouseDelta? <;>
        simp_all [timetable, heldInput?, instantCommand?, plan, Plan.course, Plan.millis]
  | attack =>
      by_cases held : a.isHold = true
      · simp [timetable, heldInput?, plan, hkind, held, Plan.course, Plan.millis, millis_eq]
      · rcases mode : a.attackMode? with _ | (_ | n | seconds) <;>
          simp_all [timetable, heldInput?, pressCount, plan, attackPlan, Plan.course, Plan.millis]

/-! ## On course -/

namespace Progress

/-- What an action is still to send if nothing disturbs it, and when. -/
def toCome (attackMs now : Nat) (plan : Plan) : Progress → List (Nat × Command)
  | .queued | .ready => plan.course attackMs now
  | .holding input due => [(due, .up input)]
  | .pressing left due => presses attackMs due left
  | .pausing _ | .ended _ => []

/-- The instant at which an action ends if nothing disturbs it. -/
def endsAt? (attackMs now : Nat) (plan : Plan) : Progress → Option Nat
  | .queued | .ready => some (now + plan.millis attackMs)
  | .holding _ due => some due
  | .pressing left due => some (due + left * attackMs)
  | .pausing due => some due
  | .ended _ => none

end Progress

/-- The polls that a plan takes. -/
def Plan.polls : Plan → Nat
  | .hold _ _ | .pause _ => 2
  | .press _ | .move _ _ | .invalid => 1
  | .repeatPress n => n + 1

/-- The polls that are left to an action. -/
def Progress.pollsLeft (plan : Plan) : Progress → Nat
  | .queued | .ready => plan.polls
  | .holding _ _ | .pausing _ => 1
  | .pressing left _ => left + 1
  | .ended _ => 0

/--
Whether an action that was started at an instant, and has sent something since, keeps to its plan: the
rest of what it is to send is still to come, and so is its end, or it has completed in time.
-/
structure Progress.OnCourse (attackMs start now : Nat) (plan : Plan) (p : Progress)
    (sent : List (Nat × Command)) : Prop where
  course : sent ++ p.toCome attackMs now plan = plan.course attackMs start
  ends : p.endsAt? attackMs now plan = some (start + plan.millis attackMs) ∨
    (p = .ended .completed ∧ start + plan.millis attackMs ≤ now)
  due : ∀ due, p.due? = some due → now ≤ due

namespace Progress

variable {attackMs start now now' : Nat} {plan : Plan} {p p' : Progress} {device : Device}
  {sent : List (Nat × Command)} {a : Action} {exchange : Option Exchange}

/-- An action that is about to be started is on course. -/
theorem onCourse_queued (attackMs start : Nat) (plan : Plan) :
    OnCourse attackMs start start plan .queued [] :=
  ⟨rfl, .inl rfl, by simp [due?]⟩

/-- To start an action keeps it on course. -/
theorem OnCourse.release {e : Entry} (h : OnCourse attackMs start now plan e.progress sent) :
    OnCourse attackMs start now plan e.release.progress sent := by
  unfold Entry.release
  split
  · rename_i queued
    cases hp : e.progress <;> simp [hp, isQueued] at queued
    rw [hp] at h
    exact ⟨h.course, .inl (h.ends.resolve_right (by simp)), by simp [due?]⟩
  · exact h

/-- An action on course is not overdue. -/
theorem OnCourse.le_of_going (h : OnCourse attackMs start now plan p sent)
    (going : p.isEnded = false) : now ≤ start + plan.millis attackMs := by
  have ends := h.ends.resolve_right fun ended => by simp [ended.1, isEnded] at going
  have due := h.due
  cases p <;> simp [endsAt?, due?, isEnded] at ends due going <;> omega

/-- An action on course that has ended has completed, and not before its time. -/
theorem OnCourse.of_ended (h : OnCourse attackMs start now plan p sent) (ended : p.isEnded = true) :
    p = .ended .completed ∧ start + plan.millis attackMs ≤ now ∧
      sent = plan.course attackMs start := by
  have course := h.course
  rcases h.ends with going | ⟨completed, late⟩
  · cases p <;> simp [endsAt?, isEnded] at going ended
  · rw [completed, toCome, List.append_nil] at course
    exact ⟨completed, late, course⟩

/-- Time that passes while nothing is due keeps an action on course. -/
theorem OnCourse.shift (h : OnCourse attackMs start now plan p sent) (started : p.isQueued = false)
    (waits : p.runnable now false = false) (le : now ≤ now')
    (due : ∀ due, p.due? = some due → now' ≤ due) : OnCourse attackMs start now' plan p sent := by
  obtain ⟨course, ends, -⟩ := h
  cases p with
  | queued => cases started
  | ready => cases waits
  | holding | pressing | pausing => exact ⟨course, .inl (ends.resolve_right (by simp)), due⟩
  | ended ending =>
      obtain ⟨completed, late⟩ := ends.resolve_left (by simp [endsAt?])
      exact ⟨course, .inr ⟨completed, Nat.le_trans late le⟩, due⟩

theorem course_ge (plan : Plan) : ∀ x ∈ plan.course attackMs start, start ≤ x.1 := by
  cases plan <;> simp [Plan.course, presses]

/-- What an action on course is still to send is not overdue. -/
theorem OnCourse.toCome_ge (h : OnCourse attackMs start now plan p sent) :
    ∀ x ∈ p.toCome attackMs now plan, now ≤ x.1 := by
  have due := h.due
  cases p with
  | queued | ready => exact course_ge plan
  | holding input due' | pausing due' => simp_all [toCome, due?]
  | pressing left due' =>
      intro x hx
      obtain ⟨i, -, rfl⟩ := List.mem_map.1 hx
      have := due due' rfl
      simp only
      omega
  | ended => simp [toCome]

/-! ### Polls -/

theorem ask_of_done {command : Command} (works : device.respond command = .done) (next : Progress) :
    device.ask command next = (next, some (command, .done)) := by
  simp [Device.ask, works]

/-- What a poll makes of an action on course, with what it sends and how many polls are left. -/
structure Keeps (attackMs start now : Nat) (plan : Plan) (p : Progress) (sent : List (Nat × Command))
    (p' : Progress) (exchange : Option Exchange) : Prop where
  onCourse : OnCourse attackMs start now plan p' (sent ++ (exchange.map fun x => (now, x.1)).toList)
  done : ∀ x ∈ exchange, x.2 = .done
  started : p'.isQueued = false
  fewer : p'.pollsLeft plan < p.pollsLeft plan

/-- The first poll of an action keeps it on course. -/
theorem OnCourse.poll_ready (h : OnCourse attackMs start now plan .ready sent) (proper : plan ≠ .invalid)
    (works : ∀ command, device.respond command = .done)
    (hpoll : plan.start device attackMs now a = (p', exchange)) :
    Keeps attackMs start now plan .ready sent p' exchange := by
  have course : sent ++ plan.course attackMs now = plan.course attackMs start := h.course
  have ends : now + plan.millis attackMs = start + plan.millis attackMs :=
    Option.some.inj (h.ends.resolve_right (by simp))
  obtain rfl : now = start := by omega
  cases plan with
  | invalid => exact absurd rfl proper
  | hold input ms =>
      simp only [Plan.start, ask_of_done (works _), Prod.mk.injEq] at hpoll
      obtain ⟨rfl, rfl⟩ := hpoll
      exact ⟨⟨by simpa [toCome, Plan.course] using course, .inl rfl, by simp [due?]⟩, by simp, rfl,
        by simp [pollsLeft, Plan.polls]⟩
  | press input | move dx dy =>
      simp only [Plan.start, ask_of_done (works _), Prod.mk.injEq] at hpoll
      obtain ⟨rfl, rfl⟩ := hpoll
      exact ⟨⟨by simpa [toCome, Plan.course] using course, .inr ⟨rfl, by simp [Plan.millis]⟩,
        by simp [due?]⟩, by simp, rfl, by simp [pollsLeft, Plan.polls]⟩
  | pause ms =>
      simp only [Plan.start, Prod.mk.injEq] at hpoll
      obtain ⟨rfl, rfl⟩ := hpoll
      exact ⟨⟨by simpa [toCome, Plan.course] using course, .inl rfl, by simp [due?]⟩, by simp, rfl,
        by simp [pollsLeft, Plan.polls]⟩
  | repeatPress n =>
      cases n with
      | zero =>
          simp only [Plan.start, Prod.mk.injEq] at hpoll
          obtain ⟨rfl, rfl⟩ := hpoll
          exact ⟨⟨by simpa [toCome, Plan.course] using course, .inr ⟨rfl, by simp [Plan.millis]⟩,
            by simp [due?]⟩, by simp, rfl, by simp [pollsLeft, Plan.polls]⟩
      | succ left =>
          simp only [Plan.start, Device.askPress, ask_of_done (works _), Prod.mk.injEq] at hpoll
          obtain ⟨rfl, rfl⟩ := hpoll
          refine ⟨⟨?_, .inl ?_, by simp [due?]⟩, by simp, rfl, by simp [pollsLeft, Plan.polls]⟩
          · simpa [toCome, Plan.course, presses_succ] using course
          · simp only [endsAt?, Plan.millis, Nat.succ_mul]
            congr 1
            omega

/-- A poll keeps an action on course if the device does everything. -/
theorem OnCourse.poll (h : OnCourse attackMs start now (a.plan attackMs) p sent)
    (proper : a.plan attackMs ≠ .invalid) (works : ∀ command, device.respond command = .done)
    (ready : p.runnable now false = true)
    (hpoll : p.poll device attackMs now a false = (p', exchange)) :
    Keeps attackMs start now (a.plan attackMs) p sent p' exchange := by
  -- what an action waits for is due now, since it is not overdue
  have now_eq {due : Nat} (hp : p.due? = some due) (le : due ≤ now) : due = now :=
    Nat.le_antisymm le (h.due due hp)
  have course := h.course
  cases p with
  | queued | ended => cases ready
  | ready => exact h.poll_ready proper works (by simpa [Progress.poll] using hpoll)
  | holding input due =>
      obtain rfl := now_eq rfl (by simpa [runnable] using ready)
      have ends : due = start + (a.plan attackMs).millis attackMs :=
        Option.some.inj (h.ends.resolve_right (by simp))
      simp only [Progress.poll, ask_of_done (works _), Bool.false_eq_true, if_false, Nat.le_refl,
        if_true, Prod.mk.injEq] at hpoll
      obtain ⟨rfl, rfl⟩ := hpoll
      exact ⟨⟨by simpa [toCome] using course, .inr ⟨rfl, Nat.le_of_eq ends.symm⟩, by simp [due?]⟩,
        by simp, rfl, by simp [pollsLeft]⟩
  | pausing due =>
      obtain rfl := now_eq rfl (by simpa [runnable] using ready)
      have ends : due = start + (a.plan attackMs).millis attackMs :=
        Option.some.inj (h.ends.resolve_right (by simp))
      simp only [Progress.poll, Bool.false_eq_true, if_false, Nat.le_refl, if_true,
        Prod.mk.injEq] at hpoll
      obtain ⟨rfl, rfl⟩ := hpoll
      exact ⟨⟨by simpa [toCome] using course, .inr ⟨rfl, Nat.le_of_eq ends.symm⟩, by simp [due?]⟩,
        by simp, rfl, by simp [pollsLeft]⟩
  | pressing left due =>
      obtain rfl := now_eq rfl (by simpa [runnable] using ready)
      have ends : due + left * attackMs = start + (a.plan attackMs).millis attackMs :=
        Option.some.inj (h.ends.resolve_right (by simp))
      cases left with
      | zero =>
          simp only [Progress.poll, Bool.false_eq_true, if_false, Nat.le_refl, if_true,
            Prod.mk.injEq] at hpoll
          obtain ⟨rfl, rfl⟩ := hpoll
          exact ⟨⟨by simpa [toCome] using course, .inr ⟨rfl, by omega⟩, by simp [due?]⟩,
            by simp, rfl, by simp [pollsLeft]⟩
      | succ left =>
          simp only [Progress.poll, Device.askPress, ask_of_done (works _), Bool.false_eq_true,
            if_false, Nat.le_refl, if_true, Prod.mk.injEq] at hpoll
          obtain ⟨rfl, rfl⟩ := hpoll
          refine ⟨⟨?_, .inl ?_, by simp [due?]⟩, by simp, rfl, by simp [pollsLeft]⟩
          · simpa [toCome, presses_succ] using course
          · simp only [endsAt?, ← ends, Nat.succ_mul]
            congr 1
            omega

end Progress

/-- An action sends nothing before its start. -/
theorem Action.timetable_ge {a : Action} {attackMs : Nat} (proper : a.plan attackMs ≠ .invalid)
    (start : Nat) : ∀ x ∈ (a.timetable attackMs start).1, start ≤ x.1 := by
  rw [Action.timetable_of_plan proper]
  exact Progress.course_ge _

end Combo
