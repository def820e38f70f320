-- SUMMARY: The readings of a parameter agree: the length an accepted action carries goes with what it performs.
import Combo.Proofs.Executor.Performed
import Combo.Proofs.Number.Integer
import Combo.Proofs.Number.Nearest
import Combo.Proofs.Script.Executable

/-!
# The readings of a parameter agree

The parameter of an action is read up to three times, and not in the same way each time: its length
is inferred when the script is read, its fault is looked for when the script is checked, and its
plan is made when it is started. The inference has a length for a text that is no number, and reads
a press count with a wider range and a sign. `readings_agree` shows that in an accepted script
nothing of that can be seen: the length is the number that the check has read, and what the action
performs goes with it.
-/

namespace Combo

/-- Whether the parameter of a kind is a number of seconds. -/
def Kind.takesSeconds : Kind → Bool
  | .moveForward | .moveLeft | .moveBack | .moveRight | .charge | .wait | .skill | .dash => true
  | .burst | .attack | .switch | .jump | .interact | .altInteract | .moveBy => false

/--
Whether a quotient comes to so many presses: it is rounded to the nearest whole number, halves up,
and kept from one press to the greatest number of 32 bits; where it is infinite it comes to that.
-/
def IsPressCount (quotient : Float) (n : Nat) : Prop :=
  (∃ q, (Number.Parts.ofDouble quotient).value? = some q ∧
    n = max 1 (min (Number.wordMax 32) (round q).toNat)) ∨
  (Number.Parts.ofDouble quotient = .infinite false ∧ n = Number.wordMax 32)

namespace Action

variable {a : Action} {p : String} {attackMs n : Nat} {t : Float}

/-! ## Readings -/

/-- An attack has no parameter, a count without a point, or a time with one. -/
theorem attackMode?_cases {mode : AttackMode} (h : a.attackMode? = some mode) :
    (a.parameter = none ∧ mode = .single) ∨
    (∃ p k, a.parameter = some p ∧ p.toList.contains '.' = false ∧
      Number.unsigned? (Number.wordMax 32) p.toList = some k ∧ mode = .count (max k 1)) ∨
    ∃ p t, a.parameter = some p ∧ p.toList.contains '.' = true ∧
      Number.double? p.toList = some t ∧ mode = .timed t := by
  unfold attackMode? at h
  split at h
  · cases hp : a.parameter with
    | none =>
        simp only [hp, Option.some.injEq] at h
        exact .inl ⟨rfl, h.symm⟩
    | some p =>
        simp only [hp] at h
        split at h
        · rename_i point
          obtain ⟨t, ht, rfl⟩ := Option.map_eq_some_iff.1 h
          exact .inr (.inr ⟨p, t, rfl, point, ht, rfl⟩)
        · rename_i noPoint
          obtain ⟨k, hk, rfl⟩ := Option.map_eq_some_iff.1 h
          exact .inr (.inl ⟨p, k, rfl, by simpa using noPoint, hk, rfl⟩)
  · cases h

/-- A counted attack has a parameter without a point that the inference reads as the same count. -/
theorem of_attackMode?_count (h : a.attackMode? = some (.count n)) :
    ∃ p k, a.parameter = some p ∧ p.toList.contains '.' = false ∧
      Number.signed? 64 p.toList = some k ∧ countedPresses k = min n maxCountedPresses := by
  rcases attackMode?_cases h with ⟨-, hmode⟩ | ⟨p, k, hp, noPoint, hk, hmode⟩ | ⟨p, t, -, -, -, hmode⟩
  · cases hmode
  · cases hmode
    refine ⟨p, k, hp, noPoint, Number.signed?_of_unsigned? hk (by decide), ?_⟩
    rw [countedPresses, Int.toNat_natCast, Nat.min_comm, Nat.max_comm]
  · cases hmode

/-- A timed attack has a parameter with a point that is the time. -/
theorem of_attackMode?_timed (h : a.attackMode? = some (.timed t)) :
    ∃ p, a.parameter = some p ∧ p.toList.contains '.' = true ∧
      Number.double? p.toList = some t := by
  rcases attackMode?_cases h with ⟨-, hmode⟩ | ⟨p, k, -, -, -, hmode⟩ | ⟨p, t, hp, point, ht, hmode⟩
  · cases hmode
  · cases hmode
  · cases hmode
    exact ⟨p, hp, point, ht⟩

/-- The word `hold` is neither a count nor a time. -/
theorem isHold_of_attackMode? {mode : AttackMode} (h : a.attackMode? = some mode) :
    a.isHold = false := by
  have noCount : Number.unsigned? (Number.wordMax 32) "hold".toList = none := by decide
  rcases attackMode?_cases h with ⟨hp, -⟩ | ⟨p, k, hp, -, hk, -⟩ | ⟨p, t, hp, point, -, -⟩
  · simp [isHold, hp]
  · have word : p ≠ "hold" := by
      rintro rfl
      rw [noCount] at hk
      cases hk
    simp [isHold, hp, word]
  · have word : p ≠ "hold" := by
      rintro rfl
      revert point
      decide
    simp [isHold, hp, word]

/-! ## Lengths -/

theorem seconds_of_made (made : a = make a.kind a.parameter) :
    a.seconds = inferSeconds a.kind a.parameter :=
  congrArg Action.seconds made

section Lengths

variable (made : a = make a.kind a.parameter) (attack : a.kind = .attack)
include made attack

/-- The length of an attack that is not held is inferred as that of an attack. -/
theorem seconds_of_attack (notHeld : a.isHold = false) : a.seconds = attackSeconds a.parameter := by
  have word : a.parameter ≠ some "hold" := by simpa [isHold] using notHeld
  rw [seconds_of_made made, attack]
  simp only [inferSeconds, if_neg word]

theorem seconds_of_count (h : a.attackMode? = some (.count n)) :
    a.seconds = Float.ofNat (min n maxCountedPresses) * pressSeconds := by
  obtain ⟨p, k, hp, noPoint, signed, counted⟩ := of_attackMode?_count h
  rw [seconds_of_attack made attack (isHold_of_attackMode? h), hp, attackSeconds, noPoint, signed,
    ← counted]
  rfl

theorem seconds_of_timed (h : a.attackMode? = some (.timed t)) : a.seconds = t := by
  obtain ⟨p, hp, point, ht⟩ := of_attackMode?_timed h
  rw [seconds_of_attack made attack (isHold_of_attackMode? h), hp, attackSeconds, if_pos point,
    statedSeconds, ht, Option.getD_some]

end Lengths

/-! ## Performances -/

section Performances

variable (attack : a.kind = .attack) (start : Nat)
include attack

/-- An attack that is not held performs its presses, one interval apart. -/
theorem performs_presses {mode : AttackMode} (h : a.attackMode? = some mode) :
    a.Performs attackMs start (presses attackMs start (a.pressCount attackMs)) := by
  have plan : a.plan attackMs = .repeatPress (a.pressCount attackMs) := by
    cases mode <;> simp [Action.plan, attackPlan, pressCount, attack, isHold_of_attackMode? h, h]
  have performs : a.Performs attackMs start _ := performs_plan (by simp [plan]) start
  rwa [plan] at performs

/-- An attack that is held performs a push, and a release when its length is over. -/
theorem performs_hold (held : a.isHold = true) : a.Performs attackMs start
    [(start, .down .attack), (start + a.lengthMs, .up .attack)] := by
  have plan : a.plan attackMs = .hold .attack a.millis := by simp [Action.plan, attack, held]
  have performs : a.Performs attackMs start _ := performs_plan (by simp [plan]) start
  rwa [plan, millis_eq] at performs

end Performances

/-- A finite length that is not below zero comes to a number of presses at any positive interval. -/
theorem isPressCount_timedPresses (finite : t.isFinite = true) (notNegative : ¬ t < 0.0)
    (pos : 0 < attackMs) :
    IsPressCount (t / Duration.secondsOfMillis attackMs) (timedPresses attackMs t) := by
  have length := Number.isLength_of_finite finite notNegative
  have bounded : Number.magnitude t ≠ Number.infinityBits := fun infinite => by
    change t.toModel.unpack.isFinite = true at finite
    rw [length.stands.eq_infinity infinite] at finite
    cases finite
  have quotient := length.div (Duration.isLength_secondsOfMillis attackMs) bounded
    (Duration.magnitude_secondsOfMillis_pos pos).ne'
  rcases quotient.parts with ⟨q, hq⟩ | infinite
  · exact .inl ⟨q, hq, by rw [timedPresses, Number.roundToNat_of_value hq]⟩
  · refine .inr ⟨infinite, ?_⟩
    rw [timedPresses, Number.roundToNat_of_infinite infinite]
    decide

end Action

namespace Script

variable {a : Action} {p : String}

/-! ## What the check has read -/

/-- An attack without a fault whose parameter is no word has a count or a time. -/
theorem attackMode?_of_reason (reason : parameterReason? a = none) (attack : a.kind = .attack)
    (hp : a.parameter = some p) (notHeld : p ≠ "hold") :
    (∃ n, a.attackMode? = some (.count n)) ∨ ∃ t, a.attackMode? = some (.timed t) := by
  have mode : a.attackMode? ≠ none := by
    simpa [parameterReason?, attack, hp, Action.isHold, notHeld] using reason
  obtain ⟨mode, hmode⟩ := Option.ne_none_iff_exists'.1 mode
  rcases Action.attackMode?_cases hmode with ⟨hnone, -⟩ | ⟨-, k, -, -, -, rfl⟩ | ⟨-, t, -, -, -, rfl⟩
  · rw [hp] at hnone
    cases hnone
  · exact .inl ⟨_, hmode⟩
  · exact .inr ⟨t, hmode⟩

/-- Where seconds are taken, a parameter without a fault is a number, and that is the length. -/
theorem double?_of_reason (made : a = Action.make a.kind a.parameter)
    (reason : parameterReason? a = none) (takes : a.kind.takesSeconds = true)
    (hp : a.parameter = some p) (notHeld : p ≠ "hold") :
    Number.double? p.toList = some a.seconds := by
  have numeric : Number.double? p.toList ≠ none := by
    cases hkind : a.kind <;> simp [hkind, Kind.takesSeconds] at takes <;>
      simpa [parameterReason?, hkind, hp, Action.isHold, notHeld, Action.numeric?] using reason
  obtain ⟨t, ht⟩ := Option.ne_none_iff_exists'.1 numeric
  have stated : a.seconds = Action.statedSeconds (some p) := by
    rw [Action.seconds_of_made made, hp]
    cases hkind : a.kind <;> simp [hkind, Kind.takesSeconds] at takes <;>
      simp [Action.inferSeconds, notHeld]
  rw [stated, Action.statedSeconds, ht, Option.getD_some]

/--
The readings of the parameter of an accepted action agree. An attack without a parameter lasts 0
seconds and performs one press; one that is held lasts half a second and is held for it. A count
says how many presses an attack performs, and its length counts the same presses, up to ten; a time
is the length of an attack, and the presses it performs are that time divided by the interval,
rounded. Where the parameter of an action is a number of seconds, its length is that number. And no
length is the 0 that is inferred from a text that cannot be read.
-/
theorem readings_agree {max : Float} {script : String} {groups : List Group}
    (h : check max script = .ok groups) {g : Group} (hg : g ∈ groups) (ha : a ∈ g.actions) :
    (a.kind = .attack → ∀ attackMs start,
      (a.parameter = none →
        a.seconds = 0.0 ∧ a.Performs attackMs start [(start, .press .attack)]) ∧
      (a.parameter = some "hold" → a.seconds = Action.holdSeconds ∧
        a.Performs attackMs start [(start, .down .attack), (start + 500, .up .attack)]) ∧
      (∀ n, a.attackMode? = some (.count n) →
        a.seconds = Float.ofNat (min n Action.maxCountedPresses) * Action.pressSeconds ∧
        a.Performs attackMs start (presses attackMs start n)) ∧
      (∀ t, a.attackMode? = some (.timed t) → a.seconds = t ∧
        (0 < attackMs → ∃ n, IsPressCount (t / Duration.secondsOfMillis attackMs) n ∧
          a.Performs attackMs start (presses attackMs start n)))) ∧
    ∀ p, a.parameter = some p → p ≠ "hold" →
      (a.kind.takesSeconds = true → Number.double? p.toList = some a.seconds) ∧
      (a.kind = .attack →
        if p.toList.contains '.' then Number.double? p.toList = some a.seconds
        else ∃ n, Number.signed? 64 p.toList = some n ∧
          a.seconds = Float.ofNat (Action.countedPresses n) * Action.pressSeconds) := by
  obtain ⟨reason, length⟩ := actionFault?_eq_none (actionFault?_of_check h hg ha)
  obtain ⟨finite, notNegative, -⟩ := lengthFault?_eq_none length
  have made : a = Action.make a.kind a.parameter := by
    have canonical := isCanonical_read script
    rw [(read_of_check h).1] at canonical
    exact (canonical.2.1 g hg a ha).2
  refine ⟨fun attack attackMs start => ⟨fun hp => ?_, fun hp => ?_, fun n hn => ?_, fun t ht => ?_⟩,
    fun p hp notHeld => ⟨fun takes => ?_, fun attack => ?_⟩⟩
  · have single : a.attackMode? = some .single := by simp [Action.attackMode?, attack, hp]
    have performs : a.Performs attackMs start _ := Action.performs_presses attack start single
    have once : a.pressCount attackMs = 1 := by simp [Action.pressCount, single]
    rw [once, presses_succ, presses_zero] at performs
    have seconds := Action.seconds_of_attack made attack (Action.isHold_of_attackMode? single)
    rw [hp] at seconds
    exact ⟨seconds, performs⟩
  · have held : a.isHold = true := by simp [Action.isHold, hp]
    have seconds : a.seconds = Action.holdSeconds := by
      rw [Action.seconds_of_made made, hp]
      exact if_pos rfl
    have millis : a.lengthMs = 500 := by
      rw [Action.lengthMs, seconds]
      decide +kernel
    exact ⟨seconds, millis ▸ Action.performs_hold attack start held⟩
  · have performs : a.Performs attackMs start _ := Action.performs_presses attack start hn
    have count : a.pressCount attackMs = n := by simp [Action.pressCount, hn]
    exact ⟨Action.seconds_of_count made attack hn, count ▸ performs⟩
  · have performs : a.Performs attackMs start _ := Action.performs_presses attack start ht
    have count : a.pressCount attackMs = Action.timedPresses attackMs t := by
      simp [Action.pressCount, ht]
    have seconds := Action.seconds_of_timed made attack ht
    rw [seconds] at finite notNegative
    exact ⟨seconds, fun pos =>
      ⟨_, Action.isPressCount_timedPresses finite notNegative pos, count ▸ performs⟩⟩
  · exact double?_of_reason made reason takes hp notHeld
  · rcases attackMode?_of_reason reason attack hp notHeld with ⟨n, hn⟩ | ⟨t, ht⟩
    · obtain ⟨p', k, hp', noPoint, signed, counted⟩ := Action.of_attackMode?_count hn
      obtain rfl : p' = p := Option.some.inj (hp'.symm.trans hp)
      rw [noPoint, if_neg Bool.false_ne_true]
      exact ⟨k, signed, counted ▸ Action.seconds_of_count made attack hn⟩
    · obtain ⟨p', hp', point, read⟩ := Action.of_attackMode?_timed ht
      obtain rfl : p' = p := Option.some.inj (hp'.symm.trans hp)
      rw [if_pos point, read, Action.seconds_of_timed made attack ht]

/-- A count with a sign and zeros and a time with an exponent are read alike everywhere. -/
theorem readings_agree_numerals :
    let counted := Action.make .attack (some "+007")
    let timed := Action.make .attack (some ".25e1")
    let walk := Action.make .moveForward (some "+.5")
    check 10.0 "attack(+007)&W( +.5 ),attack(.25e1)" =
        .ok [Group.of [counted, walk], Group.of [timed]] ∧
      counted.kind = .attack ∧ counted.attackMode? = some (.count 7) ∧
      counted.Performs 100 0 (presses 100 0 7) ∧
      timed.attackMode? = some (.timed 2.5) ∧ 0 < 100 ∧
      (∃ n, IsPressCount (2.5 / Duration.secondsOfMillis 100) n ∧
        timed.Performs 100 0 (presses 100 0 n)) ∧
      Number.double? "+.5".toList = some walk.seconds := by
  intro counted timed walk
  have checked : check 10.0 "attack(+007)&W( +.5 ),attack(.25e1)" =
      .ok [Group.of [counted, walk], Group.of [timed]] := by rfl
  have count : counted.attackMode? = some (.count 7) := by decide +kernel
  have time : timed.attackMode? = some (.timed 2.5) := by decide +kernel
  have first := readings_agree checked List.mem_cons_self (a := counted) List.mem_cons_self
  have second := readings_agree checked List.mem_cons_self (a := walk)
    (List.mem_cons_of_mem _ List.mem_cons_self)
  have third := readings_agree checked (List.mem_cons_of_mem _ List.mem_cons_self) (a := timed)
    List.mem_cons_self
  exact ⟨checked, rfl, count, ((first.1 rfl 100 0).2.2.1 7 count).2, time, by decide,
    ((third.1 rfl 100 0).2.2.2 2.5 time).2 (by decide),
    (second.2 "+.5" rfl (by decide)).1 rfl⟩

end Script

end Combo
