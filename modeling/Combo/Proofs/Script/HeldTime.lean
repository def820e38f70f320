-- SUMMARY: How long accepted actions are held: their length in nanoseconds, unless that does not fit, and then no time at all.
import Combo.Config.Basic
import Combo.Proofs.Executor.Timetable
import Combo.Proofs.Number.Nanos
import Combo.Proofs.Script.Executable

/-!
# How long accepted actions are held

An engine bounds the length of an action by a limit that is any positive finite double,
but seconds become nanoseconds only below `2 ^ 64`. What is accepted and longer than that
is held for no time. So the lengths are kept, and with them their order, exactly under a
limit below `2 ^ 64`.
-/

namespace Combo

/-- Some script with this action is accepted under the limit of the engine. -/
def Engine.Accepts (e : Engine) (a : Action) : Prop :=
  ∃ script groups, Script.check e.maxActionSeconds script = .ok groups ∧
    ∃ g ∈ groups, a ∈ g.actions

/-- The holds and pauses of the action last so many nanoseconds, on a clock of whole milliseconds. -/
structure Action.LastsNanos (a : Action) (n : Nat) : Prop where
  hold : ∀ input attackMs, a.heldInput? = some input →
    a.plan attackMs = .hold input (Duration.millisUp n)
  pause : ∀ attackMs, a.kind = .wait → a.plan attackMs = .pause (Duration.millisUp n)

namespace Script

variable {e : Engine} {a b : Action}

/-- Actions are held and waited for as long as the nanoseconds of their length say. -/
theorem lastsNanos (a : Action) : a.LastsNanos (Duration.nanosOrZero a.seconds) where
  hold := by
    intro input attackMs held
    rw [← Action.lengthMs, ← Action.millis_eq]
    cases kind : a.kind <;> simp_all [Action.heldInput?, Action.plan]
  pause := by
    intro attackMs wait
    rw [← Action.lengthMs, ← Action.millis_eq]
    simp [Action.plan, wait]

/-- The length of an accepted action is finite, not negative and not above the limit. -/
theorem length_of_accepts (h : e.Accepts a) :
    a.seconds.isFinite = true ∧ ¬ a.seconds < 0.0 ∧ ¬ e.maxActionSeconds < a.seconds := by
  obtain ⟨script, groups, accepted, g, hg, ha⟩ := h
  exact lengthFault?_eq_none (actionFault?_eq_none (actionFault?_of_check accepted hg ha)).2

theorem isLength_of_accepts (h : e.Accepts a) : Number.IsLength a.seconds := by
  obtain ⟨finite, notNegative, -⟩ := length_of_accepts h
  exact Number.isLength_of_finite finite notNegative

theorem exists_value_of_accepts (h : e.Accepts a) :
    ∃ q : ℚ, 0 ≤ q ∧ (Number.Parts.ofDouble a.seconds).value? = some q := by
  obtain ⟨finite, notNegative, -⟩ := length_of_accepts h
  exact Number.exists_value finite notNegative

/-! ## Limits -/

/-- The shortest wait that does not fit. -/
def longWait : Action := Action.make .wait (some "18446744073709551616")

theorem seconds_longWait : longWait.seconds = 18446744073709551616.0 := by decide +kernel

theorem accepts_longWait (long : ¬ e.maxActionSeconds < 18446744073709551616.0) :
    e.Accepts longWait := by
  have reading : read "wait(18446744073709551616)" = ⟨[Group.of [longWait]], []⟩ := by rfl
  have proper : parameterReason? longWait = none := rfl
  have finite : (18446744073709551616.0 : Float).isFinite = true := rfl
  have notNegative : ¬ (18446744073709551616.0 : Float) < 0.0 := by decide
  have accepted : actionFault? e.maxActionSeconds longWait = none := by
    simp only [actionFault?, proper, lengthFault?, seconds_longWait, finite, Bool.not_true,
      Bool.false_eq_true, if_false, if_neg notNegative, if_neg long]
  have fault : (Reading.mk [Group.of [longWait]] []).fault? e.maxActionSeconds = none := by
    simpa [Reading.fault?, Reading.actions, Group.of] using accepted
  refine ⟨"wait(18446744073709551616)", [Group.of [longWait]], ?_, _, List.mem_singleton_self _,
    List.mem_singleton_self _⟩
  simp only [check, reading, fault]

/-- The limit of an engine without a fault is a length. -/
theorem isLength_limit (valid : e.fault? = none) : Number.IsLength e.maxActionSeconds := by
  have proper : ¬ (!e.maxActionSeconds.isFinite || decide (e.maxActionSeconds ≤ 0.0)) = true := by
    intro improper
    rw [Engine.fault?, if_pos improper] at valid
    cases valid
  simp only [Bool.or_eq_true, Bool.not_eq_true', decide_eq_true_eq, not_or, Bool.not_eq_false] at proper
  exact Number.isLength_of_finite proper.1 fun negative => proper.2 (Number.le_of_lt_double negative)

/-- The number that a limit of `2 ^ 64` stands for. -/
theorem value_limit : (Number.Parts.ofDouble 18446744073709551616.0).value? = some (2 ^ 64) := by
  have parts : Number.Parts.ofDouble 18446744073709551616.0 = .finite false (2 ^ 52) 12 := rfl
  rw [parts, Number.Parts.value?]
  norm_num

theorem isLength_longLimit : Number.IsLength 18446744073709551616.0 := by
  have bits : (18446744073709551616.0 : Float).toBits.toNat = 0x43F0000000000000 := rfl
  exact Number.isLength_of_toBits (bits.trans_le (by decide))

/-- Under a limit below `2 ^ 64` seconds every accepted length fits. -/
theorem fits_of_limit (valid : e.fault? = none) (small : e.maxActionSeconds < 18446744073709551616.0)
    (h : e.Accepts a) {q : ℚ} (value : (Number.Parts.ofDouble a.seconds).value? = some q) :
    q < 2 ^ 64 := by
  obtain ⟨-, -, within⟩ := length_of_accepts h
  have length := isLength_of_accepts h
  have limit := isLength_limit valid
  rw [← length.lt_iff_value isLength_longLimit value value_limit, length.lt_iff isLength_longLimit]
  rw [limit.lt_iff length] at within
  rw [limit.lt_iff isLength_longLimit] at small
  omega

/-! ## The law -/

/-- An accepted action lasts its nearest nanoseconds, or no time if its length does not fit. -/
theorem lasts_of_accepts (h : e.Accepts a) :
    ∃ q : ℚ, (Number.Parts.ofDouble a.seconds).value? = some q ∧ 0 ≤ q ∧
      (q < 2 ^ 64 → ∃ n, Number.IsNearestEven (q * 10 ^ 9) n ∧
        Duration.nanos? a.seconds = some n ∧ a.LastsNanos n) ∧
      (2 ^ 64 ≤ q → Duration.nanos? a.seconds = none ∧ a.LastsNanos 0) := by
  obtain ⟨q, nonneg, value⟩ := exists_value_of_accepts h
  obtain ⟨fits, long⟩ := Duration.nanos?_of_value value nonneg
  have lasts := lastsNanos a
  unfold Duration.nanosOrZero at lasts
  refine ⟨q, value, nonneg, fun small => ?_, fun large => ?_⟩
  · obtain ⟨n, nanos, nearest⟩ := fits small
    rw [nanos] at lasts
    exact ⟨n, nearest, nanos, lasts⟩
  · rw [long large] at lasts
    exact ⟨long large, lasts⟩

/-- The longer of two accepted actions lasts for less exactly if its length is replaced. -/
theorem lasts_less_iff (ha : e.Accepts a) (hb : e.Accepts b) (longer : a.seconds < b.seconds) :
    Duration.nanosOrZero b.seconds < Duration.nanosOrZero a.seconds ↔
      Duration.nanos? b.seconds = none ∧ 0 < Duration.nanosOrZero a.seconds := by
  obtain ⟨q, value, nonneg, fits, -⟩ := lasts_of_accepts ha
  obtain ⟨r, value', -, fits', long'⟩ := lasts_of_accepts hb
  have less : q < r :=
    ((isLength_of_accepts ha).lt_iff_value (isLength_of_accepts hb) value value').1 longer
  unfold Duration.nanosOrZero
  rcases lt_or_ge r (2 ^ 64) with small | large
  · obtain ⟨n, nearest, nanos, -⟩ := fits (less.trans small)
    obtain ⟨n', nearest', nanos', -⟩ := fits' small
    have ordered := nearest.mono nearest' (by gcongr)
    simp [nanos, nanos', ordered]
  · simp [(long' large).1]

/-- No accepted length is replaced exactly if the limit is below `2 ^ 64` seconds. -/
theorem never_replaced_iff (valid : e.fault? = none) :
    (∀ a, e.Accepts a → Duration.nanos? a.seconds ≠ none) ↔
      e.maxActionSeconds < 18446744073709551616.0 := by
  constructor
  · intro kept
    by_contra long
    exact kept longWait (accepts_longWait long) rfl
  · intro small a h
    obtain ⟨q, value, -, fits, -⟩ := lasts_of_accepts h
    obtain ⟨n, -, nanos, -⟩ := fits (fits_of_limit valid small h value)
    simp [nanos]

/--
What becomes of accepted lengths. Each is held for its nearest nanoseconds, or for no time if it is
`2 ^ 64` seconds or more; the longer of two is held for less exactly if it is replaced so and the
other one is not nothing; and no length is ever replaced exactly under a limit below `2 ^ 64` seconds.
-/
theorem accepted_lengths (valid : e.fault? = none) :
    (∀ a, e.Accepts a → ∃ q : ℚ, (Number.Parts.ofDouble a.seconds).value? = some q ∧ 0 ≤ q ∧
      (q < 2 ^ 64 → ∃ n, Number.IsNearestEven (q * 10 ^ 9) n ∧
        Duration.nanos? a.seconds = some n ∧ a.LastsNanos n) ∧
      (2 ^ 64 ≤ q → Duration.nanos? a.seconds = none ∧ a.LastsNanos 0)) ∧
    (∀ a b, e.Accepts a → e.Accepts b → a.seconds < b.seconds →
      (Duration.nanosOrZero b.seconds < Duration.nanosOrZero a.seconds ↔
        Duration.nanos? b.seconds = none ∧ 0 < Duration.nanosOrZero a.seconds)) ∧
    ((∀ a, e.Accepts a → Duration.nanos? a.seconds ≠ none) ↔
      e.maxActionSeconds < 18446744073709551616.0) :=
  ⟨fun _ => lasts_of_accepts, fun _ _ => lasts_less_iff, never_replaced_iff valid⟩

/-- Under a limit of `1e30` seconds a hold of `1e20` lasts no time, and one of `1e19` does. -/
theorem accepted_lengths_farLimit :
    let e : Engine := { maxActionSeconds := 1e30 }
    let long := Action.make .moveForward (some "1e20")
    let short := Action.make .moveForward (some "1e19")
    e.fault? = none ∧ e.Accepts long ∧ e.Accepts short ∧ short.seconds < long.seconds ∧
      Duration.nanos? long.seconds = none ∧
      Duration.nanos? short.seconds = some (10 ^ 28) ∧
      Duration.nanosOrZero long.seconds < Duration.nanosOrZero short.seconds ∧
      ¬ e.maxActionSeconds < 18446744073709551616.0 := by
  intro e long short
  have valid : e.fault? = none := by decide +kernel
  have acceptsLong : e.Accepts long :=
    ⟨"w(1e20)", [Group.of [long]], by decide +kernel, _,
      List.mem_singleton_self _, List.mem_singleton_self _⟩
  have acceptsShort : e.Accepts short :=
    ⟨"w(1e19)", [Group.of [short]], by decide +kernel, _,
      List.mem_singleton_self _, List.mem_singleton_self _⟩
  have shorter : short.seconds < long.seconds := by decide +kernel
  have replaced : Duration.nanos? long.seconds = none := by decide +kernel
  have kept : Duration.nanos? short.seconds = some (10 ^ 28) := by decide +kernel
  have positive : 0 < Duration.nanosOrZero short.seconds := by simp [Duration.nanosOrZero, kept]
  obtain ⟨-, less, never⟩ := accepted_lengths valid
  exact ⟨valid, acceptsLong, acceptsShort, shorter, replaced, kept,
    (less short long acceptsShort acceptsLong shorter).2 ⟨replaced, positive⟩,
    fun small => never.2 small long acceptsLong replaced⟩

end Script

end Combo
