-- SUMMARY: The count of refused scripts over whole histories: when the limit is reached, and that a refusal leaves all else alone.
import Mathlib.Data.List.Induction
import Mathlib.Data.List.TakeWhile
import Combo.Queue.Operation
import Combo.Proofs.Queue.Effect

/-!
# The circuit breaker

A queue counts the scripts it refuses and starts again at the limit. `strikes`
counts the same scripts with no limit and no state: it looks back over a history
to the last operation that forgives. The count of the queue is the number of
strikes modulo the limit, and the limit error comes with every strike that makes
it a multiple of the limit.
-/

namespace Combo.Queue

/-! ## Strikes -/

namespace Operation

/-- Whether an operation submits a script. -/
def submits : Operation → Bool
  | .add _ _ => true
  | .next _ | .complete _ | .resetErrors | .clear | .stop => false

/-- Whether an operation submits a script that does not pass the check. -/
def isInvalid (max : Float) : Operation → Bool
  | .add _ script => !(Script.check max script).isOk
  | .next _ | .complete _ | .resetErrors | .clear | .stop => false

/-- Whether an operation makes up for earlier refusals. -/
def forgives (max : Float) : Operation → Bool
  | .add _ script => (Script.check max script).isOk
  | .resetErrors => true
  | .next _ | .complete _ | .clear | .stop => false

end Operation

/-- The operations of a history that are heeded: once it is stopped, a queue heeds no script. -/
def heeded (history : List Operation) : List Operation :=
  history.takeWhile (· != .stop) ++ (history.dropWhile (· != .stop)).filter (!·.submits)

/-- The invalid scripts that were heeded since the last operation that forgives. -/
def strikes (max : Float) (history : List Operation) : Nat :=
  ((heeded history).reverse.takeWhile (!·.forgives max)).countP (·.isInvalid max)

theorem heeded_append_singleton (history : List Operation) (o : Operation) :
    heeded (history ++ [o]) =
      heeded history ++ if .stop ∈ history ∧ o.submits = true then [] else [o] := by
  by_cases stopped : .stop ∈ history
  · -- what comes after the stop is appended to the part that is filtered
    have hsome : ¬ ∀ a ∈ history, (a != Operation.stop) = true := by
      intro hall
      simpa using hall _ stopped
    have hlength : (history.takeWhile (· != .stop)).length ≠ history.length := by
      intro heq
      exact hsome (List.takeWhile_eq_self_iff.1 ((List.takeWhile_sublist _).eq_of_length heq))
    have hrest : ¬ (history.dropWhile (· != .stop)).isEmpty = true := by
      rw [List.isEmpty_iff, List.dropWhile_eq_nil_iff]
      exact hsome
    rw [heeded, heeded, List.takeWhile_append, if_neg hlength, List.dropWhile_append,
      if_neg hrest, List.filter_append, List.append_assoc]
    cases hs : o.submits <;> simp [stopped, hs]
  · have hall : ∀ a ∈ history, (a != Operation.stop) = true := by
      intro a ha
      simp only [bne_iff_ne, ne_eq]
      rintro rfl
      exact stopped ha
    rw [heeded, heeded, List.takeWhile_append_of_pos hall, List.dropWhile_append_of_pos hall,
      List.takeWhile_eq_self_iff.2 hall, List.dropWhile_eq_nil_iff.2 hall]
    by_cases hstop : o = .stop
    · subst hstop
      simp [stopped, Operation.submits]
    · simp [stopped, hstop]

/-- One more operation forgives, is one more strike, or does neither. -/
theorem strikes_append_singleton (max : Float) (history : List Operation) (o : Operation) :
    strikes max (history ++ [o]) =
      if .stop ∈ history ∧ o.submits = true then strikes max history
      else if o.forgives max then 0
      else strikes max history + if o.isInvalid max then 1 else 0 := by
  unfold strikes
  rw [heeded_append_singleton]
  by_cases unheard : .stop ∈ history ∧ o.submits = true
  · rw [if_pos unheard, if_pos unheard, List.append_nil]
  · rw [if_neg unheard, if_neg unheard, List.reverse_append, List.reverse_singleton,
      List.singleton_append]
    cases hf : o.forgives max with
    | true => simp [hf]
    | false => simp [hf, List.countP_cons]

section Add

variable {max : Float} {history : List Operation} {now : Nat} {script : String}

theorem strikes_add_of_stopped (h : .stop ∈ history) :
    strikes max (history ++ [.add now script]) = strikes max history := by
  rw [strikes_append_singleton, if_pos ⟨h, rfl⟩]

theorem strikes_add_of_fault {fault : Script.Fault} (h : .stop ∉ history)
    (hcheck : Script.check max script = .error fault) :
    strikes max (history ++ [.add now script]) = strikes max history + 1 := by
  rw [strikes_append_singleton]
  simp [h, Operation.forgives, Operation.isInvalid, hcheck, Except.isOk, Except.toBool]

theorem strikes_add_of_groups {groups : List Group} (h : .stop ∉ history)
    (hcheck : Script.check max script = .ok groups) :
    strikes max (history ++ [.add now script]) = 0 := by
  rw [strikes_append_singleton]
  simp [h, Operation.forgives, hcheck, Except.isOk, Except.toBool]

end Add

/-! ## The count -/

/-- The number of strikes at which the count starts again; it is never zero. -/
def strikeLimit (engine : Engine) : Nat := max 1 engine.maxErrorCount

theorem strikeLimit_pos (engine : Engine) : 0 < strikeLimit engine :=
  Nat.lt_of_lt_of_le Nat.one_pos (Nat.le_max_left _ _)

/-- A count with a limit reaches the limit and starts again, or goes up by one. -/
theorem count_cases {limit : Nat} (pos : 0 < limit) (k : Nat) :
    (k % limit + 1 = limit ∧ (k + 1) % limit = 0) ∨
      (k % limit + 1 < limit ∧ (k + 1) % limit = k % limit + 1) := by
  have step : (k + 1) % limit = (k % limit + 1) % limit := (Nat.mod_add_mod k limit 1).symm
  rcases Nat.lt_or_eq_of_le (Nat.mod_lt k pos) with below | reached
  · exact .inr ⟨below, step.trans (Nat.mod_eq_of_lt below)⟩
  · have reached : k % limit + 1 = limit := reached
    exact .inl ⟨reached, by rw [step, reached, Nat.mod_self]⟩

/-- A queue that has counted to `k` gives the limit error if the next strike is a multiple of it. -/
theorem refuse_spec {q : Queue} {k : Nat} (h : q.errors = k % strikeLimit q.engine)
    (fault : Script.Fault) :
    q.refuse fault =
      (if strikeLimit q.engine ∣ k + 1 then .tooManyInvalid (strikeLimit q.engine) fault
        else .invalid fault,
      { q with errors := (k + 1) % strikeLimit q.engine }) := by
  have reach : q.engine.maxErrorCount ≤ q.errors + 1 ↔ strikeLimit q.engine ≤ q.errors + 1 := by
    unfold strikeLimit
    omega
  rcases count_cases (strikeLimit_pos q.engine) k with ⟨reached, next⟩ | ⟨below, next⟩
  · have hle : q.engine.maxErrorCount ≤ q.errors + 1 := reach.2 (by omega)
    rw [if_pos (Nat.dvd_of_mod_eq_zero next), next]
    simp only [refuse, if_pos hle]
    rw [h, reached]
  · have hnle : ¬ q.engine.maxErrorCount ≤ q.errors + 1 := mt reach.1 (by omega)
    have undivided : ¬ strikeLimit q.engine ∣ k + 1 := by
      rw [Nat.dvd_iff_mod_eq_zero]
      omega
    rw [if_neg undivided, next]
    simp only [refuse, if_neg hnle]
    rw [h]

/-- What a queue retains of a history: whether it was stopped, and the strikes up to the limit. -/
structure Tallies (engine : Engine) (history : List Operation) (q : Queue) : Prop where
  engine_eq : q.engine = engine
  stopped_eq : q.stopped = decide (.stop ∈ history)
  errors_eq : q.errors = strikes engine.maxActionSeconds history % strikeLimit engine

section History

variable {σ : Type} [Control σ] {engine : Engine} {history : List Operation} {state : Queue × σ}

/-- To take in a script is to ignore it, to count it, or to start the count again. -/
theorem Tallies.add (tallies : Tallies engine history state.1) (now : Nat) (script : String) :
    Tallies engine (history ++ [.add now script]) (state.1.add now script state.2).2.1 := by
  obtain ⟨rfl, stopped_eq, errors_eq⟩ := tallies
  have flag : state.1.stopped = decide (.stop ∈ history ++ [.add now script]) := by
    simp [stopped_eq]
  by_cases stopped : .stop ∈ history
  · rw [add_of_stopped (by simp [stopped_eq, stopped])]
    exact ⟨rfl, flag, by rw [strikes_add_of_stopped stopped, errors_eq]⟩
  · have open_ : state.1.stopped = false := by simp [stopped_eq, stopped]
    cases hcheck : Script.check state.1.engine.maxActionSeconds script with
    | error fault =>
        rw [add_of_fault open_ hcheck, refuse_spec errors_eq]
        exact ⟨rfl, flag, by rw [strikes_add_of_fault stopped hcheck]⟩
    | ok groups =>
        rw [add_of_groups open_ hcheck]
        exact ⟨rfl, flag, by simp [strikes_add_of_groups stopped hcheck, accept]⟩

/-- An operation that submits no script leaves the count as it is, unless it resets it. -/
theorem Tallies.perform (tallies : Tallies engine history state.1) (o : Operation) :
    Tallies engine (history ++ [o]) (perform state o).1 := by
  obtain ⟨engine_eq, stopped_eq, errors_eq⟩ := id tallies
  -- an operation that is no stop keeps the flag, one that neither counts nor forgives the count
  have flag (hne : o ≠ .stop) : state.1.stopped = decide (.stop ∈ history ++ [o]) := by
    simp [stopped_eq, Ne.symm hne]
  have count (hs : o.submits = false) (hf : o.forgives engine.maxActionSeconds = false)
      (hi : o.isInvalid engine.maxActionSeconds = false) :
      state.1.errors =
        strikes engine.maxActionSeconds (history ++ [o]) % strikeLimit engine := by
    rw [errors_eq, strikes_append_singleton]
    simp [hs, hf, hi]
  cases o with
  | add now script => exact tallies.add now script
  | next now =>
      rcases next_cases now state.1 with ⟨-, heq⟩ | ⟨t, rest, -, heq⟩
      · simp only [Queue.perform, heq]
        exact ⟨engine_eq, flag (by simp), count rfl rfl rfl⟩
      · simp only [Queue.perform, heq]
        exact ⟨engine_eq, flag (by simp), count rfl rfl rfl⟩
  | complete report =>
      rcases complete_cases state.1 report with ⟨-, heq⟩ | ⟨before, o, after, -, -, heq⟩
      · simp only [Queue.perform, heq]
        exact ⟨engine_eq, flag (by simp), count rfl rfl rfl⟩
      · simp only [Queue.perform, heq]
        exact ⟨engine_eq, flag (by simp), count rfl rfl rfl⟩
  | resetErrors =>
      refine ⟨engine_eq, flag (by simp), ?_⟩
      rw [strikes_append_singleton]
      simp [Queue.perform, resetErrors, Operation.submits, Operation.forgives]
  | clear => exact ⟨engine_eq, flag (by simp), count rfl rfl rfl⟩
  | stop => exact ⟨engine_eq, by simp [Queue.perform, stop], count rfl rfl rfl⟩

/-- After any history a new queue has counted its strikes up to the limit. -/
theorem tallies_performAll (engine : Engine) (s : σ) (history : List Operation) :
    Tallies engine history (performAll (({ engine } : Queue), s) history).1 := by
  induction history using List.reverseRecOn with
  | nil => exact ⟨rfl, rfl, by simp [strikes, heeded]⟩
  | append_singleton history o ih =>
      rw [performAll_append, performAll_cons, performAll_nil]
      exact ih.perform o

/-! ## Refusals -/

/--
After any history the count is the number of strikes since the last operation that forgives, up to
the limit, and one more strike never overflows 32 bits. A stopped queue ignores scripts. Another
one takes in a valid script, and an invalid one gets the limit error just if with it the strikes
are a multiple of the limit. Whatever the reason, a script that is refused leaves all but the count
alone, and whoever stands for the executor is not called.
-/
theorem refusals_counted (engine : Engine) (s : σ) (history : List Operation) :
    let state := performAll (({ engine } : Queue), s) history
    state.1.errors = strikes engine.maxActionSeconds history % strikeLimit engine ∧
    (engine.maxErrorCount ≤ Number.wordMax 32 → state.1.errors + 1 ≤ Number.wordMax 32) ∧
    ∀ now script,
      (.stop ∈ history → state.1.add now script state.2 = (.error .stopped, state)) ∧
      (.stop ∉ history → ∀ groups, Script.check engine.maxActionSeconds script = .ok groups →
        (state.1.add now script state.2).1 = .ok groups.length) ∧
      (.stop ∉ history → ∀ fault, Script.check engine.maxActionSeconds script = .error fault →
        (state.1.add now script state.2).1 = .error
          (if strikeLimit engine ∣
              strikes engine.maxActionSeconds (history ++ [.add now script]) then
            .tooManyInvalid (strikeLimit engine) fault
          else .invalid fault)) ∧
      ∀ e, (state.1.add now script state.2).1 = .error e →
        ∃ errors, (state.1.add now script state.2).2 = ({ state.1 with errors }, state.2) := by
  intro state
  have tallies : Tallies engine history state.1 := tallies_performAll engine s history
  have hengine := tallies.engine_eq
  have open_ (hstop : .stop ∉ history) : state.1.stopped = false := by
    simp [tallies.stopped_eq, hstop]
  refine ⟨tallies.errors_eq, fun small => ?_, fun now script =>
    ⟨fun hstop => ?_, fun hstop groups hcheck => ?_, fun hstop fault hcheck => ?_, ?_⟩⟩
  · have below := Nat.mod_lt (strikes engine.maxActionSeconds history) (strikeLimit_pos engine)
    rw [← tallies.errors_eq] at below
    unfold strikeLimit at below
    have room : 1 ≤ Number.wordMax 32 := by decide
    omega
  · rw [add_of_stopped (by simp [tallies.stopped_eq, hstop])]
  · rw [add_of_groups (open_ hstop) (hengine ▸ hcheck)]
  · rw [add_of_fault (open_ hstop) (hengine ▸ hcheck), refuse_spec (hengine ▸ tallies.errors_eq),
      strikes_add_of_fault hstop hcheck, hengine]
  · intro e refused
    rcases add_cases now script state.1 state.2 with ⟨fault, errors, heq⟩ | ⟨groups, -, -, heq⟩
    · exact ⟨errors, congrArg Prod.snd heq⟩
    · rw [heq] at refused
      cases refused

end History

/-- Two invalid scripts around a valid one, and a walk that is handed out and then cleared away. -/
def clearedWalk : List Operation :=
  [.add 0 "zz", .add 0 "w", .next 0, .add 0 "w(0.1", .clear]

/-- To clear forgives nothing: the next invalid script is the second since the walk, and the limit. -/
theorem refusals_counted_clearedWalk :
    let start : Queue × StandIn := ({ engine := { maxErrorCount := 2 } }, { attached := true })
    let state := performAll start clearedWalk
    (.stop ∉ clearedWalk ∧ state.1.errors = 1 ∧ state.2.calls = [.interruptAll]) ∧
      (state.1.add 0 "stop" state.2).1 = .error (.tooManyInvalid 2 (.reservedCommand "stop")) ∧
      ∃ errors, (state.1.add 0 "stop" state.2).2 = ({ state.1 with errors }, state.2) := by
  intro start state
  have open_ : .stop ∉ clearedWalk := by decide
  have strike : strikes start.1.engine.maxActionSeconds (clearedWalk ++ [.add 0 "stop"]) = 2 := by
    decide +kernel
  have hcheck : Script.check start.1.engine.maxActionSeconds "stop" =
      .error (.reservedCommand "stop") := by
    decide +kernel
  obtain ⟨-, -, adds⟩ := refusals_counted start.1.engine start.2 clearedWalk
  obtain ⟨-, -, answer, kept⟩ := adds 0 "stop"
  have limit : (state.1.add 0 "stop" state.2).1 =
      .error (.tooManyInvalid 2 (.reservedCommand "stop")) := by
    refine (answer open_ _ hcheck).trans ?_
    rw [strike]
    decide
  exact ⟨⟨open_, by decide +kernel, by decide +kernel⟩, limit, kept _ limit⟩

end Combo.Queue
