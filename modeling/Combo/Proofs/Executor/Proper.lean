-- SUMMARY: Proper actions: whatever the driver answers, they send commands on bound inputs only and never end as invalid.
import Combo.Config.Basic
import Combo.Proofs.Executor.Solo

/-!
# Proper actions

A plan is proper when it says what to do and holds or presses an input that has
a key. The run of a proper plan stays proper, under drivers that answer each
command as they like: what it sends is on inputs with a key, and when it fails,
it fails with an error of the driver and not because it cannot be carried out.
-/

namespace Combo

/-! ## Bound inputs -/

/-- The inputs that key names are given for. -/
def KeyNames.inputs (k : KeyNames) : List Input := k.table.map (·.1)

/-- The input a command is on; a move of the mouse is on none. -/
def Command.input? : Command → Option Input
  | .down input => some input
  | .up input => some input
  | .press input => some input
  | .move _ _ => none

/-- Whether an input has a name in every choice of key names. -/
def Input.IsBound (input : Input) : Prop := ∀ names : KeyNames, input ∈ names.inputs

/-- Whether the input of a command, if it has one, is bound. -/
def Command.IsBound (command : Command) : Prop := ∀ input ∈ command.input?, input.IsBound

/-- The same inputs have names whatever these are. -/
theorem KeyNames.inputs_eq (k k' : KeyNames) : k.inputs = k'.inputs := rfl

/-- An input is bound when it has a name in the default choice. -/
theorem Input.isBound_of_mem {input : Input} (h : input ∈ ({} : KeyNames).inputs) :
    input.IsBound := fun names => names.inputs_eq {} ▸ h

/-- To map each entry to one with the same first part leaves the first parts as they are. -/
theorem map_fst_of_mapM {ε α β γ : Type} {f : α × β → Except ε (α × γ)}
    (hf : ∀ x y, f x = .ok y → y.1 = x.1) {l : List (α × β)} {l' : List (α × γ)}
    (h : l.mapM f = .ok l') : l'.map (·.1) = l.map (·.1) := by
  induction l generalizing l' with
  | nil =>
      cases h
      rfl
  | cons x l ih =>
      simp only [List.mapM_cons, bind, Except.bind] at h
      cases hx : f x with
      | error e => simp [hx] at h
      | ok y =>
          cases hl : l.mapM f with
          | error e => simp [hx, hl] at h
          | ok rest =>
              simp only [hx, hl, pure, Except.pure, Except.ok.injEq] at h
              subst h
              rw [List.map_cons, List.map_cons, hf x y hx, ih hl]

theorem Command.isBound_of_input? {command : Command} {input : Input}
    (h : command.input? = some input) (bound : input.IsBound) : command.IsBound := by
  simpa [IsBound, h] using bound

theorem Command.isBound_move (dx dy : Int) : (Command.move dx dy).IsBound := by
  simp [IsBound, input?]

/-- Resolved key names are those of the inputs that have one. -/
theorem KeyNames.bindings_inputs {k : KeyNames} {b : Bindings} (h : k.bindings = .ok b) :
    b.table.map (·.1) = k.inputs := by
  simp only [bindings, bind, Except.bind] at h
  split at h
  · cases h
  · rename_i table htable
    cases h
    refine map_fst_of_mapM ?_ htable
    rintro ⟨input, name⟩ y hy
    cases hkey : Key.ofName name with
    | error e => simp [hkey] at hy
    | ok key =>
        simp only [hkey, pure, Except.pure, Except.ok.injEq] at hy
        exact hy ▸ rfl

/-- A bound input is resolved by all bindings that come of key names. -/
theorem Input.IsBound.resolve {input : Input} (bound : input.IsBound) {k : KeyNames} {b : Bindings}
    (h : k.bindings = .ok b) : ∃ key, b.resolve input = .ok key := by
  have mem : input ∈ b.table.map (·.1) := KeyNames.bindings_inputs h ▸ bound k
  obtain ⟨entry, hentry, rfl⟩ := List.mem_map.1 mem
  cases hlookup : b.table.lookup entry.1 with
  | none => exact absurd (List.lookup_eq_none_iff.1 hlookup entry hentry) (by simp)
  | some key => exact ⟨key, by simp [Bindings.resolve, hlookup]⟩

/-! ## Plans -/

/-- Whether a plan says what to do, and on which bound input. -/
def Plan.IsProper : Plan → Prop
  | .hold input _ => input.IsBound
  | .press input => input.IsBound
  | .repeatPress _ | .pause _ | .move _ _ => True
  | .invalid => False

theorem Action.switchSlot?_eq_some {a : Action} {slot : Nat} (h : a.switchSlot? = some slot) :
    1 ≤ slot ∧ slot ≤ 4 := by
  have := (Option.filter_eq_some_iff.1 h).2
  simpa using this

theorem Input.isBound_member {slot : Nat} (low : 1 ≤ slot) (high : slot ≤ 4) :
    (Input.member slot).IsBound := by
  obtain rfl | rfl | rfl | rfl : slot = 1 ∨ slot = 2 ∨ slot = 3 ∨ slot = 4 := by omega
  all_goals exact isBound_of_mem (by decide)

theorem Input.isBound_attack : Input.attack.IsBound := isBound_of_mem (by decide)

/-- A plan that says what to do is on bound inputs. -/
theorem Action.isProper_plan {a : Action} {attackMs : Nat} (h : a.plan attackMs ≠ .invalid) :
    (a.plan attackMs).IsProper := by
  unfold plan at h ⊢
  cases hkind : a.kind with
  | moveForward | moveLeft | moveBack | moveRight | charge =>
      exact Input.isBound_of_mem (by decide)
  | burst | jump | interact | altInteract => exact Input.isBound_of_mem (by decide)
  | skill | dash =>
      simp only
      split <;> exact Input.isBound_of_mem (by decide)
  | wait => trivial
  | switch =>
      simp only [hkind] at h ⊢
      split at h
      · rename_i slot hslot
        obtain ⟨low, high⟩ := switchSlot?_eq_some hslot
        exact Input.isBound_member low high
      · exact absurd rfl h
  | attack =>
      simp only [hkind, attackPlan] at h ⊢
      split
      · exact Input.isBound_attack
      · cases hmode : a.attackMode? with
        | none => simp_all
        | some mode => cases mode <;> trivial
  | moveBy =>
      simp only [hkind] at h ⊢
      split at h
      · trivial
      · exact absurd rfl h

/-! ## Polls -/

/-- Whether an action holds a bound input, if any, and has not failed for its parameter. -/
def Progress.IsProper : Progress → Prop
  | .holding input _ => input.IsBound
  | .ended (.failed message) => ∀ text, message ≠ (ExecutionError.invalidAction text).message
  | .ended .completed | .ended .cancelled | .queued | .ready | .pressing _ _ | .pausing _ => True

/-- Whether an intent is on bound inputs and goes on properly. -/
def Intent.IsProper : Intent → Prop
  | .silent next => next.IsProper
  | .send command next => command.IsBound ∧ next.IsProper

/-- Texts that begin differently are different. -/
theorem append_ne_append {s s' t t' : String} (n : Nat) (hs : n ≤ s.toList.length)
    (hs' : n ≤ s'.toList.length) (h : s.toList.take n ≠ s'.toList.take n) :
    s ++ t ≠ s' ++ t' := by
  intro heq
  have starts := congrArg (fun s => s.toList.take n) heq
  simp only [String.toList_append, List.take_append_of_le_length hs,
    List.take_append_of_le_length hs'] at starts
  exact h starts

/-- No other error reads like that of an action that cannot be carried out. -/
theorem ExecutionError.message_ne_invalidAction {e : ExecutionError}
    (h : ∀ text, e ≠ .invalidAction text) (text : String) :
    e.message ≠ (ExecutionError.invalidAction text).message := by
  have invalid : (ExecutionError.invalidAction text).message =
      "Cannot execute " ++ (text ++ ": invalid parameter") := String.append_assoc
  rw [invalid]
  cases e with
  | invalidAction given =>
      exfalso
      exact h given rfl
  | input error => exact append_ne_append 4 (by simp) (by simp) (by simp)
  | focus error => exact append_ne_append 4 (by simp) (by simp) (by simp)
  | aborted detail => exact append_ne_append 4 (by simp) (by simp) (by simp)

/-- An action that stays proper never fails as one that cannot be carried out. -/
theorem Progress.IsProper.ne_invalidAction {p : Progress} (h : p.IsProper) (text : String) :
    p ≠ .ended (.failed (ExecutionError.invalidAction text).message) := by
  rintro rfl
  exact h text rfl

/-- When a proper action is dropped, what is let up is a bound input. -/
theorem Progress.IsProper.drop {p : Progress} (h : p.IsProper) {device : Device}
    {exchange : Exchange} (hdrop : p.drop device = some exchange) : exchange.1.IsBound := by
  cases p with
  | holding input due =>
      cases hdrop
      exact Command.isBound_of_input? rfl h
  | queued | ready | pressing | pausing | ended => cases hdrop

/-- The first poll of a proper plan is proper. -/
theorem Plan.IsProper.intent {plan : Plan} (h : plan.IsProper) (attackMs now : Nat)
    (action : Action) : (plan.intent attackMs now action).IsProper := by
  cases plan with
  | hold input ms => exact ⟨Command.isBound_of_input? rfl h, h⟩
  | press input => exact ⟨Command.isBound_of_input? rfl h, trivial⟩
  | repeatPress presses =>
      cases presses with
      | zero => trivial
      | succ left => exact ⟨Command.isBound_of_input? rfl Input.isBound_attack, trivial⟩
  | pause ms => trivial
  | move dx dy => exact ⟨Command.isBound_move dx dy, trivial⟩
  | invalid => exact h.elim

/-- What an action with a proper plan is about to do is proper. -/
theorem Progress.IsProper.intent {p : Progress} (h : p.IsProper) {action : Action} {attackMs : Nat}
    (plan : (action.plan attackMs).IsProper) (now : Nat) (cancelled : Bool) :
    (p.intent attackMs now action cancelled).IsProper := by
  cases p with
  | queued | ended ending => exact h
  | ready =>
      cases cancelled with
      | true => trivial
      | false => exact plan.intent attackMs now action
  | holding input due =>
      have release : (Command.up input).IsBound := Command.isBound_of_input? rfl h
      simp only [Progress.intent]
      split
      · exact ⟨release, trivial⟩
      · split
        · exact ⟨release, trivial⟩
        · exact h
  | pressing left due =>
      simp only [Progress.intent]
      split
      · trivial
      · split
        · cases left with
          | zero => trivial
          | succ left => exact ⟨Command.isBound_of_input? rfl Input.isBound_attack, trivial⟩
        · exact h
  | pausing due =>
      simp only [Progress.intent]
      split
      · trivial
      · split
        · trivial
        · exact h

/-- No answer of a driver makes a proper intent end as one that cannot be carried out. -/
theorem Intent.IsProper.settle {i : Intent} (h : i.IsProper) (driver : Command → Response) :
    (i.settle driver).1.IsProper ∧ ∀ exchange ∈ (i.settle driver).2, exchange.1.IsBound := by
  cases i with
  | silent next => exact ⟨h, by simp [Intent.settle]⟩
  | send command next =>
      refine ⟨?_, by simpa [Intent.settle] using h.1⟩
      simp only [Intent.settle]
      cases driver command with
      | done => exact h.2
      | refused e => exact ExecutionError.message_ne_invalidAction (by simp)
      | crashed => exact ExecutionError.message_ne_invalidAction (by simp [ExecutionError.crash])

/-! ## Runs -/

namespace Solo

/-- A move of an action with a proper plan keeps it proper and sends on bound inputs only. -/
theorem isProper_move {x : Solo} (plan : (x.action.plan x.attackMs).IsProper)
    (h : x.progress.IsProper) (m : Move) :
    (x.move m).progress.IsProper ∧ ∀ sent ∈ x.sent m, sent.2.1.IsBound := by
  cases m with
  | cancel => exact ⟨h, by simp [sent]⟩
  | tick =>
      refine ⟨?_, by simp [sent]⟩
      simp only [move]
      split <;> exact h
  | poll driver =>
      obtain ⟨next, bound⟩ := (h.intent plan x.now x.cancelled).settle driver
      simp only [move, sent]
      split
      · refine ⟨next, fun pair hpair => ?_⟩
        obtain ⟨exchange, hexchange, rfl⟩ := Option.map_eq_some_iff.1 (Option.mem_toList.1 hpair)
        exact bound exchange hexchange
      · exact ⟨h, by simp⟩

/-- The run of an action with a proper plan stays proper and sends on bound inputs only. -/
theorem isProper_play {x : Solo} (plan : (x.action.plan x.attackMs).IsProper)
    (h : x.progress.IsProper) (moves : List Move) :
    (x.play moves).progress.IsProper ∧ ∀ sent ∈ x.exchanges moves, sent.2.1.IsBound := by
  induction moves generalizing x with
  | nil => exact ⟨h, by simp [exchanges]⟩
  | cons m moves ih =>
      obtain ⟨next, bound⟩ := isProper_move plan h m
      obtain ⟨last, rest⟩ := ih (by simpa using plan) next
      refine ⟨last, fun sent hsent => ?_⟩
      rcases List.mem_append.1 hsent with hsent | hsent
      · exact bound sent hsent
      · exact rest sent hsent

end Solo

end Combo
