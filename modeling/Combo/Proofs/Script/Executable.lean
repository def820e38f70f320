-- SUMMARY: An accepted script can be carried out: its lengths are bounded, no action is invalid, every input is bound, and no piece has an unknown name.
import Combo.Proofs.Executor.Proper
import Combo.Proofs.Script.RoundTrip

/-!
# Accepted scripts can be carried out

The check looks at the parameter of an action as text, and so does the plan of
the action when it is run. `plan_ne_invalid` shows that the two agree, kind by
kind: a parameter with nothing wrong leads to a plan. The rest follows from what
the runs of proper plans do, and from the fact that an accepted script has no
unknown names.
-/

namespace Combo.Script

/-! ## What the check finds out -/

/-- In an accepted script no action has a fault. -/
theorem actionFault?_of_check {max : Float} {script : String} {groups : List Group}
    (h : check max script = .ok groups) {g : Group} (hg : g ∈ groups) {a : Action}
    (ha : a ∈ g.actions) : actionFault? max a = none := by
  obtain ⟨hread, hfault⟩ := read_of_check h
  have hmem : a ∈ (read script).actions := by
    rw [hread]
    exact List.mem_flatMap.2 ⟨g, hg, ha⟩
  unfold Reading.fault? at hfault
  split at hfault
  · cases hfault
  · split at hfault
    · cases hfault
    · exact List.findSome?_eq_none_iff.1 hfault a hmem

/-- An action without a fault has nothing wrong with its parameter or its length. -/
theorem actionFault?_eq_none {max : Float} {a : Action} (h : actionFault? max a = none) :
    parameterReason? a = none ∧ lengthFault? max a = none := by
  unfold actionFault? at h
  split at h
  · cases h
  · rename_i hreason
    exact ⟨hreason, h⟩

/-- A length without a fault is finite, not negative, and within the limit. -/
theorem lengthFault?_eq_none {max : Float} {a : Action} (h : lengthFault? max a = none) :
    a.seconds.isFinite = true ∧ ¬ a.seconds < 0.0 ∧ ¬ max < a.seconds := by
  unfold lengthFault? at h
  split at h
  · cases h
  · rename_i finite
    split at h
    · cases h
    · rename_i notNegative
      split at h
      · cases h
      · rename_i within
        exact ⟨by simpa using finite, notNegative, within⟩

/-- An accepted script has no unknown names. -/
theorem unknown?_of_check {max : Float} {script : String} {groups : List Group}
    (h : check max script = .ok groups) {piece : List Char}
    (hpiece : piece ∈ (pieces script.toList).flatten) : (Piece.ofText piece).unknown? = none := by
  have hunknown : (read script).unknown = [] := by rw [(read_of_check h).1]
  obtain ⟨group, hgroup, hmem⟩ := List.mem_flatten.1 hpiece
  have hnone : (group.map Piece.ofText).filterMap Piece.unknown? = [] :=
    List.flatMap_eq_nil_iff.1 hunknown _ (List.mem_map_of_mem hgroup)
  exact List.filterMap_eq_nil_iff.1 hnone _ (List.mem_map_of_mem hmem)

/-! ## Names -/

/-- A piece that matches the grammar and has no unknown name names a kind. -/
theorem isSome_ofToken? {piece name : List Char} {parameter : Option (List Char)}
    (hname : nameAndParameter? piece = some (name, parameter))
    (h : (Piece.ofText piece).unknown? = none) :
    (Kind.ofToken? (String.ofList (name.map Char.toLower))).isSome = true := by
  unfold Piece.ofText at h
  simp only [hname] at h
  split at h
  · rename_i kind hkind
    rw [hkind]
    rfl
  · cases h

/-- No kind has a reserved command as its token. -/
theorem ofToken?_of_mem_reservedCommands {name : String} (h : name ∈ reservedCommands) :
    Kind.ofToken? name = none := by
  have all : reservedCommands.all fun name => (Kind.ofToken? name).isNone := by decide
  exact Option.isNone_iff_eq_none.1 (List.all_eq_true.1 all name h)

/-! ## Plans -/

/-- An action with nothing wrong in its parameter has a plan. -/
theorem plan_ne_invalid {a : Action} (h : parameterReason? a = none) (attackMs : Nat) :
    a.plan attackMs ≠ .invalid := by
  unfold parameterReason? at h
  unfold Action.plan
  cases hkind : a.kind with
  | moveForward | moveLeft | moveBack | moveRight | charge | burst | jump | interact | altInteract
  | wait => simp
  | skill | dash =>
      simp only
      split <;> simp
  | switch =>
      simp only [hkind] at h ⊢
      cases hslot : a.switchSlot? with
      | none => simp [hslot] at h
      | some slot => simp
  | attack =>
      simp only [hkind, Action.attackPlan] at h ⊢
      split
      · simp
      · rename_i notHeld
        -- without a parameter an attack has the mode of a single press
        have mode : a.attackMode? ≠ none := by
          cases hparameter : a.parameter with
          | none => simp [Action.attackMode?, hkind, hparameter]
          | some p => simpa [hparameter, notHeld] using h
        obtain ⟨mode, hmode⟩ := Option.ne_none_iff_exists'.1 mode
        rw [hmode]
        cases mode <;> simp
  | moveBy =>
      simp only [hkind] at h ⊢
      cases hdelta : a.mouseDelta? with
      | none => simp [hdelta] at h
      | some delta => simp

/-! ## Accepted scripts -/

/--
Every action of an accepted script has a length that is finite, not negative and within the limit.
Under no driver, at no pace of attacks, and whenever it is cancelled does it end as one that cannot
be carried out, and all that it sends, also when it is dropped on the way, is on inputs with a key.
And no piece of the script that matches the grammar of an action has a reserved command or no kind
for its name, in any letter case.
-/
theorem accepted_executable {max : Float} {script : String} {groups : List Group}
    (h : check max script = .ok groups) :
    (∀ g ∈ groups, ∀ a ∈ g.actions,
      (a.seconds.isFinite = true ∧ ¬ a.seconds < 0.0 ∧ ¬ max < a.seconds) ∧
      ∀ attackMs now cancelled moves,
        let x := Solo.start a attackMs now cancelled
        (∀ text, (x.play moves).progress ≠
          .ended (.failed (ExecutionError.invalidAction text).message)) ∧
        ∀ command, (command ∈ (x.exchanges moves).map (·.2.1) ∨
            ∃ device response, (x.play moves).progress.drop device = some (command, response)) →
          ∀ input ∈ command.input?, ∀ names : KeyNames, input ∈ names.inputs ∧
            ∀ bindings, names.bindings = .ok bindings → ∃ key, bindings.resolve input = .ok key) ∧
    ∀ piece ∈ (pieces script.toList).flatten, ∀ name parameter,
      nameAndParameter? piece = some (name, parameter) →
        String.ofList (name.map Char.toLower) ∉ reservedCommands ∧
        (Kind.ofToken? (String.ofList (name.map Char.toLower))).isSome = true := by
  refine ⟨fun g hg a ha => ?_, fun piece hpiece name parameter hname => ?_⟩
  · obtain ⟨reason, length⟩ := actionFault?_eq_none (actionFault?_of_check h hg ha)
    refine ⟨lengthFault?_eq_none length, fun attackMs now cancelled moves => ?_⟩
    have plan : (a.plan attackMs).IsProper := Action.isProper_plan (plan_ne_invalid reason attackMs)
    obtain ⟨proper, sent⟩ :=
      Solo.isProper_play (x := Solo.start a attackMs now cancelled) plan trivial moves
    refine ⟨proper.ne_invalidAction, fun command hcommand input hinput names => ?_⟩
    have bound : command.IsBound := by
      rcases hcommand with hsent | ⟨device, response, hdrop⟩
      · obtain ⟨exchange, hexchange, rfl⟩ := List.mem_map.1 hsent
        exact sent exchange hexchange
      · exact proper.drop hdrop
    exact ⟨bound input hinput names, fun bindings => (bound input hinput).resolve⟩
  · have kind := isSome_ofToken? hname (unknown?_of_check h hpiece)
    refine ⟨fun reserved => ?_, kind⟩
    rw [ofToken?_of_mem_reservedCommands reserved] at kind
    cases kind

/-- A script with a signed slot and an empty parameter is accepted, so what it does is known. -/
theorem accepted_executable_signedSlot :
    let switch := Action.make .switch (some "+3")
    let attack := Action.make .attack none
    check 10.0 "SW(+3)&Attack( ),," = .ok [Group.of [switch, attack]] ∧
      ¬ (10.0 : Float) < attack.seconds ∧
      (∀ driver text, ((Solo.start switch 200 0 false).play [.poll driver]).progress ≠
        .ended (.failed (ExecutionError.invalidAction text).message)) ∧
      (Solo.start switch 200 0 false).exchanges [.poll fun _ => .done] =
        [(0, .press (.member 3), .done)] ∧
      (∀ names bindings, KeyNames.bindings names = .ok bindings →
        ∃ key, bindings.resolve (.member 3) = .ok key) ∧
      "sw" ∉ reservedCommands := by
  intro switch attack
  have checked : check 10.0 "SW(+3)&Attack( ),," = .ok [Group.of [switch, attack]] := by rfl
  have sent : (Solo.start switch 200 0 false).exchanges [.poll fun _ => .done] =
      [(0, .press (.member 3), .done)] := by decide +kernel
  obtain ⟨actions, names⟩ := accepted_executable checked
  have first := actions _ List.mem_cons_self switch List.mem_cons_self
  have second := actions _ List.mem_cons_self attack (List.mem_cons_of_mem _ List.mem_cons_self)
  refine ⟨checked, second.1.2.2, ?_, sent, ?_, ?_⟩
  · exact fun driver => (first.2 200 0 false [.poll driver]).1
  · intro k bindings hbindings
    have bound := (first.2 200 0 false [.poll fun _ => .done]).2 (.press (.member 3))
      (.inl (by rw [sent]; exact List.mem_cons_self)) (.member 3) rfl k
    exact bound.2 bindings hbindings
  · have lower : String.ofList ("SW".toList.map Char.toLower) = "sw" := by decide +kernel
    rw [← lower]
    exact (names "SW(+3)".toList (by decide +kernel) "SW".toList (some "+3".toList)
      (by decide +kernel)).1

end Combo.Script
