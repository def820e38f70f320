-- SUMMARY: The register of tokens: whatever is dispatched and layered, no token is put in the place of another one.
import Mathlib.Data.List.AList
import Combo.Proofs.Clockwork.Listing

/-!
# The register of tokens

An action is cancelled by its token, and the register is the map that has the
tokens under the keys of the actions. To insert a token would replace what is under
the same key, and the token of another action would be lost. Dispatch and layering
search for a free key first, so nothing is replaced (`Register.acceptAll`).

`Run.register` is the register that a list of entries comes to. Dispatch and layering
insert into it one token after another, and it has just the tokens of the listed
entries under their keys (`Run.lookup_register`). So from one turn to the next a
token stays until its action is cancelled or the run is over.
-/

namespace Combo

/-- The map from the keys of actions to their tokens, which are told by the positions of the actions. -/
abbrev Register := AList fun _ : String => Nat

namespace Register

/-- Inserts the token of an action under the first free key. A token that was there would be replaced. -/
def accept (register : Register) (a : Action) (position : Nat) : Register :=
  register.insert (freshKey register.keys a.key) position

/-- Inserts the tokens of actions one after another. -/
def acceptAll (register : Register) (actions : List (Action × Nat)) : Register :=
  actions.foldl (fun register (a, position) => register.accept a position) register

variable (register : Register)

theorem freshKey_not_mem_keys (base : String) : freshKey register.keys base ∉ register :=
  freshKey_not_mem register.keys base

/-- To accept an action takes one more key, and no other is affected. -/
theorem keys_accept (a : Action) (position : Nat) :
    (register.accept a position).keys = freshKey register.keys a.key :: register.keys := by
  rw [accept, AList.keys_insert, List.erase_of_not_mem (freshKey_not_mem _ _)]

variable {register} {key : String} {position : Nat}

/-- A token stays under its key when an action is accepted. -/
theorem lookup_accept (h : register.lookup key = some position) (a : Action) (position' : Nat) :
    (register.accept a position').lookup key = some position := by
  have other : key ≠ freshKey register.keys a.key := by
    rintro rfl
    refine register.freshKey_not_mem_keys a.key (AList.lookup_isSome.1 ?_)
    rw [h]
    rfl
  rw [accept, AList.lookup_insert_ne other, h]

/-- A token stays under its key when actions are accepted. -/
theorem lookup_acceptAll (actions : List (Action × Nat)) (h : register.lookup key = some position) :
    (register.acceptAll actions).lookup key = some position := by
  induction actions generalizing register with
  | nil => exact h
  | cons p actions ih => exact ih (lookup_accept h p.1 p.2)

/-- The register has a key for each action that is accepted. -/
theorem length_acceptAll (register : Register) (actions : List (Action × Nat)) :
    (register.acceptAll actions).keys.length = register.keys.length + actions.length := by
  induction actions generalizing register with
  | nil => rfl
  | cons p actions ih =>
      have rest := ih (register.accept p.1 p.2)
      rw [keys_accept, List.length_cons] at rest
      rw [List.length_cons, Nat.add_comm actions.length, ← Nat.add_assoc]
      exact rest

/-- The token of each action that is accepted is under some key. -/
theorem exists_lookup_acceptAll (register : Register) (actions : List (Action × Nat)) :
    ∀ p ∈ actions, ∃ key, (register.acceptAll actions).lookup key = some p.2 := by
  induction actions generalizing register with
  | nil => simp
  | cons p actions ih =>
      intro p' hp'
      rcases List.mem_cons.1 hp' with rfl | hp'
      · -- what is accepted after it leaves its token where it is
        exact ⟨_, lookup_acceptAll actions (AList.lookup_insert register)⟩
      · exact ih _ p' hp'

end Register

/-! ## Runs -/

/-- As many actions are inserted with their positions as are not hit. -/
theorem Deferred.length_unhit (d : Deferred) (actions : List Action) :
    (actions.zipIdx.filter fun p => !d.hits p.1).length = actions.countP fun a => !d.hits a := by
  calc (actions.zipIdx.filter fun p => !d.hits p.1).length
      = actions.zipIdx.countP ((fun a => !d.hits a) ∘ Prod.fst) := List.countP_eq_length_filter.symm
    _ = (actions.zipIdx.map Prod.fst).countP fun a => !d.hits a := List.countP_map.symm
    _ = actions.countP fun a => !d.hits a := by rw [List.zipIdx_map_fst]

namespace Run

/-- The register that entries come to when the token of each that is listed is inserted under its key. -/
def register (entries : List Entry) : Register :=
  entries.zipIdx.foldl
    (fun register (e, position) => if e.cancelled then register else register.insert e.key position) ∅

theorem register_append_singleton (entries : List Entry) (e : Entry) :
    register (entries ++ [e]) =
      if e.cancelled then register entries else (register entries).insert e.key entries.length := by
  simp [register, List.zipIdx_append, List.foldl_append]

theorem keysOf_append_singleton (entries : List Entry) (e : Entry) :
    keysOf (entries ++ [e]) = keysOf entries ++ if e.cancelled then [] else [e.key] := by
  cases hc : e.cancelled <;> simp [keysOf, listed, hc]

/-- The register has the keys of the listed entries. -/
theorem mem_register (entries : List Entry) (key : String) :
    key ∈ register entries ↔ key ∈ keysOf entries := by
  induction entries using List.reverseRecOn with
  | nil => simp [register, keysOf, listed]
  | append_singleton entries e ih =>
      rw [register_append_singleton, keysOf_append_singleton]
      cases e.cancelled with
      | true => simpa using ih
      | false => simp [ih, or_comm]

/-- If the keys are apart nothing is replaced: the register has the tokens of all listed entries, the last first. -/
theorem entries_register {entries : List Entry} (apart : (keysOf entries).Nodup) :
    (register entries).entries =
      ((entries.zipIdx.filter fun p => !p.1.cancelled).map fun p => ⟨p.1.key, p.2⟩).reverse := by
  induction entries using List.reverseRecOn with
  | nil => rfl
  | append_singleton entries e ih =>
      rw [register_append_singleton, List.zipIdx_append, List.filter_append, List.map_append,
        List.reverse_append]
      rw [keysOf_append_singleton] at apart
      obtain ⟨before, -, fresh⟩ := List.nodup_append.1 apart
      cases hc : e.cancelled with
      | true =>
          rw [if_pos rfl, ih before]
          simp [hc]
      | false =>
          have free : e.key ∉ register entries := by
            rw [mem_register]
            exact fun h => fresh e.key h e.key (by simp [hc]) rfl
          rw [if_neg Bool.false_ne_true, AList.entries_insert_of_notMem free, ih before]
          simp [hc]

/-- The register has under each key the position of the entry that is listed there, and nothing else. -/
theorem lookup_register {entries : List Entry} (apart : (keysOf entries).Nodup) (key : String)
    (position : Nat) : (register entries).lookup key = some position ↔
      ∃ e, entries[position]? = some e ∧ e.cancelled = false ∧ e.key = key := by
  rw [← Option.mem_def, AList.mem_lookup_iff, entries_register apart, List.mem_reverse]
  constructor
  · intro h
    obtain ⟨⟨e, i⟩, he, heq⟩ := List.mem_map.1 h
    obtain ⟨hmem, live⟩ := List.mem_filter.1 he
    cases heq
    exact ⟨e, List.mem_zipIdx_iff_getElem?.1 hmem, by simpa using live, rfl⟩
  · rintro ⟨e, he, live, rfl⟩
    refine List.mem_map.2 ⟨(e, position), List.mem_filter.2 ⟨?_, by simp [live]⟩, rfl⟩
    exact List.mem_zipIdx_iff_getElem?.2 he

theorem keys_register_perm {entries : List Entry} (apart : (keysOf entries).Nodup) :
    (register entries).keys.Perm (keysOf entries) :=
  (List.perm_ext_iff_of_nodup (AList.keys_nodup _) apart).2 (mem_register entries)

/-- An action that is skipped has no token in the register. -/
theorem register_skip (entries : List Entry) (a : Action) :
    register (skip entries a) = register entries := by
  rw [skip, register_append_singleton, if_pos rfl]

/-- An action that is enlisted is accepted by the register. -/
theorem register_enlist (entries : List Entry) (a : Action) :
    register (enlist entries a) = (register entries).accept a entries.length := by
  rw [enlist, register_append_singleton, if_neg Bool.false_ne_true, Register.accept,
    freshKey_congr fun key => (mem_register entries key).symm]

/-- Of a row of actions the register accepts those that are not skipped, one after another. -/
theorem register_foldl (skipped : Action → Bool) (actions : List Action) (entries : List Entry) :
    register (actions.foldl
        (fun entries a => if skipped a then skip entries a else enlist entries a) entries) =
      (register entries).acceptAll
        ((actions.zipIdx entries.length).filter fun p => !skipped p.1) := by
  induction actions generalizing entries with
  | nil => rfl
  | cons a actions ih =>
      rw [List.foldl_cons, ih, List.zipIdx_cons]
      by_cases hit : skipped a = true
      · have length : (skip entries a).length = entries.length + 1 := by simp [skip]
        rw [if_pos hit, register_skip, length, List.filter_cons_of_neg (by simp [hit])]
      · have length : (enlist entries a).length = entries.length + 1 := by simp [enlist]
        rw [if_neg hit, register_enlist, length, List.filter_cons_of_pos (by simpa using hit)]
        rfl

theorem register_dispatch (requireFocus : Bool) (d : Deferred) (t : Ticket) :
    register (dispatch requireFocus d t).entries =
      Register.acceptAll ∅ (t.group.actions.zipIdx.filter fun p => !d.hits p.1) :=
  register_foldl d.hits t.group.actions []

theorem register_layer (r : Run) (actions : List Action) :
    register (r.layer actions).entries =
      (register r.entries).acceptAll (actions.zipIdx r.entries.length) := by
  simpa [layer] using register_foldl (fun _ => false) actions r.entries

end Run

/-! ## Executors -/

/-- The register of an executor. -/
def Executor.register (x : Executor) : Register := Run.register x.entries

namespace Clockwork

variable {φ : Type} [Feed φ] {s s' : Clockwork φ} {es : List Event}

/-- In a turn a token stays where it is, unless its action is cancelled or the run is over. -/
theorem Turn.lookup_register (turn : Turn s es s') (apart : s.executor.keys.Nodup) {key : String}
    {position : Nat} (h : s.executor.register.lookup key = some position) :
    s'.executor.register.lookup key = some position ∨
      (∃ e, s'.executor.entries[position]? = some e ∧ e.cancelled = true) ∨
      s'.executor.run? = none := by
  have apart' := turn.nodup_keys apart
  rw [Executor.keys_eq] at apart apart'
  obtain ⟨e, he, live, rfl⟩ := (Run.lookup_register apart key position).1 h
  obtain ⟨run, before, -⟩ := Executor.exists_run_of_mem (List.mem_of_getElem? he)
  obtain ⟨step, running⟩ := exists_isRunning before
  -- the run goes on, or the turn ends with its report, or it is lost with the worker
  rcases turn.proceeds running with ⟨step', run', ⟨b, hw⟩, proceeds⟩ | ⟨-, ⟨b, faulty, hw⟩, -⟩ | ⟨-, gone⟩
  · have entries : s.executor.entries = run.entries := by rw [Executor.entries, before]
    have entries' : s'.executor.entries = run'.entries := Executor.entries_of_some hw
    rw [entries] at he
    obtain ⟨e', he', change⟩ := proceeds.change.kept position e he
    rw [← entries'] at he'
    cases hc : e'.cancelled with
    | true => exact .inr (.inl ⟨e', he', hc⟩)
    | false =>
        exact .inl ((Run.lookup_register apart' _ _).2 ⟨e', he', hc, change.evolves.key⟩)
  · exact .inr (.inr (Executor.run?_of_some hw))
  · exact .inr (.inr (Executor.run?_of_none gone))

/-- With its next step a worker that holds a group inserts the tokens of the actions that are not hit. -/
theorem register_of_taken {b : Bool} {t : Ticket} {d : Deferred}
    (hw : s.executor.worker = some ⟨b, .taken t d⟩) :
    s.executor.register = ∅ ∧ (s.move .work).executor.register =
      Register.acceptAll ∅ (t.group.actions.zipIdx.filter fun p => !d.hits p.1) := by
  obtain ⟨b', hw'⟩ := isRunning_of_taken hw
  rw [Executor.register, Executor.entries_of_some hw, Executor.register, Executor.entries_of_some hw']
  exact ⟨rfl, Run.register_dispatch _ d t⟩

/--
The search for a free key ends for every register and every action, with the fresh key, which is not in the
register, and after no more suffixes than the register has keys. So actions that are accepted one after
another take a key each and leave every token where it is.

At any moment of any play the register has just the tokens of the listed actions, each under its key. A
worker that dispatches a group, and whoever layers one, inserts token after token in this way:
after dispatch the register has as many keys as there are actions that were not hit, and after layering it
has one more for each layered action. And whatever the next move is, a token stays where it is
unless its action is cancelled or the run is over.
-/
theorem tokens_never_replaced (feed : φ) (engine : Engine) (target : Target) (device : Device)
    (focus : Focus) (moves : List Move) :
    (∀ (register : Register) (a : Action), freshKey register.keys a.key ∉ register ∧
      ∃ n ≤ register.keys.length, ∀ found m, Search register.keys a.key a.key 1 found m ↔
        found = freshKey register.keys a.key ∧ m = n + 1) ∧
    (∀ (register : Register) (actions : List (Action × Nat)),
      (register.acceptAll actions).keys.length = register.keys.length + actions.length ∧
      (∀ key position, register.lookup key = some position →
        (register.acceptAll actions).lookup key = some position) ∧
      ∀ p ∈ actions, ∃ key, (register.acceptAll actions).lookup key = some p.2) ∧
    let s := (new feed engine target device focus).play moves
    let x := s.executor
    x.register.keys.Perm x.keys ∧
    (∀ key position, x.register.lookup key = some position ↔
      ∃ e, x.entries[position]? = some e ∧ e.cancelled = false ∧ e.key = key) ∧
    (∀ b t d, x.worker = some ⟨b, .taken t d⟩ →
      let x' := (s.move .work).executor
      x'.register =
        x.register.acceptAll (t.group.actions.zipIdx.filter fun p => !d.hits p.1) ∧
      x'.register.keys.length = t.group.actions.countP fun a => !d.hits a) ∧
    (∀ g, (x.layer g).2 = true →
      let x' := (x.layer g).1
      x'.register = x.register.acceptAll (g.actions.zipIdx x.entries.length) ∧
      x'.register.keys.length = x.register.keys.length + g.actions.length) ∧
    ∀ m key position, x.register.lookup key = some position →
      let x' := (s.move m).executor
      x'.register.lookup key = some position ∨
        (∃ e, x'.entries[position]? = some e ∧ e.cancelled = true) ∨ x'.run? = none := by
  refine ⟨fun register a => ⟨freshKey_not_mem _ _, search_iff _ _⟩, fun register actions => ?_, ?_⟩
  · exact ⟨register.length_acceptAll actions, fun _ _ h => Register.lookup_acceptAll actions h,
      register.exists_lookup_acceptAll actions⟩
  · intro s x
    have keys_apart : x.keys.Nodup := nodup_keys_play feed engine target device focus moves
    have apart : (Run.keysOf x.entries).Nodup := x.keys_eq ▸ keys_apart
    refine ⟨x.keys_eq ▸ Run.keys_register_perm apart, Run.lookup_register apart, ?_, ?_, ?_⟩
    · intro b t d hw
      obtain ⟨empty, dispatched⟩ := register_of_taken hw
      refine ⟨by rw [empty, dispatched], ?_⟩
      rw [dispatched, Register.length_acceptAll, AList.keys_empty, List.length_nil, Nat.zero_add,
        d.length_unhit]
    · intro g accepted
      rcases Executor.layer_cases g x with ⟨b, run, hw, -, -, heq⟩ | refused
      · have layered : (x.layer g).1.register = x.register.acceptAll (g.actions.zipIdx x.entries.length) := by
          rw [heq, Executor.register, Executor.entries_of_some rfl, Executor.register,
            Executor.entries_of_some hw]
          exact Run.register_layer run g.actions
        refine ⟨layered, ?_⟩
        rw [layered, Register.length_acceptAll, List.length_zipIdx]
      · rw [refused] at accepted
        cases accepted
    · exact fun m key position h => (turn_move m).lookup_register keys_apart h

/-- Three skills, of which the second has the key that the third would get next. -/
def numberedSkills : Ticket :=
  ⟨4, ⟨[⟨.skill, some "1", 1.0⟩, ⟨.skill, some "1#1", 0.0⟩, ⟨.skill, some "1", 1.0⟩], 1.0⟩⟩

/-- Two more skills whose keys are taken. -/
def moreSkills : Group := ⟨[⟨.skill, some "1", 1.0⟩, ⟨.skill, some "1#1", 0.0⟩], 1.0⟩

/-- Keys that look like numbered ones are passed over, and each of the five actions keeps its own token. -/
theorem tokens_never_replaced_numberedSkills :
    let feed : Supply := { pending := [numberedSkills] }
    let taken := (new feed {} {} {} {}).play [.start, .work, .work]
    let s := (new feed {} {} {} {}).play [.start, .work, .work, .work, .work, .work]
    let layered := (s.executor.layer moreSkills).1
    taken.executor.worker = some ⟨false, .taken numberedSkills {}⟩ ∧
      (taken.move .work).executor.register.keys.length = 3 ∧
      s.executor.keys = ["e_1", "e_1#1", "e_1#2"] ∧ s.executor.register.lookup "e_1#2" = some 2 ∧
      (s.executor.layer moreSkills).2 = true ∧
      layered.keys = ["e_1", "e_1#1", "e_1#2", "e_1#3", "e_1#1#1"] ∧
      layered.register.keys.length = 5 ∧
      (s.move (.poll 1)).executor.register.lookup "e_1#2" = some 2 := by
  intro feed taken s layered
  obtain ⟨-, -, -, -, dispatched, -, -⟩ :=
    tokens_never_replaced feed {} {} {} {} [.start, .work, .work]
  obtain ⟨-, -, listed, entry_iff, -, accepted, stays⟩ :=
    tokens_never_replaced feed {} {} {} {} [.start, .work, .work, .work, .work, .work]
  have hw : taken.executor.worker = some ⟨false, .taken numberedSkills {}⟩ := rfl
  have keys : s.executor.keys = ["e_1", "e_1#1", "e_1#2"] := by decide +kernel
  have third : s.executor.register.lookup "e_1#2" = some 2 := by
    have entry : s.executor.entries[2]?.map (fun e => (e.cancelled, e.key)) = some (false, "e_1#2") := by
      decide +kernel
    obtain ⟨e, he, shape⟩ := Option.map_eq_some_iff.1 entry
    exact (entry_iff _ _).2 ⟨e, he, congrArg Prod.fst shape, congrArg Prod.snd shape⟩
  have accepts : (s.executor.layer moreSkills).2 = true := by decide +kernel
  have all : layered.register.keys.length = 5 := by
    rw [(accepted moreSkills accepts).2, listed.length_eq, keys]
    rfl
  have third' : (s.move (.poll 1)).executor.register.lookup "e_1#2" = some 2 := by
    rcases stays (.poll 1) _ _ third with kept | ⟨e, he, cancelled⟩ | gone
    · exact kept
    · have live : ((s.move (.poll 1)).executor.entries[2]?.map Entry.cancelled) = some false := by
        decide +kernel
      rw [he, Option.map_some, cancelled] at live
      cases live
    · have running : (s.move (.poll 1)).executor.run?.isSome = true := by decide +kernel
      rw [gone] at running
      cases running
  exact ⟨hw, (dispatched _ _ _ hw).2, keys, third, accepts, by decide +kernel, all, third'⟩

end Clockwork

end Combo
