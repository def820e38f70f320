-- SUMMARY: What is listed of the actions of a crew: keys that are never shared, what interrupts count of them, and whose keys they are.
import Combo.Proofs.Clockwork.Listing
import Combo.Proofs.Crew.Course

/-!
# The account of the listed actions

Whatever the workers of a crew do to each other, no two listed actions share a key, and an interrupt counts what
it takes off the list. With one worker at a time the list is that of the actions of its run that were not
cancelled; so the actions that ended by themselves linger there, and an interrupt counts them as well. With two
workers the list may be cleared by one of them under the run of the other.
-/

namespace Combo

/-! ## Keys -/

namespace Listing

variable {worker : Nat} {cancelled : Bool} {lists : List Entry × List Listing}

theorem nodup_enlist (h : (lists.2.map (·.key)).Nodup) (a : Action) :
    ((enlist worker cancelled lists a).2.map (·.key)).Nodup := by
  simp only [enlist, List.map_append, List.map_cons, List.map_nil]
  rw [← List.concat_eq_append]
  exact h.concat (freshKey_not_mem _ _)

theorem nodup_accept {d : Deferred} (h : (lists.2.map (·.key)).Nodup) (a : Action) :
    ((accept d worker cancelled lists a).2.map (·.key)).Nodup := by
  unfold accept
  split
  · exact h
  · exact nodup_enlist h a

theorem nodup_foldl {f : List Entry × List Listing → Action → List Entry × List Listing}
    (hf : ∀ lists a, (lists.2.map (·.key)).Nodup → ((f lists a).2.map (·.key)).Nodup) (actions : List Action)
    (h : (lists.2.map (·.key)).Nodup) : ((actions.foldl f lists).2.map (·.key)).Nodup := by
  induction actions generalizing lists with
  | nil => exact h
  | cons a actions ih => exact ih (hf lists a h)

end Listing

namespace Crew

variable {φ : Type} {c : Crew φ}

theorem nodup_keys_interruptConflicting (h : c.keys.Nodup) (g : Group) :
    (c.interruptConflicting g).1.keys.Nodup := by
  simp only [interruptConflicting]
  split
  · exact h
  · exact h.sublist (List.filter_sublist.map _)

theorem nodup_keys_layer (h : c.keys.Nodup) (g : Group) : (c.layer g).1.keys.Nodup := by
  simp only [layer]
  (repeat' split) <;>
    first
    | exact h
    | exact Listing.nodup_foldl (fun lists a hl => Listing.nodup_enlist hl a) g.actions h

variable [Feed φ]

theorem nodup_keys_work (h : c.keys.Nodup) (worker : Nat) : (c.work worker).keys.Nodup := by
  unfold work
  split
  · exact h
  · rename_i m _
    split
    · split
      · simp only [beginRound]
        split <;> exact h
      · simp only [ask]
        split <;> exact h
      · exact Listing.nodup_foldl (fun lists a hl => Listing.nodup_accept hl a) _ h
      · rename_i step run ledger _
        cases step with
        | closing fault => exact List.nodup_nil
        | _ =>
          simp only [stepRun, seeToFocus, wait, close]
          (repeat' split) <;> exact h
      · exact h
      · simp only [beginRound]
        split <;> exact h
      · exact h
      · exact h
    · exact h

/-- No move makes two listed actions share a key. -/
theorem nodup_keys_move (h : c.keys.Nodup) (mv : Move) : (c.move mv).keys.Nodup := by
  cases mv with
  | work worker => exact nodup_keys_work h worker
  | request r =>
    cases r with
    | interruptAll => exact List.nodup_nil
    | interruptConflicting g => exact nodup_keys_interruptConflicting h g
    | layer g => exact nodup_keys_layer h g
  | stop =>
    simp only [move, stop]
    split
    · exact h
    · exact List.nodup_nil
  | setFocus | setDevice => exact h
  | _ =>
    simp only [move, start, closeLate, poll, join, notice, giveUp, abort, letGo, tick, close]
    (repeat' split) <;> exact h

theorem nodup_keys_play (h : c.keys.Nodup) (moves : List Move) : (c.play moves).keys.Nodup := by
  induction moves generalizing c with
  | nil => exact h
  | cons mv moves ih => exact ih (nodup_keys_move h mv)

omit [Feed φ] in
/-- An interrupt by a group counts what it takes off the list. -/
theorem interruptConflicting_keys (c : Crew φ) (g : Group) :
    (c.interruptConflicting g).1.keys.Sublist c.keys ∧
      (c.interruptConflicting g).2 + (c.interruptConflicting g).1.keys.length = c.keys.length := by
  simp only [interruptConflicting]
  split
  · exact ⟨.refl _, Nat.zero_add _⟩
  · refine ⟨List.filter_sublist.map _, ?_⟩
    simp only [keys, List.length_map]
    exact (List.length_eq_length_filter_add _).symm

/-! ## Entries -/

omit [Feed φ] in
/-- The actions of the runs of all workers, as far as they have come. -/
def entries (c : Crew φ) : List Entry :=
  c.members.flatMap fun m =>
    match m.post with
    | .running _ run _ => run.entries
    | _ => []

/-- The number of actions that were unfinished in one crew and are cancelled in another. -/
def turned (c c' : Crew φ) : Nat := (c.entries.zip c'.entries).countP fun (e, e') => e.isUnfinished && e'.cancelled

omit [Feed φ] in
/-- With one worker at a time the actions are those of the worker that is seen. -/
theorem Lone.entries {sent : List Sent} (lone : (c.trim sent).Lone) : c.entries = c.single.executor.entries := by
  have idle {old : List Member} (gone : ∀ m ∈ old, m.post = .gone) :
      (old.flatMap fun m : Member =>
        match m.post with
        | .running _ run _ => run.entries
        | _ => []) = [] :=
    List.flatMap_eq_nil_iff.2 fun m hm => by rw [gone m hm]
  cases lone with
  | none gone =>
    have gone : ∀ m ∈ c.members, m.post = .gone := gone
    rw [Crew.entries, idle gone, single_of_gone gone]
    rfl
  | @one old m members gone =>
    have members : c.members = old ++ [m] := members
    rw [Crew.entries, members, List.flatMap_append, idle gone, ← seat_self members, single_seat gone]
    obtain ⟨b, k, post⟩ := m
    cases post <;> simp [Executor.entries, Executor.run?, Member.worker?, Post.stage?]

/-- With one worker at a time only what was cancelled is shown to have been. -/
theorem keeps_isHonest : Keeps (φ := φ) (fun _ s => s.IsHonest) True where
  blind := fun _ honest => honest
  move := fun honest _ _ => (Clockwork.turn_move _).isHonest honest
  giveUp := fun {_ _ _ _ run} ledger _ _ coherent cancelled e he _ =>
    coherent_giveUp coherent cancelled ledger cancelled e he
  abort := fun _ _ e he => by cases he

theorem honest_play (feed : φ) (engine : Engine) (target : Target) (device : Device) (focus : Focus)
    (moves : List Move) (successive : (new feed engine target device focus).Successive moves) :
    ((new feed engine target device focus).play moves).single.IsHonest :=
  keeps_isHonest.play_new (fun e he => by cases he) successive fun _ => trivial

/-- What a request turns and what it counts is what the worker that is seen turns and counts. -/
theorem Lone.request_account (lone : (c.trim c.sent).Lone) (r : Request) :
    (c.serve r).2 = (c.single.executor.serve r).2 ∧
      c.turned (c.serve r).1 = c.single.executor.turned (c.single.executor.serve r).1 := by
  have looks : c.LooksLike c.single := LooksLike.of_trim lone.looksLike
  have plain : c.plainMove (.request r) = [.request r] := rfl
  obtain ⟨lone', served⟩ := lone.single_move rfl plain
  have after : (c.serve r).1.entries = (c.single.executor.serve r).1.entries :=
    lone'.entries.trans (congrArg (fun s : Clockwork φ => s.executor.entries) served)
  refine ⟨(looks.answers r).symm, ?_⟩
  rw [turned, Executor.turned, lone.entries, after]

/--
At any moment of any play no two keys are the same, and an interrupt counts the keys that it takes off the list.

As long as no worker is hired before the last one has left, the keys are those of the actions that were not
cancelled: the unfinished ones, and those that linger because they were completed or failed. So there is just
one key for each unfinished action, and an interrupt counts just the actions that it turns from unfinished into
cancelled, if and only if nothing lingers that the interrupt hits.
-/
theorem keys_account (feed : φ) (engine : Engine) (target : Target) (device : Device) (focus : Focus)
    (moves : List Move) :
    let c := (new feed engine target device focus).play moves
    c.keys.Nodup ∧
    (c.interruptAll.2 = c.keys.length ∧ c.interruptAll.1.keys = []) ∧
    (∀ g, (c.interruptConflicting g).1.keys.Sublist c.keys ∧
      (c.interruptConflicting g).2 + (c.interruptConflicting g).1.keys.length = c.keys.length) ∧
    ((new feed engine target device focus).Successive moves →
      c.keys = (c.entries.filter fun e => !e.cancelled).map (·.key) ∧
      c.keys.length = c.entries.countP Entry.isUnfinished + c.entries.countP Entry.lingers ∧
      (∀ e ∈ c.entries, e.lingers = true →
        e.progress = .ended .completed ∨ ∃ message, e.progress = .ended (.failed message)) ∧
      (c.keys = (c.entries.filter Entry.isUnfinished).map (·.key) ↔ ∀ e ∈ c.entries, e.lingers = false) ∧
      c.interruptAll.2 = c.turned c.interruptAll.1 + c.entries.countP Entry.lingers ∧
      (c.interruptAll.2 = c.turned c.interruptAll.1 ↔ ∀ e ∈ c.entries, e.lingers = false) ∧
      ∀ g, (c.interruptConflicting g).2 = c.turned (c.interruptConflicting g).1 +
          (c.entries.countP fun e => e.lingers && e.action.kind.interrupted g.kinds) ∧
        ((c.interruptConflicting g).2 = c.turned (c.interruptConflicting g).1 ↔
          ∀ e ∈ c.entries, e.action.kind.interrupted g.kinds = true → e.lingers = false)) := by
  intro c
  have start : (new feed engine target device focus).keys.Nodup := List.nodup_nil
  refine ⟨nodup_keys_play start moves, ⟨by simp [interruptAll, keys], rfl⟩, c.interruptConflicting_keys,
    fun successive => ?_⟩
  obtain ⟨lone, -⟩ := lone_of_successive successive
  have looks : c.LooksLike c.single := LooksLike.of_trim lone.looksLike
  have same : c.entries = c.single.executor.entries := lone.entries
  have honest : ∀ e ∈ c.entries, e.IsHonest :=
    fun e he => honest_play feed engine target device focus moves successive e (same ▸ he)
  have all : c.interruptAll.2 = c.turned c.interruptAll.1 + c.entries.countP Entry.lingers := by
    obtain ⟨answer, turned⟩ := lone.request_account .interruptAll
    have counts : c.interruptAll.2 = c.single.executor.interruptAll.2 := Answer.count.inj answer
    rw [counts, same]
    exact c.single.executor.interruptAll_count.trans (congrArg (· + _) turned.symm)
  have conflicting (g : Group) : (c.interruptConflicting g).2 = c.turned (c.interruptConflicting g).1 +
      (c.entries.countP fun e => e.lingers && e.action.kind.interrupted g.kinds) := by
    obtain ⟨answer, turned⟩ := lone.request_account (.interruptConflicting g)
    have counts : (c.interruptConflicting g).2 = (c.single.executor.interruptConflicting g).2 :=
      Answer.count.inj answer
    rw [counts, same]
    exact (c.single.executor.interruptConflicting_count g).trans (congrArg (· + _) turned.symm)
  refine ⟨?_, ?_, fun e he lingers => (honest e he).ending lingers, ?_, all, ?_, fun g => ⟨conflicting g, ?_⟩⟩
  · rw [same, ← looks.keys]
    exact c.single.executor.keys_eq
  · rw [same, ← looks.keys]
    exact c.single.executor.keys_length
  · rw [same, ← looks.keys]
    exact c.single.executor.keys_eq_unfinished_iff
  · rw [all, same, ← c.single.executor.countP_lingers_eq_zero]
    omega
  · have spared : (c.entries.countP fun e => e.lingers && e.action.kind.interrupted g.kinds) = 0 ↔
        ∀ e ∈ c.entries, e.action.kind.interrupted g.kinds = true → e.lingers = false := by
      rw [List.countP_eq_zero]
      refine forall₂_congr fun e _ => ?_
      cases e.lingers <;> simp
    rw [← spared, conflicting g]
    omega

/-- A supply with a walk and a jump at the same time. -/
def walkWhileJumping : Supply where
  pending := [⟨3, ⟨[⟨.moveForward, some "5", 5.0⟩, ⟨.jump, none, 0.05⟩], 5.0⟩⟩]

/-- The walk is held, and the jump is made. -/
def untilJumped : List Move :=
  [.start, .work 0, .work 0, .work 0, .work 0, .work 0, .poll 0 0, .poll 0 1, .join 0 1]

/-- While the walk goes on the jump lingers: it is listed, and an interrupt counts it with the walk. -/
theorem keys_account_lingering :
    let c := (new walkWhileJumping {} {} {} {}).play untilJumped
    (new walkWhileJumping {} {} {} {}).Successive untilJumped ∧ c.isQuiet = true ∧ c.keys = ["w_5", "jump_"] ∧
      c.entries.countP Entry.isUnfinished = 1 ∧ c.interruptAll.2 = 2 ∧
      c.interruptAll.2 = c.turned c.interruptAll.1 + 1 := by
  intro c
  have successive : (new walkWhileJumping {} {} {} {}).Successive untilJumped := by decide +kernel
  have lingers : c.entries.countP Entry.lingers = 1 := by decide +kernel
  obtain ⟨-, -, -, account⟩ := keys_account walkWhileJumping {} {} {} {} untilJumped
  obtain ⟨-, -, -, -, counts, -⟩ := account successive
  rw [lingers] at counts
  exact ⟨successive, by decide +kernel, by decide +kernel, by decide +kernel, by decide +kernel, counts⟩

/-- A worker is told to stop while it holds an input, and the next one is hired and comes to hold one too. -/
def untilRelieved : List Move :=
  untilJumped ++ [.stop, .start, .work 1, .work 1, .work 1, .work 1, .work 1, .poll 1 0]

/-- The first worker lets go, and clears the list when it reports. -/
def untilCleared : List Move :=
  untilRelieved ++ [.poll 0 0, .join 0 0, .work 0, .work 0, .work 0]

/-- A worker that was told to stop clears the list under the run of the next one. -/
example :
    let feed : Supply := { pending := walkWhileJumping.pending ++ onlyHold.pending }
    let start := new feed {} {} {} {}
    (start.play untilRelieved).keys = ["w_2"] ∧ (start.play untilCleared).keys = [] ∧
      (start.play untilCleared).entries.countP Entry.isUnfinished = 1 := by
  decide +kernel

end Crew

end Combo
