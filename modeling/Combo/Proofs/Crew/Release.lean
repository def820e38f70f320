-- SUMMARY: Every input that an action of a crew pushes down it lets up once, and what is held is what actions hold.
import Combo.Proofs.Crew.Rounds

/-!
# Held inputs of a crew are let up

The commands sent for one action of one round are followed by `Call.follow`, as those of
a single worker are. After every play they can be followed to the end, and what is
owed then is what the action grips: it waits inside its hold, or it was given up and
is yet to let go. So the pushes and releases of an action come in pairs, however many
workers there are, and the inputs that the device holds are those that actions grip
and those that were let up in vain.

When no worker is hired before the last one has left, no worker's action grips
anything while the phase is not running.
-/

namespace Combo

/-- A list in which everything is that of an optional value is the list of it. -/
theorem eq_toList_of_perm {α : Type} {l : List α} {o : Option α} (h : l.Perm o.toList) : l = o.toList := by
  cases o with
  | none => exact List.perm_nil.1 h
  | some a => exact List.perm_singleton.1 h

namespace Crew

variable {φ : Type} {c c' : Crew φ}

/-- The commands sent for the action at a position of a round. -/
def callsOf (c : Crew φ) (shift : Shift) (position : Nat) : List Call :=
  (c.sent.filter fun s => s.shift == shift && s.call.position == position).map (·.call)

/-- The input that the action at a position of a round grips. -/
def gripAt (c : Crew φ) (shift : Shift) (position : Nat) : Option Input :=
  (c.grips.find? (Leftover.isAt shift position)).map (·.input)

/-- The inputs of the actions that wait inside their holds. -/
def holding (c : Crew φ) : List Input := (c.members.mapIdx Member.leftovers).flatten.map (·.input)

/-- Whether every release was carried out. -/
def ReleasesDone (c : Crew φ) : Prop := ∀ call ∈ c.calls, call.command.acts = false → call.response = .done

/-- Whether what is owed for an action is the one input that it grips. -/
def Owes (c : Crew φ) (shift : Shift) (position : Nat) : Prop :=
  ∃ owed, owedAfter (c.callsOf shift position) = some owed ∧
    (c.grips.filter (Leftover.isAt shift position)).map (·.input) = owed.toList

theorem Owes.gripAt {shift : Shift} {position : Nat} (h : c.Owes shift position) :
    owedAfter (c.callsOf shift position) = some (c.gripAt shift position) := by
  obtain ⟨owed, followed, grips⟩ := h
  rw [followed, Crew.gripAt, ← List.head?_filter, ← List.head?_map, grips]
  cases owed <;> rfl

/-- Where grips are the same in another order, the grip at a place is the same. -/
theorem grips_at_of_perm {grips grips' : List Leftover} {owed : Option Input} {shift : Shift} {position : Nat}
    (perm : grips'.Perm grips)
    (h : (grips.filter (Leftover.isAt shift position)).map (·.input) = owed.toList) :
    (grips'.filter (Leftover.isAt shift position)).map (·.input) = owed.toList :=
  eq_toList_of_perm (h ▸ (perm.filter _).map _)

/-- Only the commands for an action itself count for it. -/
theorem callsOf_of_sent {at' shift : Shift} {now group position' position : Nat} {exchange : Option Exchange}
    (sent : c'.sent = c.sent ++ (Exchange.calls now group position' exchange).map (Sent.mk at')) :
    c'.callsOf shift position = c.callsOf shift position ++
      if at' = shift ∧ position' = position then Exchange.calls now group position' exchange else [] := by
  rw [callsOf, sent, List.filter_append, List.map_append]
  refine congrArg (c.callsOf shift position ++ ·) ?_
  rcases exchange with _ | ⟨command, response⟩
  · simp [Exchange.calls]
  · by_cases h : at' = shift ∧ position' = position
    · simp [Exchange.calls, h]
    · have other : (at' == shift && position' == position) = false := by simpa using h
      simp [Exchange.calls, h, other]

/-- An action's own grip is all that there is at its place, when one is owed. -/
theorem eq_held_of_perm {owed held : Option Input} {rest : List Input}
    (h : owed.toList.Perm (held.toList ++ rest)) (free : held = none → rest = []) : owed = held ∧ rest = [] := by
  cases held with
  | none =>
    obtain rfl := free rfl
    cases owed with
    | none => exact ⟨rfl, rfl⟩
    | some input => cases List.perm_nil.1 h
  | some input =>
    cases owed with
    | none => cases List.nil_perm.1 h
    | some other =>
      have single : [other] = input :: rest := List.singleton_perm.1 h
      cases single
      exact ⟨rfl, rfl⟩

/-- What an action grips, seen among what is gripped at a place. -/
theorem filter_grip (at' shift : Shift) (group position' position : Nat) (held : Option Input) :
    ((held.toList.map (Leftover.mk at' group position')).filter (Leftover.isAt shift position)).map (·.input) =
      if at' = shift ∧ position' = position then held.toList else [] := by
  cases held with
  | none => simp
  | some input =>
    by_cases h : at' = shift ∧ position' = position
    · simp [Leftover.isAt, h]
    · have other : (at' == shift && position' == position) = false := by simpa using h
      simp [Leftover.isAt, h, other]

theorem Handled.owes (handled : c.Handled c') {shift : Shift} {position : Nat} (h : c.Owes shift position) :
    c'.Owes shift position := by
  obtain ⟨owed, followed, grips⟩ := h
  cases handled with
  | same sent perm =>
    refine ⟨owed, ?_, grips_at_of_perm perm grips⟩
    rw [callsOf, sent]
    exact followed
  | @act at' now group position' p p' exchange rest polled sent before after free =>
    have seenBefore := (before.filter (Leftover.isAt shift position)).map (·.input)
    have seenAfter := (after.filter (Leftover.isAt shift position)).map (·.input)
    rw [List.filter_append, List.map_append, filter_grip] at seenBefore seenAfter
    rw [grips] at seenBefore
    rw [Owes, callsOf_of_sent sent, owedAfter_append followed]
    by_cases here : at' = shift ∧ position' = position
    · rw [if_pos here] at seenBefore seenAfter ⊢
      obtain ⟨rfl, rfl⟩ := here
      obtain ⟨rfl, alone⟩ := eq_held_of_perm seenBefore fun none => by
        rw [List.filter_eq_nil_iff.2 fun l hl => by simp [free l hl none], List.map_nil]
      rw [alone, List.append_nil] at seenAfter
      exact ⟨p'.held?, polled.follow now group position', eq_toList_of_perm seenAfter⟩
    · rw [if_neg here] at seenBefore seenAfter ⊢
      exact ⟨owed, rfl, eq_toList_of_perm (seenAfter.trans seenBefore.symm)⟩

/-- The device holds what actions grip, and what was let up in vain. -/
theorem Handled.perm_stuck (handled : c.Handled c')
    (h : c.held.Perm (c.grips.map (·.input) ++ c.executor.stuck)) :
    c'.held.Perm (c'.grips.map (·.input) ++ c'.executor.stuck) := by
  cases handled with
  | same sent perm =>
    have calls : c'.executor.calls = c.executor.calls := congrArg (List.map Sent.call) sent
    have held : c'.held = c.held := by
      change c'.executor.held = c.executor.held
      rw [Executor.held, Executor.events, calls]
      rfl
    rw [held, Executor.stuck, calls]
    exact h.trans ((perm.symm.map _).append_right _)
  | @act shift now group position p p' exchange rest polled sent before after free =>
    have calls : c'.executor.calls = c.executor.calls ++ Exchange.calls now group position exchange := by
      refine (congrArg (List.map Sent.call) sent).trans ?_
      simp [executor, Crew.calls, Function.comp_def]
    have inputs (held : Option Input) :
        (held.toList.map (Leftover.mk shift group position)).map (·.input) = held.toList := by
      simp [Function.comp_def]
    have before' := before.map (·.input)
    have after' := after.map (·.input)
    rw [List.map_append, inputs] at before' after'
    have held := h.trans (before'.append_right _)
    rw [List.append_assoc] at held
    refine (Executor.held_of_poll polled calls held).trans ?_
    rw [Executor.stuck_of_calls calls, List.append_assoc, ← List.append_assoc]
    exact after'.symm.append_right _

variable [Feed φ]

theorem owes_play (feed : φ) (engine : Engine) (target : Target) (device : Device) (focus : Focus)
    (moves : List Move) (shift : Shift) (position : Nat) :
    ((new feed engine target device focus).play moves).Owes shift position := by
  induction moves using List.reverseRecOn with
  | nil => exact ⟨none, rfl, rfl⟩
  | append_singleton moves mv ih =>
    rw [play_append]
    exact (handled_move (tidy_play feed engine target device focus moves) mv).owes ih

theorem perm_stuck_play (feed : φ) (engine : Engine) (target : Target) (device : Device) (focus : Focus)
    (moves : List Move) :
    let c := (new feed engine target device focus).play moves
    c.held.Perm (c.grips.map (·.input) ++ c.executor.stuck) := by
  induction moves using List.reverseRecOn with
  | nil => exact .refl _
  | append_singleton moves mv ih =>
    rw [play_append]
    exact (handled_move (tidy_play feed engine target device focus moves) mv).perm_stuck ih

/-! ## Who grips -/

omit [Feed φ] in
/-- The grips of workers are those of members. -/
theorem exists_member_of_grip {l : Leftover} (h : l ∈ (c.members.mapIdx Member.leftovers).flatten) :
    ∃ m, c.members[l.shift.worker]? = some m ∧ l ∈ m.leftovers l.shift.worker := by
  obtain ⟨_, hw, hl⟩ := List.mem_flatten.1 h
  obtain ⟨w, lt, rfl⟩ := List.mem_mapIdx.1 hw
  obtain rfl : l.shift.worker = w := by rw [Member.shift_of_mem_leftovers hl]
  exact ⟨_, List.getElem?_eq_getElem lt, hl⟩

omit [Feed φ] in
/-- What an action grips it holds at a worker's run, or it is left over. -/
theorem grip_cases {l : Leftover} (h : l ∈ c.grips) :
    (∃ b step run ledger due entry,
      c.members[l.shift.worker]? = some ⟨b, l.shift.round, .running step run ledger⟩ ∧
        run.entries[l.position]? = some entry ∧ entry.progress = .holding l.input due) ∨
    l ∈ c.leftovers := by
  refine (List.mem_append.1 h).imp (fun own => ?_) id
  obtain ⟨m, hm, hl⟩ := exists_member_of_grip own
  obtain ⟨b, step, run, ledger, rfl, -, held⟩ := Member.exists_run_of_mem_leftovers hl
  obtain ⟨entry, hentry, held⟩ := Option.bind_eq_some_iff.1 held
  cases hp : entry.progress with
  | holding input due =>
    rw [hp] at held
    cases held
    exact ⟨b, step, run, ledger, due, entry, hm, hentry, hp⟩
  | _ =>
    rw [hp] at held
    cases held

omit [Feed φ] in
/-- The grip at a place is that of an action there. -/
theorem exists_grip_of_gripAt {shift : Shift} {position : Nat} {input : Input}
    (h : c.gripAt shift position = some input) :
    ∃ l ∈ c.grips, l.shift = shift ∧ l.position = position ∧ l.input = input := by
  obtain ⟨l, found, rfl⟩ := Option.map_eq_some_iff.1 h
  have here : l.isAt shift position = true := List.find?_some found
  obtain ⟨same, same'⟩ := Bool.and_eq_true_iff.1 here
  exact ⟨l, List.mem_of_find?_eq_some found, beq_iff_eq.1 same, beq_iff_eq.1 same', rfl⟩

omit [Feed φ] in
/-- While no run is shown, only what was left over is gripped. -/
theorem grips_of_phase (shows : c.ShowsRuns) (phase : c.board.phase ≠ .running) : c.grips = c.leftovers := by
  refine List.append_left_eq_self.2 (List.eq_nil_iff_forall_not_mem.2 fun l own => phase ?_)
  obtain ⟨m, hm, hl⟩ := exists_member_of_grip own
  obtain ⟨b, step, run, ledger, rfl, -⟩ := Member.exists_run_of_mem_leftovers hl
  exact shows _ _ hm rfl

/--
The pushes and releases of each action alternate: every input that is pushed down is let up exactly once
by the same action, and none is let up otherwise. An action owes a release while it waits inside its
hold; any other that owes one was given up before, or its worker was taken away, and it is yet to be
dropped. As long as no release is refused, the device holds just what actions grip. When nothing is left
to do, these are the inputs of the actions that wait inside their holds; and when no worker is hired before
the last one has left, there are none while no group is seen to be running and no action is yet to be dropped.
-/
theorem holds_let_up (feed : φ) (engine : Engine) (target : Target) (device : Device) (focus : Focus)
    (moves : List Move) :
    let c := (new feed engine target device focus).play moves
    (∀ shift position, ∃ inputs, (c.callsOf shift position).filterMap Call.hold? =
      Command.pairs inputs ++ (c.gripAt shift position).toList.map .down) ∧
    (∀ shift position input, c.gripAt shift position = some input →
      (∃ b step run ledger due entry,
        c.members[shift.worker]? = some ⟨b, shift.round, .running step run ledger⟩ ∧
          run.entries[position]? = some entry ∧ entry.progress = .holding input due) ∨
      ∃ l ∈ c.leftovers, l.shift = shift ∧ l.position = position ∧ l.input = input) ∧
    (∀ l ∈ c.leftovers, ∃ early mv later, moves = early ++ mv :: later ∧
      l ∈ ((new feed engine target device focus).play early).drops mv) ∧
    (c.ReleasesDone →
      c.held.Perm (c.grips.map (·.input)) ∧
      (c.isQuiet = true → c.held.Perm c.holding) ∧
      ((new feed engine target device focus).Successive moves → c.leftovers = [] →
        c.board.phase ≠ .running → c.held = [])) := by
  intro c
  refine ⟨fun shift position => ?_, fun shift position input grip => ?_,
    exists_drop_of_leftover feed engine target device focus moves, fun released => ?_⟩
  · exact exists_pairs_of_owed (owes_play feed engine target device focus moves shift position).gripAt
  · obtain ⟨l, hl, rfl, rfl, rfl⟩ := exists_grip_of_gripAt grip
    exact (grip_cases hl).imp_right fun left => ⟨l, left, rfl, rfl, rfl⟩
  · have stuck : c.executor.stuck = [] := Executor.stuck_of_releasesDone released
    have perm : c.held.Perm (c.grips.map (·.input)) := by
      have all : c.held.Perm (c.grips.map (·.input) ++ c.executor.stuck) :=
        perm_stuck_play feed engine target device focus moves
      rwa [stuck, List.append_nil] at all
    refine ⟨perm, fun quiet => ?_, fun successive free phase => ?_⟩
    · have free : c.leftovers = [] := List.isEmpty_iff.1 (Bool.and_eq_true_iff.1 quiet).1
      rwa [grips, free, List.append_nil] at perm
    · rw [grips_of_phase (showsRuns_play feed engine target device focus moves successive) phase, free] at perm
      exact List.perm_nil.1 perm

/-- While an action that was given up is yet to be dropped, its input is held though the worker is idle. -/
theorem held_while_idle :
    let c := (new onlyHold { cleanupMs := 0 } {} {} {}).play givenUpHold.dropLast
    (new onlyHold { cleanupMs := 0 } {} {} {}).Successive givenUpHold.dropLast ∧
      (∀ e ∈ (new onlyHold { cleanupMs := 0 } {} {} {}).journal givenUpHold.dropLast, e.isLoss = false) ∧
      (∀ call ∈ c.calls, call.command.acts = false → call.response = .done) ∧
      c.board.phase = .idle ∧ c.held = [.forward] := by
  decide +kernel

/-- Once the action has been dropped, the device holds nothing. -/
theorem holds_let_up_dropped :
    let c := (new onlyHold { cleanupMs := 0 } {} {} {}).play givenUpHold
    c.ReleasesDone ∧ (new onlyHold { cleanupMs := 0 } {} {} {}).Successive givenUpHold ∧
      c.leftovers = [] ∧ c.board.phase ≠ .running ∧ c.held = [] := by
  have released : ((new onlyHold { cleanupMs := 0 } {} {} {}).play givenUpHold).ReleasesDone := by
    unfold ReleasesDone
    decide +kernel
  have successive : (new onlyHold { cleanupMs := 0 } {} {} {}).Successive givenUpHold := by decide +kernel
  have free : ((new onlyHold { cleanupMs := 0 } {} {} {}).play givenUpHold).leftovers = [] := by decide +kernel
  have idle : ((new onlyHold { cleanupMs := 0 } {} {} {}).play givenUpHold).board.phase ≠ .running := by
    decide +kernel
  exact ⟨released, successive, free, idle,
    ((holds_let_up onlyHold { cleanupMs := 0 } {} {} {} givenUpHold).2.2.2 released).2.2 successive free idle⟩

end Crew

end Combo
