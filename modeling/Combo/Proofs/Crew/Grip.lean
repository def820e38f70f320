-- SUMMARY: The inputs that the actions of a crew hold, and that only polls and releases of what is left over change them.
import Mathlib.Data.List.Perm.Basic
import Combo.Proofs.Clockwork.Release
import Combo.Proofs.Crew.Fare

/-!
# What a crew holds

An input that was pushed down is held by an action of a worker, or it is left over by an
action that was given up. `Crew.grips` lists all of them, each with the round and the
position of its action. A worker that gives up its actions, or is taken away, hands
its grips over and loses none. `handled_move` says the rest: in every move no grip
changes, or an action of which one was polled takes it up or lets it go with a
command that goes with it.
-/

namespace Combo

/-! ## Lists of lists -/

/-- The others in a list of lists stay where one of the lists is exchanged. -/
theorem exists_flatten_set {α : Type} {L : List (List α)} {i : Nat} {a : List α} (h : L[i]? = some a) :
    ∃ rest, (∀ x ∈ rest, ∃ j l, j ≠ i ∧ L[j]? = some l ∧ x ∈ l) ∧ L.flatten.Perm (a ++ rest) ∧
      ∀ b, (L.set i b).flatten.Perm (b ++ rest) := by
  obtain ⟨lt, rfl⟩ := List.getElem?_eq_some_iff.1 h
  have around (b : List α) : (L.set i b).flatten.Perm
      (b ++ ((L.take i).flatten ++ (L.drop (i + 1)).flatten)) := by
    rw [List.set_eq_take_append_cons_drop, if_pos lt, List.flatten_append, List.flatten_cons]
    exact List.perm_append_comm_assoc _ _ _
  refine ⟨(L.take i).flatten ++ (L.drop (i + 1)).flatten, fun x hx => ?_, ?_, around⟩
  · rcases List.mem_append.1 hx with hx | hx
    · obtain ⟨l, hl, hx⟩ := List.mem_flatten.1 hx
      obtain ⟨j, within, rfl⟩ := List.mem_take_iff_getElem.1 hl
      exact ⟨j, _, by omega, List.getElem?_eq_getElem (by omega), hx⟩
    · obtain ⟨l, hl, hx⟩ := List.mem_flatten.1 hx
      obtain ⟨j, within, rfl⟩ := List.mem_drop_iff_getElem.1 hl
      exact ⟨_, _, by omega, List.getElem?_eq_getElem (by omega), hx⟩
  · have same := around L[i]
    rwa [List.set_getElem_self lt] at same

/-! ## The grips of a run -/

/-- The input that the action of an entry holds, with its place. -/
def Entry.grip (shift : Shift) (group position : Nat) (e : Entry) : List Leftover :=
  e.progress.held?.toList.map (Leftover.mk shift group position)

/-- Whether an input is held by the action at a position of a round. -/
def Leftover.isAt (shift : Shift) (position : Nat) (l : Leftover) : Bool :=
  l.shift == shift && l.position == position

namespace Run

theorem leftovers_eq (shift : Shift) (r : Run) :
    r.leftovers shift = (r.entries.mapIdx (Entry.grip shift r.id)).flatten := by
  rw [leftovers, List.filterMap_eq_flatMap_toList, List.mapIdx_eq_zipIdx_map, List.flatMap_def]
  congr 1
  refine List.map_congr_left fun ⟨e, position⟩ _ => ?_
  simp only [Entry.grip]
  cases e.progress <;> rfl

theorem leftovers_of_holdsNothing (shift : Shift) {r : Run} (h : r.HoldsNothing) : r.leftovers shift = [] := by
  rw [leftovers_eq, List.flatten_eq_nil_iff]
  intro l hl
  obtain ⟨position, lt, rfl⟩ := List.mem_mapIdx.1 hl
  rw [Entry.grip, h _ (List.getElem_mem lt)]
  rfl

/-- What is held at a position can be read off the grips. -/
theorem mem_leftovers {shift : Shift} {r : Run} {l : Leftover} :
    l ∈ r.leftovers shift ↔
      l.shift = shift ∧ l.group = r.id ∧ r.heldAt l.position = some l.input := by
  rw [leftovers_eq, List.mem_flatten]
  constructor
  · rintro ⟨_, hl, hmem⟩
    obtain ⟨position, lt, rfl⟩ := List.mem_mapIdx.1 hl
    obtain ⟨input, held, rfl⟩ := List.mem_map.1 hmem
    exact ⟨rfl, rfl, by simpa [heldAt, List.getElem?_eq_getElem lt] using held⟩
  · rintro ⟨rfl, group, held⟩
    obtain ⟨e, he, held⟩ := Option.bind_eq_some_iff.1 held
    obtain ⟨lt, rfl⟩ := List.getElem?_eq_some_iff.1 he
    refine ⟨_, List.mem_mapIdx.2 ⟨l.position, lt, rfl⟩, ?_⟩
    exact List.mem_map.2 ⟨l.input, by simp [held], by rw [← group]⟩

theorem leftovers_of_sameHolds (shift : Shift) {r r' : Run} (id : r'.id = r.id) (h : r.SameHolds r') :
    r'.leftovers shift = r.leftovers shift := by
  obtain ⟨new, hnew, same⟩ := h
  have read (entries : List Entry) : entries.mapIdx (Entry.grip shift r.id) =
      (entries.map (·.progress.held?)).mapIdx fun position held =>
        held.toList.map (Leftover.mk shift r.id position) := by
    refine List.ext_getElem? fun i => ?_
    simp only [List.getElem?_mapIdx, List.getElem?_map, Option.map_map]
    rfl
  rw [leftovers_eq, leftovers_eq, id, read, same, List.map_append, List.mapIdx_append, List.flatten_append,
    ← read, List.append_right_eq_self, List.flatten_eq_nil_iff]
  intro l hl
  obtain ⟨position, lt, rfl⟩ := List.mem_mapIdx.1 hl
  obtain ⟨e, he, heq⟩ := List.mem_map.1 (List.getElem_mem lt)
  rw [← heq, hnew e he]
  rfl

/-- A poll of an entry exchanges the grip of the entry. -/
theorem exists_leftovers_set (shift : Shift) {r : Run} {position : Nat} {entry : Entry}
    (h : r.entries[position]? = some entry) (entry' : Entry) :
    ∃ rest, (∀ l ∈ rest, l.isAt shift position = false) ∧
      (r.leftovers shift).Perm (entry.grip shift r.id position ++ rest) ∧
      (leftovers shift { r with entries := r.entries.set position entry' }).Perm
        (entry'.grip shift r.id position ++ rest) := by
  have here : (r.entries.mapIdx (Entry.grip shift r.id))[position]? =
      some (entry.grip shift r.id position) := by
    rw [List.getElem?_mapIdx, h]
    rfl
  obtain ⟨rest, others, before, after⟩ := exists_flatten_set here
  refine ⟨rest, fun l hl => ?_, by rwa [leftovers_eq], ?_⟩
  · obtain ⟨j, grips, other, hj, hl⟩ := others l hl
    rw [List.getElem?_mapIdx, Option.map_eq_some_iff] at hj
    obtain ⟨e, -, rfl⟩ := hj
    obtain ⟨input, -, rfl⟩ := List.mem_map.1 hl
    simp [Leftover.isAt, other]
  · rw [leftovers_eq, List.mapIdx_set]
    exact after _

end Run

/-! ## Workers -/

/-- What holds nothing is left when a worker gives up its actions, as it knows only of those that have ended. -/
theorem Run.isAt_giveUp {ledger : Ledger} {r : Run}
    (known : ∀ position ∈ ledger.joined, r.HasEnded position) (fault : Option InputError) :
    (r.giveUp ledger).IsAt (.closing fault) := by
  intro e he
  obtain ⟨position, lt, rfl⟩ := List.mem_mapIdx.1 he
  unfold Entry.giveUp
  split
  · rename_i kept
    obtain ⟨e', he', ended⟩ := known position (by simpa using (Bool.and_eq_true_iff.1 kept).1)
    rw [List.getElem?_eq_getElem lt] at he'
    cases he'
    exact ended
  · rfl

theorem Run.hasEnded_giveUp {ledger : Ledger} {r : Run} {position : Nat}
    (known : ∀ position ∈ ledger.joined, r.HasEnded position) (h : r.HasEnded position) :
    (r.giveUp ledger).HasEnded position := by
  obtain ⟨e, he, -⟩ := h
  have given : (r.giveUp ledger).entries[position]? =
      some (e.giveUp (ledger.joined.contains position)) := by
    simp [giveUp, List.getElem?_mapIdx, he]
  exact ⟨_, given, isAt_giveUp known none _ (List.mem_of_getElem? given)⟩

namespace Member

variable {m m' : Member} {es : List Event}

/-- Whether no action of a worker's last round can be under way any more. -/
def isSpent (m : Member) : Bool :=
  match m.post with
  | .running (.closing _) _ _ => true
  | .running _ _ _ => false
  | _ => true

/-- Whether a worker is through with the actions of a round. -/
def IsPast (m : Member) (round : Nat) : Prop :=
  round < m.round ∨ (round = m.round ∧ m.isSpent = true)

/-- Whether a worker's actions are as far as its step says, and it knows only of those that have ended. -/
def IsSound (m : Member) : Prop :=
  match m.post with
  | .running step run ledger => run.IsAt step ∧ ∀ position ∈ ledger.joined, run.HasEnded position
  | _ => True

/-- What an action of a worker holds is held in its run. -/
theorem exists_run_of_mem_leftovers {worker : Nat} {l : Leftover} (h : l ∈ m.leftovers worker) :
    ∃ b step run ledger, m = ⟨b, l.shift.round, .running step run ledger⟩ ∧ l.shift.worker = worker ∧
      run.heldAt l.position = some l.input := by
  obtain ⟨b, k, post⟩ := m
  cases post with
  | running step run ledger =>
    obtain ⟨shift, -, held⟩ := Run.mem_leftovers.1 h
    exact ⟨b, step, run, ledger, by rw [shift], by rw [shift], held⟩
  | _ => cases h

theorem shift_of_mem_leftovers {worker : Nat} {l : Leftover} (h : l ∈ m.leftovers worker) :
    l.shift = ⟨worker, m.round⟩ := by
  obtain ⟨b, step, run, ledger, rfl, rfl, -⟩ := exists_run_of_mem_leftovers h
  rfl

theorem Fares.isSound (fares : m.Fares es m') (sound : m.IsSound) : m'.IsSound := by
  cases fares with
  | told => exact sound
  | bury | leave | begin | hand | miss | finish => trivial
  | crash now dead => rcases dead with rfl | rfl <;> trivial
  | handIn top => rcases top with rfl | ⟨due, rfl⟩ <;> trivial
  | dispatch id actions fresh first learned =>
    refine ⟨?_, learned⟩
    rcases first with rfl | rfl <;> exact fresh
  | go onward closing learned =>
    refine ⟨onward.sound sound.1, fun position joined => ?_⟩
    exact (learned position joined).elim (fun known => onward.ended position (sound.2 position known)) id
  | layer g onward learned =>
    refine ⟨trivial, fun position joined => ?_⟩
    rw [learned] at joined
    exact onward.ended position (sound.2 position joined)

theorem Fares.leftovers (fares : m.Fares es m') (sound : m.IsSound) (worker : Nat) :
    m'.leftovers worker = m.leftovers worker := by
  cases fares with
  | told => rfl
  | bury | hand | miss => rfl
  | leave top | begin top => rcases top with rfl | ⟨due, rfl⟩ <;> rfl
  | crash now dead => rcases dead with rfl | rfl <;> rfl
  | handIn top => rcases top with rfl | ⟨due, rfl⟩ <;> rfl
  | dispatch id actions fresh =>
    refine Run.leftovers_of_holdsNothing _ fun e he => ?_
    exact (fresh e he).elim Progress.held?_of_isQueued Progress.held?_of_isEnded
  | go onward => exact Run.leftovers_of_sameHolds _ onward.id (onward.holds sound.1)
  | layer g onward => exact Run.leftovers_of_sameHolds _ onward.id (onward.holds sound.1)
  | finish =>
    exact (Run.leftovers_of_holdsNothing _ (Run.holdsNothing_of_isAt sound.1 (by simp))).symm

theorem Fares.isPast {round : Nat} (fares : m.Fares es m') (past : m.IsPast round) : m'.IsPast round := by
  cases fares with
  | told => exact past
  | bury | hand | miss | finish => exact past
  | leave top | begin top => rcases top with rfl | ⟨due, rfl⟩ <;> exact past
  | crash now dead => rcases dead with rfl | rfl <;> exact past
  | handIn top => rcases top with rfl | ⟨due, rfl⟩ <;> exact past
  | dispatch =>
    refine .inl ?_
    rcases past with lt | ⟨rfl, -⟩
    · exact Nat.lt_succ_of_lt lt
    · exact Nat.lt_succ_self _
  | @go _ _ _ step _ _ _ _ _ onward closing =>
    refine past.imp_right fun ⟨same, spent⟩ => ⟨same, ?_⟩
    cases step with
    | closing fault =>
      obtain rfl := closing fault rfl
      exact spent
    | focusing | settling | opening | joining => cases spent
  | layer => exact past

theorem Spends.isSound {now : Nat} {device : Device} (spends : m.Spends now device es m')
    (sound : m.IsSound) : m'.IsSound := by
  cases spends with
  | poll hentry ready polled =>
    refine ⟨sound.1.set polled.isQueued_eq_false, fun i joined => ?_⟩
    obtain ⟨e, he, ended⟩ := sound.2 i joined
    refine ⟨e, ?_, ended⟩
    rw [List.getElem?_set_ne, he]
    rintro rfl
    cases hentry.symm.trans he
    rw [Entry.isEnded_of_runnable ready] at ended
    cases ended
  | giveUp =>
    exact ⟨Run.isAt_giveUp sound.2 none, fun i joined => Run.hasEnded_giveUp sound.2 (sound.2 i joined)⟩
  | abort => trivial

theorem Spends.isPast {now round : Nat} {device : Device} (spends : m.Spends now device es m')
    (past : m.IsPast round) : m'.IsPast round := by
  cases spends with
  | poll => exact past
  | giveUp => exact past.imp_right fun ⟨same, spent⟩ => ⟨same, rfl⟩
  | abort => exact past.imp_right fun ⟨same, spent⟩ => ⟨same, rfl⟩

end Member

/-! ## Crews -/

namespace Crew

variable {φ : Type} {c c' : Crew φ}

/-- The inputs that actions hold, those included that were given up. -/
def grips (c : Crew φ) : List Leftover := (c.members.mapIdx Member.leftovers).flatten ++ c.leftovers

/-- Whether every worker is sound, and what is left over is of rounds that workers are through with. -/
structure Tidy (c : Crew φ) : Prop where
  sound : ∀ (w : Nat) (m : Member), c.members[w]? = some m → m.IsSound
  past : ∀ l ∈ c.leftovers, ∃ m, c.members[l.shift.worker]? = some m ∧ m.IsPast l.shift.round

/-- Whether a worker handed over what its actions hold. -/
structure HandsOver (c : Crew φ) (worker : Nat) (m m' : Member) (c' : Crew φ) : Prop where
  members : c'.members = c.members.set worker m'
  round : m'.round = m.round
  spent : m'.isSpent = true
  freed : m'.leftovers worker = []
  leftovers : c'.leftovers = c.leftovers ++ m.leftovers worker
  sent : c'.sent = c.sent

variable [Feed φ]

/-- What is left over by a worker that gives up its actions, or is taken away. -/
def drops (c : Crew φ) : Move → List Leftover
  | .giveUp worker =>
    match c.members[worker]? with
    | some m => if m.canGiveUp c.now then m.leftovers worker else []
    | none => []
  | .abort worker =>
    match c.members[worker]? with
    | some m => if m.isAbortable then m.leftovers worker else []
    | none => []
  | _ => []

omit [Feed φ] in
theorem setPost_members {worker : Nat} {m : Member} (hm : c.members[worker]? = some m) (post : Post) :
    (c.setPost worker post).members = c.members.set worker { m with post } := by
  refine List.ext_getElem? fun w => ?_
  by_cases h : worker = w
  · subst h
    obtain ⟨lt, rfl⟩ := List.getElem?_eq_some_iff.1 hm
    simp [setPost, lt]
  · simp [setPost, h]

omit [Feed φ] in
theorem giveUp_cases (tidy : c.Tidy) (worker : Nat) :
    (c.giveUp worker = c ∧ c.drops (.giveUp worker) = []) ∨ ∃ m m', c.members[worker]? = some m ∧
      c.drops (.giveUp worker) = m.leftovers worker ∧ c.HandsOver worker m m' (c.giveUp worker) := by
  cases hm : c.members[worker]? with
  | none => exact .inl (by simp [giveUp, drops, hm])
  | some m =>
    obtain ⟨b, k, post⟩ := m
    by_cases due : Member.canGiveUp c.now ⟨b, k, post⟩ = true
    · unfold Member.canGiveUp at due
      split at due
      · rename_i accepting run ledger joins
        obtain rfl : post = .running (.joining accepting) run ledger := joins
        have sound := tidy.sound worker _ hm
        refine .inr ⟨_, ⟨b, k, .running (.closing none) (run.giveUp ledger) ledger⟩, rfl,
          by simp [drops, hm, Member.canGiveUp, due], ?_⟩
        have gives : c.giveUp worker = { c.setPost worker (.running (.closing none) (run.giveUp ledger) ledger) with
            board := { c.board with gate := none }
            leftovers := c.leftovers ++ run.leftovers ⟨worker, k⟩ } := by
          simp [giveUp, hm, due]
        exact
          { members := by rw [gives]; exact setPost_members hm _
            round := rfl
            spent := rfl
            freed := Run.leftovers_of_holdsNothing _
              (Run.holdsNothing_of_isAt (Run.isAt_giveUp sound.2 none) (by simp))
            leftovers := by rw [gives]; rfl
            sent := by rw [gives]; rfl }
      · cases due
    · refine .inl ⟨?_, by simp [drops, hm, due]⟩
      unfold giveUp
      split
      · rename_i member
        cases hm.symm.trans member
        exact if_neg due
      · rfl

omit [Feed φ] in
theorem abort_cases (worker : Nat) :
    (c.abort worker = c ∧ c.drops (.abort worker) = []) ∨ ∃ m m', c.members[worker]? = some m ∧
      c.drops (.abort worker) = m.leftovers worker ∧ c.HandsOver worker m m' (c.abort worker) := by
  cases hm : c.members[worker]? with
  | none => exact .inl (by simp [abort, drops, hm])
  | some m =>
    by_cases kept : m.isAbortable = true
    · have aborts : c.abort worker =
          { c.setPost worker .gone with leftovers := c.leftovers ++ m.leftovers worker } := by
        simp [abort, hm, kept]
      refine .inr ⟨m, { m with post := .gone }, rfl, by simp [drops, hm, kept], ?_⟩
      exact
        { members := by rw [aborts]; exact setPost_members hm _
          round := rfl
          spent := rfl
          freed := rfl
          leftovers := by rw [aborts]
          sent := by rw [aborts]; rfl }
    · exact .inl (by simp [abort, drops, hm, kept])

/-- Whether a move does nothing with an action but to hand it out, start it, cancel it or report it. -/
def Move.isStill : Move → Bool
  | .letGo _ => false
  | mv => mv.isMild

/-- No command is sent, and nothing is left over, in a move that only starts, cancels or reports. -/
theorem kept_move {mv : Move} (still : mv.isStill = true) :
    (c.move mv).sent = c.sent ∧ (c.move mv).leftovers = c.leftovers := by
  cases mv with
  | poll | giveUp | abort | letGo => cases still
  | request r =>
    cases r with
    | interruptAll => exact ⟨rfl, rfl⟩
    | interruptConflicting g =>
      simp only [move, serve, interruptConflicting]
      split <;> exact ⟨rfl, rfl⟩
    | layer g =>
      rcases layer_cases g c with refused | ⟨worker, b, k, run, ledger, _, _, gate, member, -, layered⟩
      · simp [move, serve, refused]
      · simp [move, serve, layered, setMember]
  | stop =>
    simp only [move, stop]
    split <;> exact ⟨rfl, rfl⟩
  | setFocus | setDevice => exact ⟨rfl, rfl⟩
  | _ =>
    simp only [move, work, beginRound, ask, dispatch, stepRun, seeToFocus, wait, handIn, closeLate, join,
      notice, tick, start, close]
    (repeat' split) <;> exact ⟨rfl, rfl⟩

omit [Feed φ] in
/-- When every worker holds what it held, and no other worker holds anything, the grips of workers stay. -/
theorem flatten_leftovers_of
    (fares : ∀ (w : Nat) (m : Member), c.members[w]? = some m →
      ∃ m', c'.members[w]? = some m' ∧ m'.leftovers w = m.leftovers w)
    (hired : ∀ (w : Nat) (m' : Member), c.members[w]? = none → c'.members[w]? = some m' → m'.leftovers w = []) :
    (c'.members.mapIdx Member.leftovers).flatten = (c.members.mapIdx Member.leftovers).flatten := by
  have front : (c'.members.mapIdx Member.leftovers).take c.members.length = c.members.mapIdx Member.leftovers := by
    refine List.ext_getElem? fun w => ?_
    rw [List.getElem?_take]
    split
    · rename_i lt
      obtain ⟨m', hm', same⟩ := fares w _ (List.getElem?_eq_getElem lt)
      simp only [List.getElem?_mapIdx, hm', List.getElem?_eq_getElem lt, Option.map_some, same]
    · rename_i beyond
      rw [List.getElem?_mapIdx, List.getElem?_eq_none (by omega), Option.map_none]
  have back : ∀ l ∈ (c'.members.mapIdx Member.leftovers).drop c.members.length, l = [] := by
    intro l hl
    obtain ⟨j, within, rfl⟩ := List.mem_drop_iff_getElem.1 hl
    rw [List.getElem_mapIdx]
    exact hired _ _ (List.getElem?_eq_none (by omega)) (List.getElem?_eq_getElem _)
  rw [← List.take_append_drop c.members.length (c'.members.mapIdx Member.leftovers), List.flatten_append,
    front, List.flatten_eq_nil_iff.2 back, List.append_nil]

omit [Feed φ] in
/-- To hand something over is not to lose it. -/
theorem HandsOver.grips {worker : Nat} {m m' : Member} (h : c.HandsOver worker m m' c')
    (hm : c.members[worker]? = some m) : c'.grips.Perm c.grips := by
  have here : (c.members.mapIdx Member.leftovers)[worker]? = some (m.leftovers worker) := by
    rw [List.getElem?_mapIdx, hm]
    rfl
  obtain ⟨rest, -, before, after⟩ := exists_flatten_set here
  rw [Crew.grips, Crew.grips, h.members, h.leftovers, List.mapIdx_set]
  have freed := after (m'.leftovers worker)
  rw [h.freed, List.nil_append] at freed
  rw [h.freed]
  refine (freed.append_right _).trans (.trans ?_ (before.symm.append_right _))
  rw [← List.append_assoc, List.append_assoc (m.leftovers worker)]
  exact List.perm_append_comm

/-! ## Moves -/

/-- What is left over after a move was left over before, or is dropped with it. -/
theorem mem_leftovers_move (tidy : c.Tidy) {mv : Move} {l : Leftover} (h : l ∈ (c.move mv).leftovers) :
    l ∈ c.leftovers ∨ l ∈ c.drops mv := by
  have handed {worker : Nat} {m m' : Member} (hands : c.HandsOver worker m m' (c.move mv))
      (dropped : c.drops mv = m.leftovers worker) : l ∈ c.leftovers ∨ l ∈ c.drops mv := by
    rw [hands.leftovers] at h
    rw [dropped]
    exact List.mem_append.1 h
  by_cases still : mv.isStill = true
  · rw [(kept_move still).2] at h
    exact .inl h
  · cases mv with
    | letGo index =>
      simp only [Crew.move, letGo] at h
      split at h
      · exact .inl h
      · exact .inl (List.mem_of_mem_eraseIdx h)
    | poll worker position =>
      have kept : (c.move (.poll worker position)).leftovers = c.leftovers := by
        simp only [Crew.move, poll]
        (repeat' split) <;> rfl
      rw [kept] at h
      exact .inl h
    | giveUp worker =>
      rcases giveUp_cases tidy worker with ⟨none, -⟩ | ⟨m, m', -, dropped, hands⟩
      · rw [Crew.move, none] at h
        exact .inl h
      · exact handed hands dropped
    | abort worker =>
      rcases abort_cases (c := c) worker with ⟨none, -⟩ | ⟨m, m', -, dropped, hands⟩
      · rw [Crew.move, none] at h
        exact .inl h
      · exact handed hands dropped
    | _ => exact absurd rfl still

/-- A worker is through with the round of what it drops. -/
theorem isPast_of_drops (tidy : c.Tidy) {mv : Move} {l : Leftover} (h : l ∈ c.drops mv) :
    ∃ m, (c.move mv).members[l.shift.worker]? = some m ∧ m.IsPast l.shift.round := by
  have handed {worker : Nat} {m m' : Member} (hm : c.members[worker]? = some m)
      (hands : c.HandsOver worker m m' (c.move mv)) (dropped : c.drops mv = m.leftovers worker) :
      ∃ m, (c.move mv).members[l.shift.worker]? = some m ∧ m.IsPast l.shift.round := by
    obtain ⟨lt, -⟩ := List.getElem?_eq_some_iff.1 hm
    rw [Member.shift_of_mem_leftovers (dropped ▸ h), hands.members]
    exact ⟨m', by simp [lt], .inr ⟨hands.round.symm, hands.spent⟩⟩
  cases mv with
  | giveUp worker =>
    rcases giveUp_cases tidy worker with ⟨-, none⟩ | ⟨m, m', hm, dropped, hands⟩
    · rw [none] at h
      cases h
    · exact handed hm hands dropped
  | abort worker =>
    rcases abort_cases (c := c) worker with ⟨-, none⟩ | ⟨m, m', hm, dropped, hands⟩
    · rw [none] at h
      cases h
    · exact handed hm hands dropped
  | _ => cases h

theorem Tidy.move (tidy : c.Tidy) (mv : Move) : (c.move mv).Tidy where
  sound := by
    intro w m' hm'
    cases hm : c.members[w]? with
    | none =>
      rcases hired_move hm mv with nobody | hired
      · cases nobody.symm.trans hm'
      · cases hired.symm.trans hm'
        trivial
    | some m =>
      obtain ⟨m'', hm'', fares | spends⟩ := allGoOn mv w m hm
      · cases hm'.symm.trans hm''
        exact fares.isSound (tidy.sound w m hm)
      · cases hm'.symm.trans hm''
        exact spends.isSound (tidy.sound w m hm)
  past := by
    intro l hl
    rcases mem_leftovers_move tidy hl with old | dropped
    · obtain ⟨m, hm, past⟩ := tidy.past l old
      obtain ⟨m', hm', fares | spends⟩ := allGoOn mv _ m hm
      · exact ⟨m', hm', fares.isPast past⟩
      · exact ⟨m', hm', spends.isPast past⟩
    · exact isPast_of_drops tidy dropped

theorem tidy_play (feed : φ) (engine : Engine) (target : Target) (device : Device) (focus : Focus)
    (moves : List Move) : ((new feed engine target device focus).play moves).Tidy := by
  induction moves using List.reverseRecOn with
  | nil => exact ⟨fun w m hm => (by cases hm), fun l hl => (by cases hl)⟩
  | append_singleton moves mv ih =>
    rw [play_append]
    exact ih.move mv

/-- What is left over was dropped before by a worker that gave up its actions, or was taken away. -/
theorem exists_drop_of_leftover (feed : φ) (engine : Engine) (target : Target) (device : Device) (focus : Focus)
    (moves : List Move) :
    let c := new feed engine target device focus
    ∀ l ∈ (c.play moves).leftovers,
      ∃ early mv later, moves = early ++ mv :: later ∧ l ∈ (c.play early).drops mv := by
  intro c
  induction moves using List.reverseRecOn with
  | nil => exact fun l hl => by cases hl
  | append_singleton moves mv ih =>
    intro l hl
    rw [play_append] at hl
    rcases mem_leftovers_move (tidy_play feed engine target device focus moves) hl with old | dropped
    · obtain ⟨early, drop, later, rfl, dropped⟩ := ih l old
      exact ⟨early, drop, later ++ [mv], by simp, dropped⟩
    · exact ⟨moves, mv, [], rfl, dropped⟩

/-- What a move does to the grips and to the record of commands. -/
inductive Handled (c c' : Crew φ) : Prop where
  | same (sent : c'.sent = c.sent) (grips : c'.grips.Perm c.grips)
  /-- One action took something up or let it go with a command for it, or did neither. -/
  | act {shift : Shift} {now group position : Nat} {p p' : Progress} {exchange : Option Exchange}
      (rest : List Leftover) (polled : Progress.Polled c.device p p' exchange)
      (sent : c'.sent = c.sent ++ (Exchange.calls now group position exchange).map (Sent.mk shift))
      (before : c.grips.Perm (p.held?.toList.map (Leftover.mk shift group position) ++ rest))
      (after : c'.grips.Perm (p'.held?.toList.map (Leftover.mk shift group position) ++ rest))
      (free : ∀ l ∈ rest, p.held? = none → l.isAt shift position = false)

omit [Feed φ] in
theorem Handled.of_still (still : c' = c) : c.Handled c' :=
  .same (by rw [still]) (by rw [still])

omit [Feed φ] in
theorem handled_poll (tidy : c.Tidy) (worker position : Nat) : c.Handled (c.poll worker position) := by
  by_cases joins : ∃ b k accepting run ledger,
      c.members[worker]? = some ⟨b, k, .running (.joining accepting) run ledger⟩
  · obtain ⟨b, k, accepting, run, ledger, hm⟩ := joins
    cases hentry : run.entries[position]? with
    | none => exact .of_still (poll_of_none hm hentry)
    | some entry =>
      by_cases ready : entry.runnable c.now = true
      · rcases hpoll : entry.progress.poll c.device c.engine.attackMs c.now entry.action
          entry.cancelled with ⟨progress, exchange⟩
        rw [poll_of_ready hm hentry ready hpoll]
        have here : (c.members.mapIdx Member.leftovers)[worker]? = some (run.leftovers ⟨worker, k⟩) := by
          rw [List.getElem?_mapIdx, hm]
          rfl
        obtain ⟨others, elsewhere, before, after⟩ := exists_flatten_set here
        obtain ⟨rest, apart, before', after'⟩ :=
          Run.exists_leftovers_set ⟨worker, k⟩ hentry { entry with progress }
        refine .act (rest ++ (others ++ c.leftovers)) (Progress.poll_polled ready hpoll) rfl ?_ ?_
          fun l hl _ => ?_
        · rw [← List.append_assoc, ← List.append_assoc]
          exact (before.trans (before'.append_right _)).append_right _
        · rw [← List.append_assoc, ← List.append_assoc]
          refine List.Perm.append_right _ ?_
          simp only [setPost_members hm, List.mapIdx_set]
          exact (after _).trans (after'.append_right _)
        · rcases List.mem_append.1 hl with hl | hl
          · exact apart l hl
          · rcases List.mem_append.1 hl with hl | hl
            · obtain ⟨j, grips, other, hj, hl⟩ := elsewhere l hl
              rw [List.getElem?_mapIdx, Option.map_eq_some_iff] at hj
              obtain ⟨m, -, rfl⟩ := hj
              simp [Leftover.isAt, Member.shift_of_mem_leftovers hl, other]
            · obtain ⟨m, hm', past⟩ := tidy.past l hl
              by_contra same
              obtain ⟨same, -⟩ := Bool.and_eq_true_iff.1 (Bool.not_eq_false _ ▸ same)
              rw [beq_iff_eq.1 same, hm] at hm'
              cases hm'
              rw [beq_iff_eq.1 same] at past
              rcases past with lt | ⟨-, spent⟩
              · exact Nat.lt_irrefl _ lt
              · cases spent
      · exact .of_still (poll_of_unready hm hentry ready)
  · refine .of_still ?_
    unfold poll
    split
    · rename_i member
      exact absurd ⟨_, _, _, _, _, member⟩ joins
    · rfl

omit [Feed φ] in
theorem handled_letGo (index : Nat) : c.Handled (c.letGo index) := by
  unfold letGo
  split
  · exact .same rfl (.refl _)
  · rename_i l hl
    obtain ⟨lt, rfl⟩ := List.getElem?_eq_some_iff.1 hl
    have out := (List.getElem_cons_eraseIdx_perm lt).symm
    have released : Progress.Polled c.device (.holding c.leftovers[index].input 0) (.ended .cancelled)
      (some (.up c.leftovers[index].input, c.device.respond (.up c.leftovers[index].input))) := .release rfl
    refine .act ((c.members.mapIdx Member.leftovers).flatten ++ c.leftovers.eraseIdx index) released rfl ?_
      (.refl _) (by simp [Progress.held?])
    exact (out.append_left _).trans List.perm_middle

theorem handled_still (tidy : c.Tidy) {mv : Move} (still : mv.isStill = true) : c.Handled (c.move mv) := by
  have mild : mv.isMild = true := by
    cases mv with
    | letGo => cases still
    | _ => exact still
  obtain ⟨sent, leftovers⟩ := kept_move (c := c) still
  refine .same sent ?_
  rw [grips, grips, leftovers]
  refine .of_eq (congrArg (· ++ c.leftovers) (flatten_leftovers_of (fun w m hm => ?_) fun w m' hm hm' => ?_))
  · obtain ⟨m', hm', fares⟩ := fares_move mild w m hm
    exact ⟨m', hm', fares.leftovers (tidy.sound w m hm) w⟩
  · rcases hired_move hm mv with nobody | hired
    · cases nobody.symm.trans hm'
    · cases hired.symm.trans hm'
      rfl

theorem handled_move (tidy : c.Tidy) (mv : Move) : c.Handled (c.move mv) := by
  by_cases still : mv.isStill = true
  · exact handled_still tidy still
  · cases mv with
    | poll worker position => exact handled_poll tidy worker position
    | letGo index => exact handled_letGo index
    | giveUp worker =>
      rcases giveUp_cases tidy worker with ⟨still, -⟩ | ⟨m, m', hm, -, hands⟩
      · exact .of_still still
      · exact .same hands.sent (hands.grips hm)
    | abort worker =>
      rcases abort_cases (c := c) worker with ⟨still, -⟩ | ⟨m, m', hm, -, hands⟩
      · exact .of_still still
      · exact .same hands.sent (hands.grips hm)
    | _ => exact absurd rfl still

end Crew

end Combo
