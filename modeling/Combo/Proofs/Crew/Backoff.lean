-- SUMMARY: With one worker at a time, a group whose window cannot be activated is reported as failed without having begun, and the next group is asked for when the rest is over.
import Combo.Proofs.Clockwork.Backoff
import Combo.Proofs.Crew.Sight

/-!
# A crew after a look that failed

What `Clockwork.BacksOff` says of a single worker holds with one worker at a time, whatever is given up. To come
to the next group the worker needs time, and time passes only when every action that was given up has let go;
`asks_of_sleeping` lets them do so, waits, and asks.
-/

namespace Combo

namespace Crew

variable {φ : Type} [Feed φ] {c : Crew φ} {w k due : Nat} {es : List Event}

theorem keeps_unseen : Keeps (fun j (s : Clockwork φ) => s.Unseen j) True where
  blind := fun _ h => ⟨h.taken, h.focusing⟩
  move := fun {_ s m} h _ _ => (Clockwork.turn_move (s := s) m).unseen h
  giveUp := fun _ _ _ _ _ => ⟨fun _ _ _ hw => (by cases hw), fun _ ⟨_, hw⟩ => (by cases hw)⟩
  abort := fun _ _ => ⟨fun _ _ _ hw => (by cases hw), fun _ ⟨_, hw⟩ => (by cases hw)⟩

theorem keeps_backsOff {run : Run} {fault : InputError} {failed backoffMs : Nat} {told : Prop}
    (rest : due = failed + backoffMs) :
    Keeps (fun j (s : Clockwork φ) => Clockwork.BacksOff run fault failed due told j s ∧
      s.executor.engine.backoffMs = backoffMs) told where
  blind := fun calls h => ⟨h.1.blind calls, h.2⟩
  move := fun {_ s m} h there stop =>
    ⟨h.1.move there (h.2.symm ▸ rest) stop, by rw [Clockwork.engine_move]; exact h.2⟩
  giveUp := fun _ h hw _ _ => ⟨h.1.giveUp hw _, h.2⟩
  abort := fun h hw => ⟨h.1.abort hw, h.2⟩

/-- After a look that failed the worker is on its path back to the next group. -/
theorem Lone.backsOff {b : Bool} {run : Run} {ledger : Ledger} {fault : InputError} {told : Prop}
    (lone : (c.trim c.sent).Lone) (hm : c.members[w]? = some ⟨b, k, .running .focusing run ledger⟩)
    (unbegun : run.IsUnbegun) (failed : c.focus.sight = .failed fault) {later : List Move}
    (successive : (c.move (.work w)).Successive later) (now : b = true → told) (stop : .stop ∈ later → told) :
    Clockwork.BacksOff run fault c.now (c.now + c.engine.backoffMs) told
      ((c.move (.work w)).seen Option.isSome later) ((c.move (.work w)).play later).single := by
  have plain : c.plainMove (.work w) = [.work] := by
    simp [plainMove, plainWork, hm, Member.isReady, Member.stepReady]
  obtain ⟨lone', single⟩ := lone.single_move rfl plain
  have first := Clockwork.backsOff_of_look unbegun (lone.worker hm (by simp)) failed now
  rw [← single] at first
  have engine : (c.move (.work w)).engine = c.engine := (settings_move c _).1
  exact ((keeps_backsOff rfl).play lone' ⟨first, congrArg Engine.backoffMs engine⟩ successive stop).1

/-! ## To the next group -/

/-- Whether a move is a step of a worker, a letting go, or the passing of time. -/
def Move.isOnward : Move → Bool
  | .work _ | .letGo _ | .tick => true
  | _ => false

/-- Whether steps, lettings go and time alone lead to where some events were seen and a group is asked for. -/
def Asks (c : Crew φ) (due : Nat) (es : List Event) : Prop :=
  ∃ moves handout, (∀ mv ∈ moves, mv.isOnward = true) ∧ c.seen Option.isSome moves = es ++ [.asked due handout]

theorem Asks.of_move (mv : Move) {es₁ : List Event} (onward : mv.isOnward = true)
    (seen : ((c.notes mv).filter fun n => n.worker.isSome).map (·.event) = es₁) (asks : (c.move mv).Asks due es) :
    c.Asks due (es₁ ++ es) := by
  obtain ⟨moves, handout, onwards, rest⟩ := asks
  refine ⟨mv :: moves, handout, List.forall_mem_cons.2 ⟨onward, onwards⟩, ?_⟩
  rw [List.append_assoc, ← rest, ← seen]
  simp [Crew.seen]

theorem Asks.of_silent (mv : Move) (onward : mv.isOnward = true)
    (silent : ((c.notes mv).filter fun n => n.worker.isSome).map (·.event) = []) (asks : (c.move mv).Asks due es) :
    c.Asks due es :=
  .of_move mv onward silent asks

/-- Whether a worker stands somewhere and all others have left. -/
structure Alone (c : Crew φ) (w : Nat) (m : Member) : Prop where
  here : c.members[w]? = some m
  others : ∀ (w' : Nat) (m' : Member), c.members[w']? = some m' → w' ≠ w → m'.post = .gone

omit [Feed φ] in
theorem Alone.of_setPost {c' : Crew φ} {b : Bool} {post post' : Post} (alone : c.Alone w ⟨b, k, post⟩)
    (members : c'.members = (c.setPost w post').members) : c'.Alone w ⟨b, k, post'⟩ where
  here := by simp [members, setPost, alone.here]
  others := fun w' m' hm' other => by
    simp only [members, setPost, List.getElem?_modify, if_neg other.symm, Option.map_eq_map, Option.map_id'] at hm'
    exact alone.others w' m' hm' other

omit [Feed φ] in
theorem Lone.alone {m : Member} {sent : List Sent} (lone : (c.trim sent).Lone) (hm : c.members[w]? = some m)
    (there : m.post ≠ .gone) : c.Alone w m where
  here := hm
  others := fun w' m' hm' other => by
    by_contra there'
    exact other (lone.unique hm there hm' there').1.symm

omit [Feed φ] in
/-- What nothing is left over of is quiet while its worker has nothing to do. -/
theorem Alone.isQuiet {m : Member} (alone : c.Alone w m) (free : c.leftovers = []) (idle : m.isBusy c.now = false) :
    c.isQuiet = true := by
  simp only [Crew.isQuiet, free, List.isEmpty_nil, Bool.true_and, List.all_eq_true, Bool.not_eq_true']
  intro m' hm'
  obtain ⟨w', hw'⟩ := List.mem_iff_getElem?.1 hm'
  by_cases same : w' = w
  · subst same
    cases alone.here.symm.trans hw'
    exact idle
  · simp [Member.isBusy, Member.isReady, Member.canNotice, Member.canGiveUp, Member.runnable?, Member.joinable?,
      alone.others w' m' hw' same]

/-- What was given up can let go first. -/
theorem asks_of_free (free : ∀ c' : Crew φ, c'.members = c.members → c'.now = c.now → c'.leftovers = [] →
    c'.Asks due es) : c.Asks due es := by
  induction hn : c.leftovers.length generalizing c with
  | zero => exact free c rfl rfl (List.length_eq_zero_iff.1 hn)
  | succ n ih =>
    cases left : c.leftovers with
    | nil => simp [left] at hn
    | cons l rest =>
      have unseen : ((c.notes (.letGo 0)).filter fun n => n.worker.isSome).map (·.event) = [] := by
        simp [notes, Function.comp_def, List.filter_map]
      have goes : (c.move (.letGo 0)).members = c.members ∧ (c.move (.letGo 0)).now = c.now ∧
          (c.move (.letGo 0)).leftovers = rest := by
        simp [move, letGo, left]
      obtain ⟨members, now, leftovers⟩ := goes
      refine .of_silent _ rfl unseen (ih (fun c' members' now' => ?_) ?_)
      · exact free c' (members'.trans members) (now'.trans now)
      · rw [leftovers]
        simpa [left] using hn

theorem asks_of_asking {b : Bool} (hm : c.members[w]? = some ⟨b, k, .asking⟩) (now : c.now = due) :
    c.Asks due [] := by
  refine ⟨[.work w], (Feed.next c.now c.feed).1, by simp [Move.isOnward], ?_⟩
  simp [Crew.seen, notes, workEvents, hm, now]

/-- A worker that rests and was not told to stop asks for a group when the rest is over. -/
theorem asks_of_sleeping (alone : c.Alone w ⟨false, k, .sleeping due⟩) (early : c.now ≤ due) : c.Asks due [] := by
  refine asks_of_free fun c' members now free => ?_
  have alone : c'.Alone w ⟨false, k, .sleeping due⟩ := ⟨members ▸ alone.here, members ▸ alone.others⟩
  rw [← now] at early
  clear members now
  -- a millisecond at a time
  induction hn : due - c'.now generalizing c' with
  | zero =>
    have now : c'.now = due := by omega
    have ready : Member.isReady c'.now ⟨false, k, .sleeping due⟩ = true := by simp [Member.isReady, now]
    have begins : c'.move (.work w) =
        { c'.setPost w .asking with board := { c'.board with phase := .dequeuing, deferred := {} } } := by
      simp [move, work, alone.here, ready, beginRound]
    refine .of_silent (.work w) rfl (by simp [notes, workEvents, alone.here]) ?_
    rw [begins]
    exact asks_of_asking (alone.of_setPost rfl).here now
  | succ n ih =>
    have idle : Member.isBusy c'.now ⟨false, k, .sleeping due⟩ = false := by
      have late : ¬due ≤ c'.now := by omega
      simp [Member.isBusy, Member.isReady, Member.canNotice, Member.canGiveUp, Member.runnable?, Member.joinable?,
        late]
    have ticks : c'.move .tick = { c' with now := c'.now + 1 } := if_pos (alone.isQuiet free idle)
    refine .of_silent .tick rfl rfl ?_
    rw [ticks]
    exact ih { c' with now := c'.now + 1 } (show c'.now + 1 ≤ due by omega) free ⟨alone.here, alone.others⟩
      (show due - (c'.now + 1) = n by omega)

/-- A worker that is to report a fault does so, rests, and asks for a group. -/
theorem asks_of_reporting {report : Report} (alone : c.Alone w ⟨false, k, .reporting report true⟩) :
    c.Asks (c.now + c.engine.backoffMs) [.reported report] := by
  have hands : c.move (.work w) = { c with feed := Feed.complete report c.feed }.setPost w
      (.sleeping (c.now + c.engine.backoffMs)) := by
    simp [move, work, alone.here, Member.isReady, handIn]
  have asks : (c.move (.work w)).Asks (c.now + c.engine.backoffMs) [] := by
    rw [hands]
    exact asks_of_sleeping (alone.of_setPost rfl) (Nat.le_add_right _ _)
  have seen : ((c.notes (.work w)).filter fun n => n.worker.isSome).map (·.event) = [.reported report] := by
    simp [notes, workEvents, alone.here]
  exact .of_move (.work w) rfl seen asks

theorem asks_of_closing {fault : InputError} {run : Run} {ledger : Ledger}
    (alone : c.Alone w ⟨false, k, .running (.closing (some fault)) run ledger⟩) :
    c.Asks (c.now + c.engine.backoffMs) [.reported run.report] := by
  have closes : c.move (.work w) = { c.setPost w (.reporting run.report true) with board := c.board.wiped } := by
    simp [move, work, alone.here, Member.isReady, Member.stepReady, stepRun]
  have asks : (c.move (.work w)).Asks (c.now + c.engine.backoffMs) [.reported run.report] := by
    rw [closes]
    exact asks_of_reporting (alone.of_setPost rfl)
  exact .of_silent (.work w) rfl (by simp [notes, workEvents, alone.here]) asks

/-- A worker that nobody tells to stop can always go on from a look that failed to the next group. -/
theorem Lone.asks {run : Run} {fault : InputError} {failed : Nat} {j : List Event} (lone : (c.trim c.sent).Lone)
    (path : Clockwork.BacksOff run fault failed due False j c.single) (rest : due = failed + c.engine.backoffMs) :
    ∃ moves report handout after, (∀ mv ∈ moves, mv.isOnward = true) ∧ report.IsUnfocused run fault.message ∧
      j ++ c.seen Option.isSome moves = .reported report :: .asked due handout :: after := by
  have awake {b : Bool} {stage : Stage} (hw : c.single.executor.worker = some ⟨b, stage⟩)
      (told : b = true → False) :
      ∃ (w k : Nat) (post : Post), c.Alone w ⟨false, k, post⟩ ∧ post.stage? c.board.deferred = some stage := by
    cases b with
    | true => exact (told rfl).elim
    | false =>
      obtain ⟨w, k, post, hm, posted⟩ := exists_member_of_worker hw
      exact ⟨w, k, post, lone.alone hm (by rintro rfl; cases posted), posted⟩
  cases path with
  | closing hw tells now told =>
    obtain ⟨w, k, post, alone, posted⟩ := awake hw told
    cases post <;> cases posted
    obtain rfl : due = c.now + c.engine.backoffMs := by rw [rest, ← now]; rfl
    obtain ⟨moves, handout, onward, seen⟩ := asks_of_closing alone
    exact ⟨moves, _, handout, [], onward, tells, seen⟩
  | reporting hw tells now told =>
    obtain ⟨w, k, post, alone, posted⟩ := awake hw told
    cases post <;> cases posted
    obtain rfl : due = c.now + c.engine.backoffMs := by rw [rest, ← now]; rfl
    obtain ⟨moves, handout, onward, seen⟩ := asks_of_reporting alone
    exact ⟨moves, _, handout, [], onward, tells, seen⟩
  | sleeping hw tells early told =>
    obtain ⟨w, k, post, alone, posted⟩ := awake hw told
    cases post <;> cases posted
    obtain ⟨moves, handout, onward, seen⟩ := asks_of_sleeping alone early
    exact ⟨moves, _, handout, [], onward, tells, by rw [seen]; rfl⟩
  | asking hw tells now told =>
    obtain ⟨w, k, post, alone, posted⟩ := awake hw told
    cases post <;> cases posted
    obtain ⟨moves, handout, onward, seen⟩ := asks_of_asking alone.here now
    exact ⟨moves, _, handout, [], onward, tells, by rw [seen]; rfl⟩
  | asked tells => exact ⟨[], _, _, _, by simp, tells, List.append_nil _⟩
  | left _ told | lost told | lostLater _ told => exact told.elim

end Crew

end Combo
