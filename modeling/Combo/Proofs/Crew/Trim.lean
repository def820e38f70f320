-- SUMMARY: What was given up does not matter to the workers: without it a crew goes on alike, with one worker at a time as a single worker.
import Combo.Proofs.Crew.Mirror
import Combo.Proofs.Crew.Rounds

/-!
# Crews without what was given up

The actions that were given up keep the clock from going on and let go some time; else
nothing depends on them, and nothing on what was sent. `trim` leaves both away. With
it the view of a crew as a single worker reaches further: every move by which no worker is
hired before the last one has left leaves one worker at most, even if actions are
given up or the worker is taken away; and whatever happened before, an orderly
play is mirrored by a single worker from there on.
-/

namespace Combo

namespace Crew

variable {φ : Type} {c : Crew φ} {sent : List Sent}

/-- A crew without what was given up, and with another record of what was sent. -/
def trim (sent : List Sent) (c : Crew φ) : Crew φ := { c with leftovers := [], sent }

/-! ## Calls -/

theorem layer_trim (g : Group) : (c.trim sent).layer g = ((c.layer g).1.trim sent, (c.layer g).2) := by
  cases gate : c.board.gate with
  | none =>
    have gate' : (c.trim sent).board.gate = none := gate
    simp only [layer, gate, gate']
  | some worker =>
    have gate' : (c.trim sent).board.gate = some worker := gate
    cases token : c.board.token with
    | none =>
      have token' : (c.trim sent).board.token = none := token
      simp only [layer, gate, gate', token, token']
    | some shift =>
      have token' : (c.trim sent).board.token = some shift := token
      simp only [layer, gate, gate', token, token']
      have hm : (c.trim sent).members[worker]? = c.members[worker]? := rfl
      rw [hm]
      split
      · by_cases refused : (decide (c.board.phase ≠ .running) || c.isCancelled shift ||
            (c.needsFocus g && !c.board.focused)) = true
        · have refused' : (decide ((c.trim sent).board.phase ≠ .running) || (c.trim sent).isCancelled shift ||
              ((c.trim sent).needsFocus g && !(c.trim sent).board.focused)) = true := refused
          rw [if_pos refused, if_pos refused']
        · have refused' : ¬(decide ((c.trim sent).board.phase ≠ .running) || (c.trim sent).isCancelled shift ||
              ((c.trim sent).needsFocus g && !(c.trim sent).board.focused)) = true := refused
          rw [if_neg refused, if_neg refused']
          rfl
      · rfl

theorem serve_trim (r : Request) : (c.trim sent).serve r = ((c.serve r).1.trim sent, (c.serve r).2) := by
  cases r with
  | interruptAll => rfl
  | interruptConflicting g =>
    simp only [serve, interruptConflicting]
    by_cases phase : c.board.phase = .dequeuing
    · have phase' : (c.trim sent).board.phase = .dequeuing := phase
      rw [if_pos phase, if_pos phase']
      rfl
    · have phase' : ¬(c.trim sent).board.phase = .dequeuing := phase
      rw [if_neg phase, if_neg phase']
      rfl
  | layer g => simp only [serve, layer_trim]

/-! ## Moves -/

theorem seeToFocus_trim (worker : Nat) (run : Run) (ledger : Ledger) :
    (c.trim sent).seeToFocus worker run ledger = (c.seeToFocus worker run ledger).trim sent := by
  unfold seeToFocus
  by_cases active : c.focus.isActive = true
  · have active' : (c.trim sent).focus.isActive = true := active
    rw [if_pos active, if_pos active']
    rfl
  · have active' : ¬(c.trim sent).focus.isActive = true := active
    rw [if_neg active, if_neg active']
    rcases found : c.focus.activate with ⟨focus, _ | fault⟩ <;> simp only [trim, found] <;> rfl

theorem wait_trim (worker : Nat) (accepting : Bool) (run : Run) (ledger : Ledger) :
    (c.trim sent).wait worker accepting run ledger = (c.wait worker accepting run ledger).trim sent := by
  unfold wait
  by_cases receive : Member.canReceive accepting run ledger = true
  · rw [if_pos receive, if_pos receive]
    rfl
  · rw [if_neg receive, if_neg receive]
    cases accepting <;> rfl

/-- Whether two crews are the same but for the board, what was given up, and what was sent. -/
structure SameStaff (c c₁ : Crew φ) : Prop where
  now : c₁.now = c.now
  feed : c₁.feed = c.feed
  engine : c₁.engine = c.engine
  target : c₁.target = c.target
  device : c₁.device = c.device
  focus : c₁.focus = c.focus
  slot : c₁.slot = c.slot
  members : c₁.members = c.members

theorem SameStaff.refl (c : Crew φ) : c.SameStaff c := ⟨rfl, rfl, rfl, rfl, rfl, rfl, rfl, rfl⟩

theorem sameStaff_trim : c.SameStaff (c.trim sent) := ⟨rfl, rfl, rfl, rfl, rfl, rfl, rfl, rfl⟩

/-- A poll does the same whatever is on the board, and whatever was sent or given up before. -/
theorem exists_poll (c : Crew φ) (worker position : Nat) : ∃ members new, ∀ c₁ : Crew φ, c.SameStaff c₁ →
    c₁.poll worker position = { c₁ with members, sent := c₁.sent ++ new } := by
  have still (h : ∀ c₁ : Crew φ, c.SameStaff c₁ → c₁.poll worker position = c₁) :
      ∃ members new, ∀ c₁ : Crew φ, c.SameStaff c₁ →
        c₁.poll worker position = { c₁ with members, sent := c₁.sent ++ new } :=
    ⟨c.members, [], fun c₁ same => by rw [h c₁ same, ← same.members, List.append_nil]⟩
  by_cases joins : ∃ b k accepting run ledger,
      c.members[worker]? = some ⟨b, k, .running (.joining accepting) run ledger⟩
  · obtain ⟨b, k, accepting, run, ledger, hm⟩ := joins
    have there {c₁ : Crew φ} (same : c.SameStaff c₁) :
        c₁.members[worker]? = some ⟨b, k, .running (.joining accepting) run ledger⟩ := same.members ▸ hm
    cases hentry : run.entries[position]? with
    | none => exact still fun c₁ same => poll_of_none (there same) hentry
    | some entry =>
      by_cases ready : entry.runnable c.now = true
      · rcases hpoll : entry.progress.poll c.device c.engine.attackMs c.now entry.action entry.cancelled with
          ⟨progress, exchange⟩
        refine ⟨(c.setPost worker (.running (.joining accepting)
            { run with entries := run.entries.set position { entry with progress } } ledger)).members,
          (Exchange.calls c.now run.id position exchange).map (Sent.mk ⟨worker, k⟩), fun c₁ same => ?_⟩
        have hpoll' := same.device.symm ▸ same.engine.symm ▸ same.now.symm ▸ hpoll
        rw [poll_of_ready (there same) hentry (same.now ▸ ready) hpoll', setPost, setPost, same.members, same.now]
      · exact still fun c₁ same => poll_of_unready (there same) hentry (same.now ▸ ready)
  · refine still fun c₁ same => ?_
    unfold poll
    split
    · rename_i member
      exact absurd ⟨_, _, _, _, _, same.members ▸ member⟩ joins
    · rfl

theorem poll_trim (sent : List Sent) (worker position : Nat) :
    ∃ new, (c.poll worker position).sent = c.sent ++ new ∧
    (c.trim sent).poll worker position = (c.poll worker position).trim (sent ++ new) := by
  obtain ⟨members, new, polls⟩ := c.exists_poll worker position
  refine ⟨new, by rw [polls c (.refl c)], ?_⟩
  rw [polls c (.refl c), polls (c.trim sent) sameStaff_trim]
  rfl

theorem giveUp_of_not {worker : Nat} (h : c.members[worker]?.any (Member.canGiveUp c.now) = false) :
    c.giveUp worker = c := by
  unfold giveUp
  split
  · rename_i member
    refine if_neg fun due => ?_
    simp [member, Member.canGiveUp, due] at h
  · rfl

theorem abort_of_not {worker : Nat} (h : c.members[worker]?.any Member.isAbortable = false) :
    c.abort worker = c := by
  unfold abort
  split
  · rename_i m member
    refine if_neg fun kept => ?_
    simp [member, kept] at h
  · rfl

variable [Feed φ]

theorem ask_trim (worker : Nat) (b : Bool) : (c.trim sent).ask worker b = (c.ask worker b).trim sent := by
  unfold ask
  rcases next : Feed.next c.now c.feed with ⟨handout, feed⟩
  have next' : Feed.next (c.trim sent).now (c.trim sent).feed = (handout, feed) := next
  rw [next']
  cases handout <;> rfl

theorem work_trim (worker : Nat) : (c.trim sent).work worker = (c.work worker).trim sent := by
  cases hm : c.members[worker]? with
  | none =>
    have hm' : (c.trim sent).members[worker]? = none := hm
    simp only [work, hm, hm']
  | some m =>
    have hm' : (c.trim sent).members[worker]? = some m := hm
    by_cases ready : m.isReady c.now = true
    · have ready' : m.isReady (c.trim sent).now = true := ready
      simp only [work, hm, hm', if_pos ready, if_pos ready']
      obtain ⟨b, k, post⟩ := m
      cases post with
      | checking | sleeping due => cases b <;> rfl
      | asking => exact ask_trim worker b
      | running step run ledger =>
        cases step with
        | focusing => exact seeToFocus_trim worker run ledger
        | joining accepting => exact wait_trim worker accepting run ledger
        | settling | opening | closing => rfl
      | taken | reporting | crashed | gone => rfl
    · have ready' : ¬m.isReady (c.trim sent).now = true := ready
      simp only [work, hm, hm', if_neg ready, if_neg ready']

/-- Whether a move is not one of the actions that were given up, and does not wait for them. -/
def Move.isOwn (c : Crew φ) : Move → Bool
  | .letGo _ => false
  | .tick => c.isQuiet
  | .giveUp _ | .abort _ => false
  | _ => true

theorem exists_trim_move (sent : List Sent) {mv : Move} (own : mv.isOwn c = true) : ∃ new,
    (c.move mv).sent = c.sent ++ new ∧ (c.trim sent).move mv = (c.move mv).trim (sent ++ new) ∧
      (c.trim sent).notes mv = c.notes mv ∧ (c.trim sent).plainMove mv = c.plainMove mv := by
  have silent (still : mv.isStill = true) (trimmed : (c.trim sent).move mv = (c.move mv).trim sent)
      (notes : (c.trim sent).notes mv = c.notes mv) (plain : (c.trim sent).plainMove mv = c.plainMove mv) :
      ∃ new, (c.move mv).sent = c.sent ++ new ∧ (c.trim sent).move mv = (c.move mv).trim (sent ++ new) ∧
        (c.trim sent).notes mv = c.notes mv ∧ (c.trim sent).plainMove mv = c.plainMove mv :=
    ⟨[], by rw [(kept_move still).1, List.append_nil], by rw [trimmed, List.append_nil], notes, plain⟩
  cases mv with
  | letGo | giveUp | abort => cases own
  | poll worker position =>
    obtain ⟨new, grown, trimmed⟩ := poll_trim (c := c) sent worker position
    refine ⟨new, grown, trimmed, ?_, rfl⟩
    simp only [notes]
    rw [callsSince_of_append grown, callsSince_of_append (c := c.trim sent) (by rw [trimmed]; rfl)]
  | work worker => exact silent rfl (work_trim worker) rfl rfl
  | request r =>
    refine silent rfl (by simp only [move, serve_trim]) ?_ rfl
    cases r with
    | interruptAll | interruptConflicting g => rfl
    | layer g =>
      simp only [notes, layer_trim]
      rfl
  | tick =>
    have quiet : c.isQuiet = true := own
    have quiet' : (c.trim sent).isQuiet = true := by
      simpa [isQuiet, trim] using (Bool.and_eq_true_iff.1 quiet).2
    refine silent rfl ?_ rfl (by simp [plainMove, quiet, quiet'])
    simp only [move, tick, quiet, quiet', if_true]
    rfl
  | stop =>
    refine silent rfl ?_ rfl rfl
    simp only [move, stop]
    cases slot : c.slot with
    | none => simp only [trim, slot]
    | some worker =>
      simp only [trim, slot]
      rfl
  | start =>
    refine silent rfl ?_ rfl rfl
    simp only [move, start]
    cases slot : c.slot <;> simp only [trim, slot]
  | setFocus | setDevice => exact silent rfl rfl rfl rfl
  | closeLate worker | join worker _ | notice worker =>
    refine silent rfl ?_ rfl rfl
    simp only [move, closeLate, join, notice]
    have hm : (c.trim sent).members[worker]? = c.members[worker]? := rfl
    rw [hm]
    split
    · split <;> rfl
    · rfl

/-- A regular move is one of the workers or a call, or the workers are left as they are. -/
theorem isOwn_or_still (sent : List Sent) {mv : Move} (regular : c.isRegular mv = true) :
    mv.isOwn c = true ∨ ((c.move mv).trim sent = c.trim sent ∧ c.plainMove mv = [] ∧
      ∀ n ∈ c.notes mv, n.worker = none) := by
  cases mv with
  | letGo index =>
    refine .inr ⟨?_, rfl, fun n hn => ?_⟩
    · simp only [move, letGo]
      split <;> rfl
    · obtain ⟨e, -, rfl⟩ := List.mem_map.1 hn
      rfl
  | tick =>
    cases quiet : c.isQuiet with
    | true => exact .inl quiet
    | false => exact .inr ⟨by simp [move, tick, quiet], by simp [plainMove, quiet], by simp [notes]⟩
  | giveUp worker =>
    have still := giveUp_of_not (by simpa [isRegular] using regular)
    exact .inr ⟨by rw [move, still], rfl, by simp [notes]⟩
  | abort worker =>
    have calm : c.members[worker]?.any Member.isAbortable = false := by simpa [isRegular] using regular
    exact .inr ⟨by rw [move, abort_of_not calm], rfl, by simp [notes, calm]⟩
  | _ => exact .inl rfl

/-! ## One worker at a time -/

omit [Feed φ] in
/-- What was sent does not matter to whether there is one worker at a time. -/
theorem Lone.trim_trim {sent sent' : List Sent} (lone : (c.trim sent).Lone) : (c.trim sent').Lone := by
  cases lone with
  | none gone slot _ blank => exact .none gone slot rfl blank
  | one members gone slot _ fits => exact .one members gone slot rfl fits

/-- A move of the workers or a call is mirrored by a single worker, whatever was given up before. -/
theorem Lone.trim_mirrors_own (lone : (c.trim sent).Lone) {mv : Move} (regular : c.isRegular mv = true)
    (own : mv.isOwn c = true) : ∃ new, (c.move mv).sent = c.sent ++ new ∧
      ((c.move mv).trim (sent ++ new)).Lone ∧
      ((c.move mv).trim (sent ++ new)).single = (c.trim sent).single.play (c.plainMove mv) ∧
      ((c.notes mv).filter fun n => n.worker.isSome).map (·.event) =
        (c.trim sent).single.journal (c.plainMove mv) := by
  obtain ⟨new, grown, trimmed, notes, plain⟩ := exists_trim_move sent own
  have regular' : (c.trim sent).isRegular mv = true := by cases mv <;> exact regular
  obtain ⟨lone', single, events⟩ := lone.mirrors regular'
  rw [trimmed] at lone' single
  rw [plain] at single events
  refine ⟨new, grown, lone', single, ?_⟩
  have all : (c.notes mv).filter (fun n => n.worker.isSome) = c.notes mv := by
    refine List.filter_eq_self.2 fun n hn => ?_
    cases about : n.worker with
    | some w => rfl
    | none =>
      obtain ⟨l, hl, -⟩ := exists_leftover_of_notes (c := c.trim sent) (notes ▸ hn) about
      cases hl
  rw [all, ← notes, events]

/-- A regular move is mirrored by a single worker, whatever was given up before. -/
theorem Lone.trim_mirrors (lone : (c.trim sent).Lone) {mv : Move} (regular : c.isRegular mv = true) :
    ∃ sent', ((c.move mv).trim sent').Lone ∧
      ((c.move mv).trim sent').single = (c.trim sent).single.play (c.plainMove mv) ∧
      ((c.notes mv).filter fun n => n.worker.isSome).map (·.event) =
        (c.trim sent).single.journal (c.plainMove mv) := by
  rcases isOwn_or_still sent regular with own | ⟨still, plain, unseen⟩
  · obtain ⟨new, -, lone', mirrored⟩ := lone.trim_mirrors_own regular own
    exact ⟨sent ++ new, lone', mirrored⟩
  · refine ⟨sent, still ▸ lone, by rw [still, plain]; rfl, ?_⟩
    have none : (c.notes mv).filter (fun n => n.worker.isSome) = [] :=
      List.filter_eq_nil_iff.2 fun n hn => by simp [unseen n hn]
    rw [none, plain]
    rfl

/-- An orderly play is mirrored by a single worker, whatever was given up before. -/
theorem Lone.trim_play (lone : (c.trim sent).Lone) {moves : List Move} (orderly : c.Orderly moves) :
    ∃ sent', ((c.play moves).trim sent').Lone ∧
      ((c.play moves).trim sent').single = (c.trim sent).single.play (c.plain moves) ∧
      c.seen Option.isSome moves = (c.trim sent).single.journal (c.plain moves) := by
  induction moves generalizing c sent with
  | nil => exact ⟨sent, lone, rfl, rfl⟩
  | cons mv moves ih =>
    obtain ⟨sent₁, lone₁, single₁, events⟩ := lone.trim_mirrors orderly.1
    obtain ⟨sent', lone', single, journal⟩ := ih lone₁ orderly.2
    refine ⟨sent', lone', ?_, ?_⟩
    · rw [play_cons, single, single₁, plain_cons, Clockwork.play_append]
    · rw [plain_cons, Clockwork.journal_append, ← events, ← single₁, ← journal]
      simp [seen]

/-! ## Giving up -/

omit [Feed φ] in
/-- What is given up of a cancelled run is cancelled. -/
theorem coherent_giveUp {run : Run} (coherent : run.Coherent) (cancelled : run.cancelled = true)
    (ledger : Ledger) : (run.giveUp ledger).Coherent := by
  intro _ e he
  obtain ⟨i, lt, rfl⟩ := List.mem_mapIdx.1 he
  have kept := coherent cancelled _ (List.getElem_mem lt)
  unfold Entry.giveUp
  split <;> exact kept

omit [Feed φ] in
/-- The board still fits a worker that has given up its actions. -/
theorem shows_giveUp {board : Board} {b : Bool} {own : Shift} {accepting : Bool} {run : Run} {ledger : Ledger}
    (shows : board.Shows b own (.joining accepting) run ledger) (due : ledger.deadline.isSome = true) :
    ({ board with gate := none } : Board).Shows b own (.closing none) (run.giveUp ledger) ledger := by
  have cancelled := shows.noticed due
  have coherent := coherent_giveUp shows.coherent cancelled ledger
  exact
    { phase := shows.phase
      guests := shows.guests
      stopped := shows.stopped
      coherent
      listings := by
        have free : board.listings = [] :=
          shows.listings.trans (Run.shown_of_cancelled shows.coherent cancelled)
        rw [Run.shown_of_cancelled coherent cancelled]
        exact free
      token := shows.token
      current := by
        have gone : board.current = none := by rw [shows.current, if_pos cancelled]
        rw [if_pos (show (run.giveUp ledger).cancelled = true from cancelled)]
        exact gone
      noticed := shows.noticed
      gate := fun opened => nomatch opened }

omit [Feed φ] in
/-- A worker that is told to stop has cleared the board. -/
theorem isBlank_of_told {board : Board} {w : Nat} {m : Member} (fits : board.Fits w m)
    (kept : m.isAbortable = true) : board.IsBlank := by
  obtain ⟨b, k, post⟩ := m
  obtain ⟨rfl, kept⟩ := Bool.and_eq_true_iff.1 kept
  cases post with
  | checking | sleeping due => exact fits
  | running step run ledger =>
    have shows : board.Shows true ⟨w, k⟩ step run ledger := fits
    have cancelled := shows.stopped rfl
    exact ⟨by rw [shows.listings, Run.shown_of_cancelled shows.coherent cancelled],
      by rw [shows.token, if_pos cancelled], by rw [shows.current, if_pos cancelled]⟩
  | _ => cases kept

/-- A worker that is there is the last one, when all before it have left. -/
theorem eq_last_of_there {old : List Member} {m m' : Member} {w : Nat} (gone : ∀ o ∈ old, o.post = .gone)
    (member : (old ++ [m])[w]? = some m') (there : m'.post ≠ .gone) : w = old.length ∧ m' = m := by
  rw [List.getElem?_append] at member
  split at member
  · exact absurd (gone m' (List.mem_of_getElem? member)) there
  · obtain ⟨lt, rfl⟩ := List.getElem?_eq_some_iff.1 member
    simp only [List.length_singleton] at lt
    obtain rfl : w = old.length := by omega
    exact ⟨rfl, by simp⟩

omit [Feed φ] in
/-- Of two workers that are there each is the other. -/
theorem Lone.unique {w w' : Nat} {m m' : Member} (lone : (c.trim sent).Lone) (hm : c.members[w]? = some m)
    (there : m.post ≠ .gone) (hm' : c.members[w']? = some m') (there' : m'.post ≠ .gone) : w = w' ∧ m = m' := by
  cases lone with
  | none gone => exact absurd (gone m (List.mem_of_getElem? hm)) there
  | @one old last members gone =>
    have members : c.members = old ++ [last] := members
    obtain ⟨rfl, rfl⟩ := eq_last_of_there gone (members ▸ hm) there
    obtain ⟨rfl, rfl⟩ := eq_last_of_there gone (members ▸ hm') there'
    exact ⟨rfl, rfl⟩

omit [Feed φ] in
theorem Lone.giveUp (lone : (c.trim sent).Lone) (worker : Nat) : ((c.giveUp worker).trim sent).Lone := by
  unfold Crew.giveUp
  split
  · rename_i b k accepting run ledger member
    split
    · rename_i due
      cases lone with
      | none gone => cases gone _ (List.mem_of_getElem? member)
      | @one old m members gone slot _ fits =>
        have members : c.members = old ++ [m] := members
        obtain ⟨rfl, rfl⟩ := eq_last_of_there gone (members ▸ member) (by simp)
        refine .one (m := ⟨b, k, .running (.closing Option.none) (run.giveUp ledger) ledger⟩) ?_ gone slot rfl
          (shows_giveUp fits (by cases h : ledger.deadline <;> simp_all))
        refine (congrArg (List.modify · old.length _) members).trans ?_
        exact modify_seat (c := c) _
    · exact lone
  · exact lone

omit [Feed φ] in
theorem Lone.abort (lone : (c.trim sent).Lone) (worker : Nat) : ((c.abort worker).trim sent).Lone := by
  unfold Crew.abort
  split
  · rename_i m' member
    split
    · rename_i kept
      cases lone with
      | none gone => simp [Member.isAbortable, gone _ (List.mem_of_getElem? member)] at kept
      | @one old m members gone slot _ fits =>
        have members : c.members = old ++ [m] := members
        obtain ⟨rfl, rfl⟩ := eq_last_of_there gone (members ▸ member) fun left => by
          simp [Member.isAbortable, left] at kept
        refine .none ?_ ?_ rfl (isBlank_of_told fits kept)
        · intro o ho
          have left : (c.setPost old.length .gone).members = old ++ [{ m' with post := .gone }] :=
            (congrArg (List.modify · old.length _) members).trans (modify_seat (c := c) _)
          have ho : o ∈ (c.setPost old.length .gone).members := ho
          rw [left] at ho
          rcases List.mem_append.1 ho with ho | ho
          · exact gone o ho
          · rw [List.mem_singleton.1 ho]
        · have slot : c.slot = if m'.stopping then Option.none else some old.length := slot
          have told : m'.stopping = true := (Bool.and_eq_true_iff.1 kept).1
          rw [told, if_pos rfl] at slot
          exact slot
    · exact lone
  · exact lone

/-- A move with which no worker is hired before the last one has left leaves one worker at most. -/
theorem Lone.trim_move (lone : (c.trim sent).Lone) {mv : Move} (next : c.isSuccessive mv = true) :
    ((c.move mv).trim sent).Lone := by
  by_cases irregular : (∃ worker, mv = .giveUp worker) ∨ ∃ worker, mv = .abort worker
  · rcases irregular with ⟨worker, rfl⟩ | ⟨worker, rfl⟩
    · exact lone.giveUp worker
    · exact lone.abort worker
  · have regular : c.isRegular mv = true := by
      cases mv with
      | giveUp worker => exact absurd (.inl ⟨worker, rfl⟩) irregular
      | abort worker => exact absurd (.inr ⟨worker, rfl⟩) irregular
      | _ => exact next
    obtain ⟨sent', lone', -⟩ := lone.trim_mirrors regular
    exact lone'.trim_trim

theorem Lone.successive_play (lone : (c.trim sent).Lone) {moves : List Move} (successive : c.Successive moves) :
    ((c.play moves).trim sent).Lone := by
  induction moves generalizing c with
  | nil => exact lone
  | cons mv moves ih => exact ih (lone.trim_move successive.1) successive.2

theorem lone_play (feed : φ) (engine : Engine) (target : Target) (device : Device) (focus : Focus)
    (moves : List Move) (successive : (new feed engine target device focus).Successive moves) (sent : List Sent) :
    (((new feed engine target device focus).play moves).trim sent).Lone :=
  have first : ((new feed engine target device focus).trim sent).Lone :=
    .none (fun _ h => by cases h) rfl rfl ⟨rfl, rfl, rfl⟩
  first.successive_play successive

end Crew

end Combo
