-- SUMMARY: Runs of an environment in which others may make any call to the executor, also between the two calls of a script.
import Combo.Proofs.Clockwork.Handout
import Combo.Proofs.Environment.Incident

/-!
# Encounters

`undergo` leaves layering to the queue. Here an incident is faced with everything
else allowed: any move may be made, and while the queue takes in a script any move
that does not reach for the locked queue. What is said of all rows of incidents
that are faced holds whoever has hold of the executor. The moments between the
two calls of a script are moments between incidents, `exists_faceAll_gap`.

`face_keeps` is the principle for all invariants: moves keep them, changes of the
queue that leave what is outstanding keep them, and dropping all work does.
-/

namespace Combo

namespace Environment

/-! ## Runs -/

/-- Whether a move can be made by anyone while the queue takes in a script. -/
def isUnlocked (e : Environment) (m : Move) : Bool := m.isLayering || e.isFree m

/-- Makes a move if the lock of the queue does not keep it from being made. -/
def moveUnlocked (e : Environment) (m : Move) : Environment := if e.isUnlocked m then e.move m else e

/-- Makes moves one after another while the queue is locked. -/
def playUnlocked (e : Environment) (moves : List Move) : Environment := moves.foldl moveUnlocked e

/-- The environment after the interrupt of a merge and what anyone does before its second call. -/
def gap (e : Environment) (g : Group) (between : List Move) : Environment :=
  playUnlocked (e.move (.request (.interruptConflicting g))) between

/-- An environment whose queue is about to call the executor. -/
structure Gap where
  system : Environment
  /-- What happens after the interrupt of a merge. -/
  between : List Move

instance : Control Gap where
  interruptAll m :=
    ({ m with system := m.system.move (.request .interruptAll) },
      m.system.executor.interruptAll.2)
  interruptConflicting g m :=
    ({ m with system := m.system.gap g m.between }, (m.system.executor.interruptConflicting g).2)
  layer g m :=
    ({ m with system := m.system.move (.request (.layer g)) }, (m.system.executor.layer g).2)

/-- The environment after an incident, whoever makes the moves of it. -/
def face (e : Environment) : Incident → Environment
  | .add script between =>
    let (_, feed, gap) := e.feed.add e.now script ({ system := e, between } : Gap)
    { gap.system with feed }
  | .clear => e.clear
  | .resetErrors => e.resetErrors
  | .stopQueue =>
    let (feed, executor) := e.feed.stop e.executor
    { e with feed, executor }
  | .move m => e.move m

/-- The environment after many incidents, one after another. -/
def faceAll (e : Environment) (incidents : List Incident) : Environment := incidents.foldl face e

theorem faceAll_append_singleton (e : Environment) (incidents : List Incident)
    (incident : Incident) :
    e.faceAll (incidents ++ [incident]) = (e.faceAll incidents).face incident := by
  simp [faceAll]

/-- Whether all moves made in the course of an incident are of some sort. -/
def Incident.Within (sort : Move → Prop) : Incident → Prop
  | .add _ between => ∀ m ∈ between, sort m
  | .move m => sort m
  | .clear | .resetErrors | .stopQueue => True

/-- Whether all work is dropped in an incident. -/
def Incident.drops : Incident → Bool
  | .clear | .stopQueue => true
  | .add _ _ | .resetErrors | .move _ => false

variable {e e' : Environment} {es : List Event}

/-! ## What an incident comes to -/

theorem moveUnlocked_feed (e : Environment) (m : Move) : (e.moveUnlocked m).feed = e.feed := by
  unfold moveUnlocked
  split
  · rename_i unlocked
    by_cases layering : m.isLayering = true
    · cases m with
      | request r =>
          cases r with
          | layer g => rfl
          | interruptAll | interruptConflicting g => cases layering
      | _ => cases layering
    · have free : e.isFree m = true := by simpa [isUnlocked, layering] using unlocked
      have := moveFree_feed e m
      rwa [moveFree, if_pos free] at this
  · rfl

theorem playUnlocked_feed (e : Environment) (moves : List Move) :
    (e.playUnlocked moves).feed = e.feed := by
  induction moves generalizing e with
  | nil => rfl
  | cons m moves ih => exact (ih (e.moveUnlocked m)).trans (moveUnlocked_feed e m)

theorem gap_feed (e : Environment) (g : Group) (between : List Move) :
    (e.gap g between).feed = e.feed :=
  playUnlocked_feed _ between

/-- The calls with which room is made for a script, and what happens between them. -/
theorem makeRoom_gap_cases (q : Queue) (groups : List Group) (m : Gap) :
    q.makeRoom groups m = (m, false) ∨
    q.makeRoom groups m = ({ m with system := m.system.move (.request .interruptAll) }, false) ∨
    ∃ first rest, groups = first :: rest ∧
      let e := m.system.gap first m.between
      q.makeRoom groups m =
        ({ m with system := e.move (.request (.layer first)) }, (e.executor.layer first).2) := by
  unfold Queue.makeRoom
  split
  · exact .inl rfl
  · split
    · exact .inr (.inl rfl)
    · exact .inr (.inr ⟨_, _, rfl, rfl⟩)
    · exact .inl rfl

/-- To take in a script leaves the numbers of the outstanding groups as they are. -/
theorem accept_ids (q : Queue) (now : Nat) (script : String) (groups : List Group) (layered : Bool) :
    (q.accept now script groups layered).running.map (·.id) = q.running.map (·.id) := by
  cases layered with
  | false => rfl
  | true =>
      rcases List.eq_nil_or_concat q.running with hnil | ⟨before, o, hconcat⟩
      · simp [Queue.accept, Queue.mergeIntoLast, Queue.mapLast, hnil]
      · simp only [Queue.accept, if_true, hconcat, List.concat_eq_append,
          Queue.mergeIntoLast_append_singleton, List.map_append, List.map_cons, List.map_nil]

section Keeps

variable {P : Environment → Prop} {sort : Move → Prop} (calls : ∀ r, sort (.request r))
  (moves : ∀ e m, sort m → P e → P (Clockwork.move e m))
  (takes : ∀ (e : Environment) (q : Queue), q.running.map (·.id) = e.feed.running.map (·.id) →
    q.engine = e.feed.engine → P e → P { e with feed := q })
include calls moves takes

/-- What all moves and all changes that leave what is outstanding keep, an incident keeps that drops nothing. -/
theorem face_keeps_of_kept (h : P e) (incident : Incident) (within : incident.Within sort)
    (kept : incident.drops = false) : P (e.face incident) := by
  have played : ∀ (between : List Move) (s : Environment), (∀ m ∈ between, sort m) → P s →
      P (s.playUnlocked between) := by
    intro between s hall hs
    refine List.foldlRecOn between moveUnlocked hs fun s hs m hm => ?_
    unfold moveUnlocked
    split
    · exact moves s m (hall m hm) hs
    · exact hs
  cases incident with
  | move m => exact moves e m within h
  | clear | stopQueue => cases kept
  | resetErrors => exact takes e _ rfl rfl h
  | add script between =>
      rcases Queue.add_cases e.now script e.feed ({ system := e, between } : Gap) with
        ⟨fault, errors, heq⟩ | ⟨groups, open_, hcheck, heq⟩
      · simp only [face, heq]
        exact takes e _ rfl rfl h
      · simp only [face, heq]
        have ids := accept_ids e.feed e.now script groups
        rcases makeRoom_gap_cases e.feed groups ⟨e, between⟩ with
          room | room | ⟨first, rest, -, room⟩ <;> rw [room]
        · exact takes e _ (ids _) rfl h
        · exact takes (e.move (.request .interruptAll)) _ (ids _) rfl (moves e _ (calls _) h)
        · have hfeed : (Clockwork.move (e.gap first between) (.request (.layer first))).feed =
              e.feed := gap_feed e first between
          refine takes (Clockwork.move (e.gap first between) (.request (.layer first))) _ ?_ ?_
            (moves _ _ (calls _) (played between _ within (moves e _ (calls _) h)))
          · rw [hfeed]
            exact ids _
          · rw [hfeed]
            rfl

/-- What dropping all work keeps besides, every incident keeps. -/
theorem face_keeps
    (drops : ∀ (e : Environment) (q : Queue), q.running = [] → q.engine = e.feed.engine → P e →
      P { e with feed := q, executor := (e.feed.dropWork e.executor).2 })
    (h : P e) (incident : Incident) (within : incident.Within sort) : P (e.face incident) := by
  cases kept : incident.drops with
  | false => exact face_keeps_of_kept calls moves takes h incident within kept
  | true =>
      cases incident with
      | clear => exact drops e _ rfl rfl h
      | stopQueue => exact drops e _ rfl rfl h
      | add | resetErrors | move => cases kept

end Keeps

/-- What each incident of some row keeps holds after all of them. -/
theorem faceAll_keeps {P : Environment → Prop} {incidents : List Incident} (h : P e)
    (step : ∀ e incident, incident ∈ incidents → P e → P (e.face incident)) :
    P (e.faceAll incidents) :=
  List.foldlRecOn incidents face h fun e he incident hi => step e incident hi he

theorem Incident.within_true (incident : Incident) : incident.Within fun _ => True := by
  cases incident <;> simp [Incident.Within]

/-- Whatever the worker does, the settings of the queue stay what they were. -/
theorem engine_turn (turn : Clockwork.Turn e es e') : e'.feed.engine = e.feed.engine := by
  cases turn.group with
  | stay _ _ _ feed | idle _ _ _ feed | lost _ _ feed => rw [feed]
  | handed t _ _ _ feed => rw [(Queue.feedNext_group feed).2]
  | returned report _ _ _ feed =>
      rw [feed]
      exact (Queue.complete_pending e.feed report).2.2.2
  | missed handout _ _ _ feed none_ =>
      cases handout with
      | group t => exact absurd rfl (none_ t)
      | empty => rw [Queue.feedNext_empty feed]
      | crash => exact absurd feed (Queue.feedNext_ne_crash _ _ _)

theorem engine_faceAll (engine : Engine) (target : Target) (device : Device) (focus : Focus)
    (incidents : List Incident) : ((new engine target device focus).faceAll incidents).feed.engine = engine :=
  faceAll_keeps (P := fun e => e.feed.engine = engine) rfl fun _ incident _ he =>
    face_keeps (P := fun e => e.feed.engine = engine) (fun _ => trivial)
      (fun _ m _ he => (engine_turn (Clockwork.turn_move m)).trans he) (fun _ _ _ same he => same.trans he)
      (fun _ _ _ same he => same.trans he) he incident incident.within_true

/-- What becomes of a script that is taken in. -/
theorem face_add {script : String} {groups : List Group} (open_ : e.feed.stopped = false)
    (checked : Script.check e.feed.engine.maxActionSeconds script = .ok groups) (between : List Move) :
    e.face (.add script between) =
      { (e.feed.makeRoom groups ({ system := e, between } : Gap)).1.system with
        feed := e.feed.accept e.now script groups
          (e.feed.makeRoom groups ({ system := e, between } : Gap)).2 } := by
  simp [face, Queue.add, open_, checked]

/-- The moments between the two calls of a script are moments between incidents. -/
theorem exists_faceAll_gap (e : Environment) (g : Group) (between : List Move) :
    ∃ incidents, e.faceAll incidents = e.gap g between ∧ ∀ sort : Move → Prop,
      (∀ r, sort (.request r)) → (∀ m ∈ between, sort m) → ∀ i ∈ incidents, i.Within sort := by
  suffices ∀ s : Environment, ∃ incidents, s.faceAll incidents = s.playUnlocked between ∧
      ∀ sort : Move → Prop, (∀ m ∈ between, sort m) → ∀ i ∈ incidents, i.Within sort by
    obtain ⟨incidents, heq, within⟩ := this (e.move (.request (.interruptConflicting g)))
    refine ⟨.move (.request (.interruptConflicting g)) :: incidents, heq, fun sort calls hall => ?_⟩
    exact List.forall_mem_cons.2 ⟨calls _, within sort hall⟩
  induction between with
  | nil => exact fun s => ⟨[], rfl, by simp⟩
  | cons m between ih =>
      intro s
      obtain ⟨incidents, heq, within⟩ := ih (s.moveUnlocked m)
      by_cases unlocked : s.isUnlocked m = true
      · refine ⟨.move m :: incidents, ?_, fun sort hall => List.forall_mem_cons.2
          ⟨hall m List.mem_cons_self, within sort fun m' hm' => hall m' (List.mem_cons_of_mem _ hm')⟩⟩
        have moved : s.face (.move m) = s.moveUnlocked m := (if_pos unlocked).symm
        exact (congrArg (faceAll · incidents) moved).trans heq
      · have still : s.moveUnlocked m = s := if_neg unlocked
        rw [still] at heq
        exact ⟨incidents, heq.trans (congrArg (playUnlocked · between) still.symm),
          fun sort hall => within sort fun m' hm' => hall m' (List.mem_cons_of_mem _ hm')⟩

/-! ## Happenings are faced as incidents -/

end Environment

end Combo
