-- SUMMARY: What becomes of one worker of a crew in a move, whoever makes it, and what is seen of the worker.
import Combo.Proofs.Crew.Listing
import Combo.Proofs.Crew.Journal
import Combo.Proofs.Executor.Change

/-!
# How a worker fares

Others may cancel what a worker runs or layer actions onto it, and tell it to stop;
the rest it does itself. `Member.Fares` has one rule for each thing that can become
of a worker in a move with which no action is polled, given up or dropped, and
`fares_move` says that every such move makes each worker fare by one of the rules.
-/

namespace Combo

/-- Whether the action at a position of a run has ended. -/
def Run.HasEnded (r : Run) (position : Nat) : Prop :=
  ∃ e, r.entries[position]? = some e ∧ e.progress.isEnded = true

/-- Whether a run was left by a step with the actions and the holds it had, but for actions added. -/
structure Run.Onward (added : List Action) (step step' : Step) (r r' : Run) : Prop where
  id : r'.id = r.id
  actions : r'.actions = r.actions ++ added
  cancelled : r.cancelled = true → r'.cancelled = true
  holds : r.IsAt step → r.SameHolds r'
  sound : r.IsAt step → r'.IsAt step'
  ended : ∀ position, r.HasEnded position → r'.HasEnded position

/-- What can become of a worker in a move of a crew, with what is seen of the worker. -/
inductive Member.Fares : Member → List Event → Member → Prop where
  | told {b b' : Bool} {k : Nat} {post : Post} : Fares ⟨b, k, post⟩ [] ⟨b', k, post⟩
  | bury {b b' : Bool} {k : Nat} : Fares ⟨b, k, .crashed⟩ [] ⟨b', k, .gone⟩
  | leave {k : Nat} {post : Post} (top : post = .checking ∨ ∃ due, post = .sleeping due) :
      Fares ⟨true, k, post⟩ [.left] ⟨true, k, .gone⟩
  | begin {k : Nat} {post : Post} (top : post = .checking ∨ ∃ due, post = .sleeping due) :
      Fares ⟨false, k, post⟩ [] ⟨false, k, .asking⟩
  | hand {b : Bool} {k : Nat} (now : Nat) (t : Ticket) :
      Fares ⟨b, k, .asking⟩ [.asked now (.group t)] ⟨b, k, .taken t⟩
  | miss {b : Bool} {k : Nat} (now due : Nat) :
      Fares ⟨b, k, .asking⟩ [.asked now .empty] ⟨b, k, .sleeping due⟩
  | crash {b : Bool} {k : Nat} {post : Post} (now : Nat) (dead : post = .crashed ∨ post = .gone) :
      Fares ⟨b, k, .asking⟩ [.asked now .crash] ⟨b, k, post⟩
  | dispatch {b : Bool} {k : Nat} {t : Ticket} {step : Step} {run : Run} {ledger : Ledger}
      (id : run.id = t.id) (actions : run.actions = t.group.actions)
      (fresh : ∀ e ∈ run.entries, e.progress.isQueued = true ∨ e.progress.isEnded = true)
      (first : step = .focusing ∨ step = .opening)
      (learned : ∀ position ∈ ledger.joined, run.HasEnded position) :
      Fares ⟨b, k, .taken t⟩ [] ⟨b, k + 1, .running step run ledger⟩
  /-- A run goes on, is cancelled in part or as a whole, or its worker learns of it. -/
  | go {b b' : Bool} {k : Nat} {step step' : Step} {run run' : Run} {ledger ledger' : Ledger}
      (onward : Run.Onward [] step step' run run') (closing : ∀ fault, step = .closing fault → step' = step)
      (learned : ∀ position ∈ ledger'.joined, position ∈ ledger.joined ∨ run'.HasEnded position) :
      Fares ⟨b, k, .running step run ledger⟩ [] ⟨b', k, .running step' run' ledger'⟩
  | layer {b : Bool} {k : Nat} {run run' : Run} {ledger ledger' : Ledger} (g : Group)
      (onward : Run.Onward g.actions (.joining true) (.joining true) run run')
      (learned : ledger'.joined = ledger.joined) :
      Fares ⟨b, k, .running (.joining true) run ledger⟩ [.layered g]
        ⟨b, k, .running (.joining true) run' ledger'⟩
  | finish {b : Bool} {k : Nat} {fault : Option InputError} {run : Run} {ledger : Ledger} :
      Fares ⟨b, k, .running (.closing fault) run ledger⟩ [] ⟨b, k, .reporting run.report fault.isSome⟩
  | handIn {b faulty : Bool} {k : Nat} {report : Report} {post : Post}
      (top : post = .checking ∨ ∃ due, post = .sleeping due) :
      Fares ⟨b, k, .reporting report faulty⟩ [.reported report] ⟨b, k, post⟩

/-! ## Touched runs -/

/-- The entries after something was done to them position by position, seen through what it leaves alone. -/
theorem map_mapIdx_of {α β : Type} {f : Nat → α → α} {g : α → β} (l : List α)
    (h : ∀ (i : Nat) (a : α), g (f i a) = g a) : (l.mapIdx f).map g = l.map g := by
  refine List.ext_getElem? fun i => ?_
  simp only [List.getElem?_map, List.getElem?_mapIdx, Option.map_map]
  cases l[i]? <;> simp [h]

namespace Run

/-- What has ended stays so when the progress of all entries does. -/
theorem HasEnded.of_map {r r' : Run} {position : Nat} (h : r.HasEnded position)
    (progress : r'.entries.map (·.progress) = r.entries.map (·.progress)) : r'.HasEnded position := by
  obtain ⟨e, he, ended⟩ := h
  have same := congrArg (·[position]?) progress
  simp only [List.getElem?_map, he, Option.map_some, Option.map_eq_some_iff] at same
  obtain ⟨e', he', same⟩ := same
  exact ⟨e', he', by rw [same, ended]⟩

/-- What has ended stays so in a change of a run that no device has a part in. -/
theorem HasEnded.of_change {added : List Action} {r r' : Run} {position : Nat} (h : r.HasEnded position)
    (change : Change {} 0 0 added r r') : r'.HasEnded position := by
  obtain ⟨e, he, ended⟩ := h
  obtain ⟨e', he', change⟩ := change.kept position e he
  exact ⟨e', he', by rw [change.evolves.ended ended, ended]⟩

/-- Whether a run is the same but for what is cancelled. -/
structure Touched (r r' : Run) : Prop where
  id : r'.id = r.id
  actions : r'.actions = r.actions
  cancelled : r.cancelled = true → r'.cancelled = true
  progress : r'.entries.map (·.progress) = r.entries.map (·.progress)

theorem Touched.trans {r r' r'' : Run} (h : r.Touched r') (h' : r'.Touched r'') : r.Touched r'' :=
  ⟨h'.id.trans h.id, h'.actions.trans h.actions, h'.cancelled ∘ h.cancelled, h'.progress.trans h.progress⟩

theorem Touched.onward {r r' : Run} (h : r.Touched r') (step : Step) : Onward [] step step r r' where
  id := h.id
  actions := by rw [h.actions, List.append_nil]
  cancelled := h.cancelled
  holds := fun _ => by
    have held := congrArg (List.map Progress.held?) h.progress
    simp only [List.map_map] at held
    exact .of_map held
  sound := fun sound => sound.of_map h.progress
  ended := fun _ ended => ended.of_map h.progress

/-- A run that goes on to another step is left as it was. -/
theorem onward_refl {step step' : Step} {r : Run} (sound : r.IsAt step → r.IsAt step') :
    Onward [] step step' r r :=
  ⟨rfl, (List.append_nil _).symm, fun cancelled => cancelled, fun _ => .of_map rfl, sound, fun _ ended => ended⟩

theorem onward_releaseAll (accepting : Bool) {step : Step} (r : Run) :
    Onward [] step (.joining accepting) r r.releaseAll where
  id := rfl
  actions := by simp
  cancelled := fun cancelled => cancelled
  holds := fun _ => sameHolds_releaseAll r
  sound := fun _ => by
    cases accepting with
    | true => trivial
    | false => exact isAt_releaseAll r
  ended := fun _ ended => ended.of_change (change_releaseAll r)

/-- To cancel entries position by position touches a run. -/
theorem touched_mapIdx (r : Run) (all : Bool) (hit : Nat → Entry → Bool) :
    r.Touched { r with
      cancelled := r.cancelled || all
      entries := r.entries.mapIdx fun i e => if hit i e then e.cancel else e } where
  id := rfl
  actions := map_mapIdx_of _ fun i e => by split <;> rfl
  cancelled := fun cancelled => by rw [cancelled, Bool.true_or]
  progress := map_mapIdx_of _ fun i e => by split <;> rfl

/-- What holds nothing can be failed. -/
theorem sameHolds_failAll {r : Run} (message : String) (h : r.HoldsNothing) :
    r.SameHolds (r.failAll message) := by
  refine .of_map ?_
  simp only [failAll, List.map_map]
  refine List.map_congr_left fun e he => ?_
  rw [h e he]
  exact Progress.held?_of_isEnded (Entry.fail_isEnded message e)

theorem touched_cancelUnder (hit : Shift → Bool) (own : Shift) (ledger : Ledger) (r : Run) :
    r.Touched (r.cancelUnder hit own ledger) :=
  touched_mapIdx r (hit own) fun i _ => hit (ledger.shiftAt own i)

theorem touched_cancelListed (listings : List Listing) (worker : Nat) (r : Run) :
    r.Touched (r.cancelListed listings worker) := by
  have touched := touched_mapIdx r false fun i _ => listings.any fun l => l.worker == worker && l.position == i
  rwa [Bool.or_false] at touched

end Run

/-- Actions that are accepted one after another each add an entry at the end. -/
theorem exists_foldl_entries {P : Entry → Prop} {f : List Entry × List Listing → Action → List Entry × List Listing}
    (hf : ∀ lists a, ∃ e, (f lists a).1 = lists.1 ++ [e] ∧ e.action = a ∧ P e) (actions : List Action)
    (lists : List Entry × List Listing) :
    ∃ new, (actions.foldl f lists).1 = lists.1 ++ new ∧ new.map (·.action) = actions ∧ ∀ e ∈ new, P e := by
  induction actions generalizing lists with
  | nil => exact ⟨[], by simp⟩
  | cons a actions ih =>
    obtain ⟨e, first, rfl, he⟩ := hf lists a
    obtain ⟨new, rest, rfl, hnew⟩ := ih (f lists e.action)
    exact ⟨e :: new, by rw [List.foldl_cons, rest, first]; simp, rfl, by simpa using ⟨he, hnew⟩⟩

/-- What others can do to a worker. -/
inductive Member.Touched : Member → Member → Prop where
  | told {b b' : Bool} {k : Nat} {post : Post} : Touched ⟨b, k, post⟩ ⟨b', k, post⟩
  | bury {b b' : Bool} {k : Nat} : Touched ⟨b, k, .crashed⟩ ⟨b', k, .gone⟩
  | cancel {b b' : Bool} {k : Nat} {step : Step} {run run' : Run} {ledger : Ledger}
      (h : run.Touched run') :
      Touched ⟨b, k, .running step run ledger⟩ ⟨b', k, .running step run' ledger⟩

namespace Member

variable {m m' m'' : Member}

theorem Touched.refl (m : Member) : m.Touched m := .told

theorem Touched.trans (h : m.Touched m') (h' : m'.Touched m'') : m.Touched m'' := by
  cases h with
  | told =>
    cases h' with
    | told => exact .told
    | bury => exact .bury
    | cancel h' => exact .cancel h'
  | bury =>
    cases h' with
    | told => exact .bury
  | cancel h =>
    cases h' with
    | told => exact .cancel h
    | cancel h' => exact .cancel (h.trans h')

theorem Touched.fares (h : m.Touched m') : m.Fares [] m' := by
  cases h with
  | told => exact .told
  | bury => exact .bury
  | cancel h => exact .go (h.onward _) (fun _ _ => rfl) fun _ known => .inl known

theorem touched_mapRun {f : Ledger → Run → Run} (h : ∀ ledger (run : Run), run.Touched (f ledger run))
    (m : Member) : m.Touched (m.mapRun f) := by
  obtain ⟨b, k, post⟩ := m
  cases post with
  | running step run ledger => exact .cancel (h ledger run)
  | _ => exact .told

theorem touched_stop (m : Member) : m.Touched m.stop := by
  obtain ⟨b, k, post⟩ := m
  by_cases crashed : post = .crashed
  · subst crashed
    exact .bury
  · simp only [stop, if_neg crashed]
    exact .told

end Member

namespace Crew

variable {φ : Type} {c c' c'' : Crew φ}

/-- Whether every worker of a crew was at most touched. -/
def Touches (c c' : Crew φ) : Prop :=
  ∀ (w : Nat) (m : Member), c.members[w]? = some m → ∃ m', c'.members[w]? = some m' ∧ m.Touched m'

theorem Touches.of_members (h : c'.members = c.members) : c.Touches c' :=
  fun w m hm => ⟨m, by rw [h, hm], .refl m⟩

theorem Touches.trans (h : c.Touches c') (h' : c'.Touches c'') : c.Touches c'' := by
  intro w m hm
  obtain ⟨m', hm', first⟩ := h w m hm
  obtain ⟨m'', hm'', second⟩ := h' w m' hm'
  exact ⟨m'', hm'', first.trans second⟩

theorem touches_mapRuns {f : Nat → Shift → Ledger → Run → Run}
    (h : ∀ w own ledger (run : Run), run.Touched (f w own ledger run)) (c : Crew φ) :
    c.Touches (c.mapRuns f) := by
  intro w m hm
  exact ⟨m.mapRun (f w ⟨w, m.round⟩), by simp [mapRuns, List.getElem?_mapIdx, hm],
    Member.touched_mapRun (h w _) m⟩

theorem touches_cancelUnder (hit : Shift → Bool) (c : Crew φ) : c.Touches (c.cancelUnder hit) :=
  touches_mapRuns (fun _ own ledger run => Run.touched_cancelUnder hit own ledger run) c

theorem touches_cancelListed (listings : List Listing) (c : Crew φ) :
    c.Touches (c.cancelListed listings) :=
  touches_mapRuns (fun w _ _ run => Run.touched_cancelListed listings w run) c

theorem touches_interruptAll (c : Crew φ) : c.Touches c.interruptAll.1 :=
  ((touches_cancelUnder _ c).trans (touches_cancelListed _ _)).trans (.of_members rfl)

theorem touches_interruptConflicting (g : Group) (c : Crew φ) :
    c.Touches (c.interruptConflicting g).1 := by
  simp only [interruptConflicting]
  split
  · exact .of_members rfl
  · exact (touches_cancelListed _ c).trans (.of_members rfl)

theorem touches_stop (c : Crew φ) : c.Touches c.stop := by
  unfold stop
  split
  · exact .of_members rfl
  · rename_i worker _
    refine Touches.trans ?_ ((touches_cancelUnder _ _).trans (touches_interruptAll _))
    intro w m hm
    simp only [List.getElem?_modify, hm]
    by_cases h : worker = w
    · exact ⟨m.stop, by simp [h], m.touched_stop⟩
    · exact ⟨m, by simp [h], .refl m⟩

/-! ## Polls -/

section Poll

variable {worker position : Nat} {b accepting : Bool} {round : Nat} {run : Run} {ledger : Ledger}
  {entry : Entry}
  (hm : c.members[worker]? = some ⟨b, round, .running (.joining accepting) run ledger⟩)
include hm

theorem poll_of_none (none : run.entries[position]? = none) : c.poll worker position = c := by
  simp [poll, hm, none]

theorem poll_of_unready (hentry : run.entries[position]? = some entry)
    (unready : ¬entry.runnable c.now = true) : c.poll worker position = c := by
  simp only [poll, hm, hentry, if_neg unready]

theorem poll_of_ready {progress : Progress} {exchange : Option Exchange}
    (hentry : run.entries[position]? = some entry) (ready : entry.runnable c.now = true)
    (hpoll : entry.progress.poll c.device c.engine.attackMs c.now entry.action entry.cancelled =
      (progress, exchange)) :
    c.poll worker position =
      { c.setPost worker (.running (.joining accepting)
          { run with entries := run.entries.set position { entry with progress } } ledger) with
        sent := c.sent ++
          (Exchange.calls c.now run.id position exchange).map (Sent.mk ⟨worker, round⟩) } := by
  simp only [poll, hm, hentry, if_pos ready, hpoll]
  cases exchange <;> rfl

end Poll

/-! ## One worker changed -/

/-- Whether a crew has another worker in the place of one, and is the same workers else. -/
structure Replaces (c : Crew φ) (worker : Nat) (m' : Member) (c' : Crew φ) : Prop where
  here : c'.members[worker]? = some m'
  elsewhere : ∀ w, w ≠ worker → c'.members[w]? = c.members[w]?

theorem replaces_setMember {worker : Nat} {m : Member} (hm : c.members[worker]? = some m) (m' : Member)
    (members : c'.members = (c.setMember worker m').members) : c.Replaces worker m' c' where
  here := by
    obtain ⟨lt, -⟩ := List.getElem?_eq_some_iff.1 hm
    simp [members, setMember, lt]
  elsewhere := fun w other => by simp [members, setMember, other.symm]

theorem replaces_setPost {worker : Nat} {m : Member} (hm : c.members[worker]? = some m) (post : Post)
    (members : c'.members = (c.setPost worker post).members) :
    c.Replaces worker { m with post } c' where
  here := by simp [members, setPost, hm]
  elsewhere := fun w other => by simp [members, setPost, other.symm]

variable [Feed φ]

/-- What is seen of a worker in a move. -/
def eventsOf (c : Crew φ) (worker : Nat) (mv : Move) : List Event :=
  ((c.notes mv).filter fun n => n.worker == some worker).map (·.event)

/-- Whether every worker fares by one of the rules in a move. -/
def AllFare (c : Crew φ) (mv : Move) : Prop :=
  ∀ (w : Nat) (m : Member), c.members[w]? = some m →
    ∃ m', (c.move mv).members[w]? = some m' ∧ m.Fares (c.eventsOf w mv) m'

theorem AllFare.of_touches {mv : Move} (h : c.Touches (c.move mv)) (silent : c.notes mv = []) :
    c.AllFare mv := by
  intro w m hm
  obtain ⟨m', hm', touched⟩ := h w m hm
  refine ⟨m', hm', ?_⟩
  rw [eventsOf, silent]
  exact touched.fares

theorem AllFare.of_still {mv : Move} (still : c.move mv = c) (silent : c.notes mv = []) : c.AllFare mv :=
  .of_touches (.of_members (by rw [still])) silent

/-- What is seen of a worker in a move of which something is seen of one worker. -/
theorem eventsOf_of_notes {mv : Move} {worker : Nat} {es : List Event}
    (notes : c.notes mv = es.map fun e => ⟨some worker, e⟩) (w : Nat) :
    c.eventsOf w mv = if w = worker then es else [] := by
  by_cases h : w = worker
  · subst h
    simp [eventsOf, notes, List.filter_map, Function.comp_def]
  · have other : (some worker == some w) = false := by simpa using Ne.symm h
    simp [eventsOf, notes, List.filter_map, Function.comp_def, other, h]

theorem AllFare.of_replaces {mv : Move} {worker : Nat} {m m' : Member} {es : List Event}
    (hm : c.members[worker]? = some m) (replaces : c.Replaces worker m' (c.move mv))
    (notes : c.notes mv = es.map fun e => ⟨some worker, e⟩) (fares : m.Fares es m') : c.AllFare mv := by
  intro w o ho
  rw [eventsOf_of_notes notes]
  by_cases h : w = worker
  · subst h
    cases hm.symm.trans ho
    exact ⟨m', replaces.here, by rw [if_pos rfl]; exact fares⟩
  · exact ⟨o, (replaces.elsewhere w h).trans ho, by rw [if_neg h]; exact .told⟩

theorem AllFare.of_silent {mv : Move} {worker : Nat} {m m' : Member} (hm : c.members[worker]? = some m)
    (replaces : c.Replaces worker m' (c.move mv)) (silent : c.notes mv = []) (fares : m.Fares [] m') :
    c.AllFare mv :=
  .of_replaces hm replaces (silent.trans rfl) fares

/-! ## Steps of the worker itself -/

section Work

variable {worker : Nat} {b : Bool} {k : Nat} {post : Post}
  (hm : c.members[worker]? = some ⟨b, k, post⟩)
include hm

/-- A worker that goes on with its run. -/
theorem AllFare.of_go {mv : Move} {step : Step} {run : Run} {ledger : Ledger}
    (h : post = .running step run ledger) (step' : Step) (run' : Run) (ledger' : Ledger)
    (members : (c.move mv).members = (c.setPost worker (.running step' run' ledger')).members)
    (silent : c.notes mv = []) (onward : Run.Onward [] step step' run run')
    (closing : ∀ fault, step = .closing fault → step' = step)
    (learned : ∀ position ∈ ledger'.joined, position ∈ ledger.joined ∨ run'.HasEnded position) :
    c.AllFare mv := by
  subst h
  exact .of_silent hm (replaces_setPost hm _ members) silent (.go onward closing learned)

theorem allFare_stepRun {step : Step} {run : Run} {ledger : Ledger} (h : post = .running step run ledger)
    (ready : Member.stepReady c.now run ledger step = true) : c.AllFare (.work worker) := by
  subst h
  have ready' : Member.isReady c.now ⟨b, k, .running step run ledger⟩ = true := ready
  have silent : c.notes (.work worker) = [] := by simp [notes, workEvents, hm]
  have steps : c.move (.work worker) = c.stepRun worker run ledger step := by
    simp only [move, work, hm, if_pos ready']
  have unlearned {run' : Run} : ∀ position ∈ ledger.joined, position ∈ ledger.joined ∨ run'.HasEnded position :=
    fun _ => .inl
  cases step with
  | focusing =>
    simp only [stepRun, seeToFocus] at steps
    split at steps
    · exact .of_go hm rfl .opening run ledger (by rw [steps]) silent (Run.onward_refl id) (by simp) unlearned
    · rcases tried : c.focus.activate with ⟨focus, _ | e⟩
      · rw [tried] at steps
        exact .of_go hm rfl (.settling (c.now + c.target.settleMs)) run ledger (by rw [steps]; rfl) silent
          (Run.onward_refl id) (by simp) unlearned
      · rw [tried] at steps
        refine .of_go hm rfl (.closing (some e)) (run.failAll e.message) ledger (by rw [steps]; rfl) silent
          ⟨rfl, by simp, id, fun sound => ?_, fun _ => Run.isAt_failAll e.message run (some e), fun _ ended =>
            ended.of_change (Run.change_failAll e.message run)⟩
          (by simp) unlearned
        exact Run.sameHolds_failAll e.message (Run.holdsNothing_of_isAt sound (by simp))
  | settling due =>
    exact .of_go hm rfl .opening run ledger (by rw [steps]; rfl) silent (Run.onward_refl id) (by simp) unlearned
  | opening =>
    exact .of_go hm rfl (.joining true) run.releaseAll ledger (by rw [steps]; rfl) silent
      (Run.onward_releaseAll true run) (by simp) unlearned
  | joining accepting =>
    simp only [stepRun, wait] at steps
    split at steps
    · exact .of_go hm rfl (.joining true) run.receive ledger (by rw [steps]) silent
        ⟨run.receive_id, by simp, fun cancelled => run.receive_cancelled.trans cancelled,
          fun _ => Run.sameHolds_receive run, fun _ => trivial,
          fun _ ended => ended.of_change (Run.change_receive run)⟩ (by simp) unlearned
    · rename_i stuck
      have joined : run.isJoined ledger = true := by simpa [Member.stepReady, stuck] using ready
      split at steps
      · exact .of_go hm rfl (.joining false) run.releaseAll ledger (by rw [steps]; rfl) silent
          (Run.onward_releaseAll false run) (by simp) unlearned
      · rename_i shut
        obtain rfl : accepting = false := by simpa using shut
        exact .of_go hm rfl (.closing none) run ledger (by rw [steps]) silent
          (Run.onward_refl fun sound =>
            Run.isAt_closing_of_isDrained sound (Run.isDrained_of_isJoined joined)) (by simp) unlearned
  | closing fault =>
    exact .of_silent hm (replaces_setPost hm (.reporting run.report fault.isSome) (by rw [steps]; rfl)) silent
      .finish

/-- A worker at the top of its round. -/
theorem allFare_top (top : post = .checking ∨ ∃ due, post = .sleeping due)
    (ready : Member.isReady c.now ⟨b, k, post⟩ = true) : c.AllFare (.work worker) := by
  have begins : c.move (.work worker) = c.beginRound worker b := by
    rcases top with rfl | ⟨due, rfl⟩ <;> simp only [move, work, hm, if_pos ready]
  have notes : c.notes (.work worker) = (if b then [Event.left] else []).map fun e => ⟨some worker, e⟩ := by
    rcases top with rfl | ⟨due, rfl⟩ <;> cases b <;> simp [Crew.notes, workEvents, hm]
  cases b with
  | true =>
    rw [beginRound, if_pos rfl] at begins
    exact .of_replaces hm (replaces_setPost hm .gone (by rw [begins]; rfl)) notes (.leave top)
  | false =>
    rw [beginRound, if_neg (by simp)] at begins
    exact .of_replaces hm (replaces_setPost hm .asking (by rw [begins])) notes (.begin top)

theorem allFare_asking (h : post = .asking) : c.AllFare (.work worker) := by
  subst h
  have asks : c.move (.work worker) = c.ask worker b := by simp [move, work, hm, Member.isReady]
  have notes : c.notes (.work worker) =
      [Event.asked c.now (Feed.next c.now c.feed).1].map fun e => ⟨some worker, e⟩ := by
    simp [Crew.notes, workEvents, hm]
  rw [ask] at asks
  rcases next : Feed.next c.now c.feed with ⟨t | _ | _, feed⟩ <;> rw [next] at asks notes
  · exact .of_replaces hm (replaces_setPost hm (.taken t) (by rw [asks]; rfl)) notes (.hand c.now t)
  · exact .of_replaces hm (replaces_setPost hm (.sleeping (c.now + c.engine.pollMs)) (by rw [asks]; rfl)) notes
      (.miss c.now _)
  · refine .of_replaces hm (replaces_setPost hm (if b then .gone else .crashed) (by rw [asks]; rfl)) notes
      (.crash c.now ?_)
    cases b <;> simp

theorem allFare_taken {t : Ticket} (h : post = .taken t) : c.AllFare (.work worker) := by
  subst h
  have dispatches : c.move (.work worker) = c.dispatch worker ⟨b, k, .taken t⟩ t := by
    simp [move, work, hm, Member.isReady]
  have silent : c.notes (.work worker) = [] := by simp [notes, workEvents, hm]
  obtain ⟨new, hnew, actions, fresh⟩ := exists_foldl_entries
    (P := fun e => e.progress.isQueued = true ∨ e.progress.isEnded = true)
    (f := Listing.accept c.board.deferred worker b) (fun lists a => by
      unfold Listing.accept
      split
      · exact ⟨_, rfl, rfl, .inr rfl⟩
      · exact ⟨_, rfl, rfl, .inl rfl⟩) t.group.actions ([], c.board.listings)
  rw [List.nil_append] at hnew
  refine .of_silent hm (replaces_setMember hm _ (by rw [dispatches]; rfl)) silent
    (.dispatch rfl (by simp only [Run.ofEntries, Run.actions, hnew, actions])
      (by simpa only [Run.ofEntries, hnew] using fresh) ?_ ?_)
  · split
    · exact .inl rfl
    · exact .inr rfl
  · intro position joined
    simpa [Ledger.ofEntries, Run.ofEntries, Run.HasEnded, Option.any_eq_true] using
      (List.mem_filter.1 joined).2

theorem allFare_reporting {report : Report} {faulty : Bool} (h : post = .reporting report faulty) :
    c.AllFare (.work worker) := by
  subst h
  have hands : c.move (.work worker) = c.handIn worker report faulty := by
    simp [move, work, hm, Member.isReady]
  have notes : c.notes (.work worker) = [Event.reported report].map fun e => ⟨some worker, e⟩ := by
    simp [Crew.notes, workEvents, hm]
  refine .of_replaces hm (replaces_setPost hm
    (if faulty then .sleeping (c.now + c.engine.backoffMs) else .checking) (by rw [hands]; rfl)) notes
    (.handIn ?_)
  cases faulty <;> simp

theorem allFare_work : c.AllFare (.work worker) := by
  by_cases ready : Member.isReady c.now ⟨b, k, post⟩ = true
  · cases post with
    | checking => exact allFare_top hm (.inl rfl) ready
    | sleeping due => exact allFare_top hm (.inr ⟨due, rfl⟩) ready
    | asking => exact allFare_asking hm rfl
    | taken t => exact allFare_taken hm rfl
    | running step run ledger => exact allFare_stepRun hm rfl ready
    | reporting report faulty => exact allFare_reporting hm rfl
    | crashed | gone => cases ready
  · refine .of_still (by simp only [move, work, hm, if_neg ready]) ?_
    simp only [notes, workEvents, hm, List.map_eq_nil_iff]
    unfold Member.isReady at ready
    split <;> simp_all

theorem allFare_closeLate : c.AllFare (.closeLate worker) := by
  by_cases joins : ∃ run ledger, post = .running (.joining true) run ledger ∧ run.isJoined ledger = true
  · obtain ⟨run, ledger, rfl, joined⟩ := joins
    have closes : c.move (.closeLate worker) = c.close worker run ledger := by
      simp [move, closeLate, hm, joined]
    exact .of_go hm rfl (.joining false) run.releaseAll ledger (by rw [closes]; rfl) rfl
      (Run.onward_releaseAll false run) (by simp) fun _ => .inl
  · refine .of_still ?_ rfl
    simp only [move, closeLate, hm]
    split
    · rename_i member
      cases member
      exact if_neg fun joined => joins ⟨_, _, rfl, joined⟩
    · rfl

/-- A worker that learns something of the actions it waits for. -/
theorem AllFare.of_learn {mv : Move} (silent : c.notes mv = [])
    (h : c.move mv = c ∨ ∃ accepting run ledger ledger', post = .running (.joining accepting) run ledger ∧
      (∀ position ∈ ledger'.joined, position ∈ ledger.joined ∨ run.HasEnded position) ∧
      c.move mv = c.setPost worker (.running (.joining accepting) run ledger')) : c.AllFare mv := by
  rcases h with still | ⟨accepting, run, ledger, ledger', rfl, learned, learns⟩
  · exact .of_still still silent
  · exact .of_go hm rfl (.joining accepting) run ledger' (by rw [learns]) silent (Run.onward_refl id)
      (fun _ _ => rfl) learned

theorem allFare_join (position : Nat) : c.AllFare (.join worker position) := by
  refine .of_learn hm rfl ?_
  simp only [move, join, hm]
  split
  · rename_i member
    cases member
    split
    · rename_i fresh
      obtain ⟨ended, -⟩ := Bool.and_eq_true_iff.1 fresh
      refine .inr ⟨_, _, _, _, rfl, fun i joined => ?_, rfl⟩
      rcases List.mem_append.1 joined with joined | now
      · exact .inl joined
      · obtain rfl := List.mem_singleton.1 now
        exact .inr (by simpa [Run.HasEnded, Option.any_eq_true] using ended)
    · exact .inl rfl
  · exact .inl rfl

theorem allFare_notice : c.AllFare (.notice worker) := by
  refine .of_learn hm rfl ?_
  simp only [move, notice, hm]
  split
  · rename_i member
    cases member
    split
    · refine .inr ⟨_, _, _, _, rfl, ?_, rfl⟩
      exact fun _ => .inl
    · exact .inl rfl
  · exact .inl rfl

end Work

/-! ## Calls -/

omit [Feed φ] in
/-- A group is refused, or it is layered onto the run of the worker behind the gate. -/
theorem layer_cases (g : Group) (c : Crew φ) : c.layer g = (c, false) ∨
    ∃ (worker : Nat) (b : Bool) (k : Nat) (run : Run) (ledger ledger' : Ledger) (board : Board),
      c.board.gate = some worker ∧
      c.members[worker]? = some ⟨b, k, .running (.joining true) run ledger⟩ ∧
      ledger'.joined = ledger.joined ∧
      c.layer g = ({ c.setMember worker ⟨b, k, .running (.joining true)
        { run with entries :=
          (g.actions.foldl (Listing.enlist worker false) (run.entries, c.board.listings)).1 } ledger'⟩ with
        board }, true) := by
  unfold layer
  split
  · rename_i worker shift gate token
    split
    · rename_i b k run ledger member
      split
      · exact .inl rfl
      · refine .inr ⟨worker, b, k, run, ledger, _, _, gate, member, ?_, rfl⟩
        rfl
    · exact .inl rfl
  · exact .inl rfl

/-- A layered group goes to the worker behind the gate. -/
theorem allFare_layer (g : Group) : c.AllFare (.request (.layer g)) := by
  rcases layer_cases g c with
    refused | ⟨worker, b, k, run, ledger, ledger', board, gate, member, joined, layered⟩
  · exact .of_still (by simp only [move, serve, refused]) (by simp [notes, refused])
  · obtain ⟨new, hnew, actions, fresh⟩ := exists_foldl_entries (P := fun e => e.progress = .queued)
      (f := Listing.enlist worker false) (fun _ _ => ⟨_, rfl, rfl, rfl⟩) g.actions
      (run.entries, c.board.listings)
    let run' : Run := { run with entries :=
      (g.actions.foldl (Listing.enlist worker false) (run.entries, c.board.listings)).1 }
    have onward : Run.Onward g.actions (.joining true) (.joining true) run run' :=
      { id := rfl
        actions := by
          refine (congrArg (List.map fun e : Entry => e.action) hnew).trans ?_
          rw [List.map_append, actions]
          rfl
        cancelled := id
        holds := fun _ => ⟨new, fun e he => by rw [fresh e he]; rfl,
          congrArg (List.map fun e : Entry => e.progress.held?) hnew⟩
        sound := id
        ended := by
          rintro position ⟨e, he, ended⟩
          have lt := (List.getElem?_eq_some_iff.1 he).1
          exact ⟨e, by rw [show run'.entries = run.entries ++ new from hnew,
            List.getElem?_append_left lt, he], ended⟩ }
    have notes : c.notes (.request (.layer g)) = [Event.layered g].map fun e => ⟨some worker, e⟩ := by
      simp [Crew.notes, layered, gate]
    exact .of_replaces member
      (replaces_setMember member ⟨b, k, .running (.joining true) run' ledger'⟩
        (by simp only [move, serve, layered]; rfl)) notes (.layer g onward joined)

/-- Whether no action is polled, given up or dropped in a move. -/
def Move.isMild : Move → Bool
  | .poll _ _ | .giveUp _ | .abort _ => false
  | .work _ | .closeLate _ | .join _ _ | .notice _ | .letGo _ | .tick | .start | .stop | .request _
  | .setFocus _ _ | .setDevice _ => true

/-- Every worker fares by one of the rules in a move with which no action is polled, given up or dropped. -/
theorem fares_move {mv : Move} (mild : mv.isMild = true) : c.AllFare mv := by
  by_cases nobody : ∃ worker, mv.worker? = some worker ∧ c.members[worker]? = none
  · obtain ⟨worker, about, nobody⟩ := nobody
    obtain ⟨still, silent⟩ := still_of_nobody about nobody
    exact .of_still still silent
  · have there (worker : Nat) (about : mv.worker? = some worker) :
        ∃ b k post, c.members[worker]? = some ⟨b, k, post⟩ := by
      cases hm : c.members[worker]? with
      | none => exact absurd ⟨worker, about, hm⟩ nobody
      | some m => exact ⟨m.stopping, m.round, m.post, rfl⟩
    cases mv with
    | poll | giveUp | abort => cases mild
    | work worker =>
      obtain ⟨b, k, post, hm⟩ := there worker rfl
      exact allFare_work hm
    | closeLate worker =>
      obtain ⟨b, k, post, hm⟩ := there worker rfl
      exact allFare_closeLate hm
    | join worker position =>
      obtain ⟨b, k, post, hm⟩ := there worker rfl
      exact allFare_join hm position
    | notice worker =>
      obtain ⟨b, k, post, hm⟩ := there worker rfl
      exact allFare_notice hm
    | letGo index =>
      intro w m hm
      refine ⟨m, ?_, ?_⟩
      · simp only [move, letGo]
        split <;> exact hm
      · have unseen : c.eventsOf w (.letGo index) = [] := by
          simp [eventsOf, notes, List.filter_map, Function.comp_def]
        rw [unseen]
        exact .told
    | tick =>
      refine .of_touches (.of_members ?_) rfl
      simp only [move, tick]
      split <;> rfl
    | start =>
      refine .of_touches (fun w m hm => ⟨m, ?_, .refl m⟩) rfl
      simp only [move, start]
      split
      · exact hm
      · exact (List.getElem?_append_left (List.getElem?_eq_some_iff.1 hm).1).trans hm
    | stop => exact .of_touches c.touches_stop rfl
    | request r =>
      cases r with
      | interruptAll => exact .of_touches c.touches_interruptAll rfl
      | interruptConflicting g => exact .of_touches (touches_interruptConflicting g c) rfl
      | layer g => exact allFare_layer g
    | setFocus active failing => exact .of_touches (.of_members rfl) rfl
    | setDevice device => exact .of_touches (.of_members rfl) rfl

/-! ## Every move -/

end Crew

/-- What else can become of a worker: one of its actions is polled, or it gives them up, or is taken away. -/
inductive Member.Spends (now : Nat) (device : Device) : Member → List Event → Member → Prop where
  | poll {b accepting : Bool} {k position : Nat} {run : Run} {ledger : Ledger} {entry : Entry}
      {progress : Progress} {exchange : Option Exchange} (hentry : run.entries[position]? = some entry)
      (ready : entry.runnable now = true)
      (polled : Progress.Polled device entry.progress progress exchange) :
      Spends now device ⟨b, k, .running (.joining accepting) run ledger⟩
        ((Exchange.calls now run.id position exchange).map .called)
        ⟨b, k, .running (.joining accepting)
          { run with entries := run.entries.set position { entry with progress } } ledger⟩
  | giveUp {b accepting : Bool} {k : Nat} {run : Run} {ledger : Ledger} :
      Spends now device ⟨b, k, .running (.joining accepting) run ledger⟩ []
        ⟨b, k, .running (.closing none) (run.giveUp ledger) ledger⟩
  | abort {m : Member} (kept : m.isAbortable = true) :
      Spends now device m [.aborted] { m with post := .gone }

namespace Crew

variable {φ : Type} {c : Crew φ} [Feed φ]

/-- Whether every worker fares by one of the rules in a move, or spends its actions. -/
def AllGoOn (c : Crew φ) (mv : Move) : Prop :=
  ∀ (w : Nat) (m : Member), c.members[w]? = some m → ∃ m', (c.move mv).members[w]? = some m' ∧
    (m.Fares (c.eventsOf w mv) m' ∨ m.Spends c.now c.device (c.eventsOf w mv) m')

theorem AllFare.allGoOn {mv : Move} (h : c.AllFare mv) : c.AllGoOn mv := by
  intro w m hm
  obtain ⟨m', hm', fares⟩ := h w m hm
  exact ⟨m', hm', .inl fares⟩

theorem AllGoOn.of_replaces {mv : Move} {worker : Nat} {m m' : Member} {es : List Event}
    (hm : c.members[worker]? = some m) (replaces : c.Replaces worker m' (c.move mv))
    (notes : c.notes mv = es.map fun e => ⟨some worker, e⟩) (spends : m.Spends c.now c.device es m') :
    c.AllGoOn mv := by
  intro w o ho
  rw [eventsOf_of_notes notes]
  by_cases h : w = worker
  · subst h
    cases hm.symm.trans ho
    exact ⟨m', replaces.here, .inr (by rw [if_pos rfl]; exact spends)⟩
  · exact ⟨o, (replaces.elsewhere w h).trans ho, .inl (by rw [if_neg h]; exact .told)⟩

theorem allGoOn_poll (worker position : Nat) : c.AllGoOn (.poll worker position) := by
  have stays (still : c.poll worker position = c) : c.AllGoOn (.poll worker position) := by
    have fares : c.AllFare (.poll worker position) := .of_still still (by simp [notes, callsSince, still])
    exact fares.allGoOn
  by_cases joins : ∃ b k accepting run ledger,
      c.members[worker]? = some ⟨b, k, .running (.joining accepting) run ledger⟩
  · obtain ⟨b, k, accepting, run, ledger, hm⟩ := joins
    cases hentry : run.entries[position]? with
    | none => exact stays (poll_of_none hm hentry)
    | some entry =>
      by_cases ready : entry.runnable c.now = true
      · rcases hpoll : entry.progress.poll c.device c.engine.attackMs c.now entry.action
          entry.cancelled with ⟨progress, exchange⟩
        have polls := poll_of_ready hm hentry ready hpoll
        have notes : c.notes (.poll worker position) =
            ((Exchange.calls c.now run.id position exchange).map Event.called).map
              fun e => ⟨some worker, e⟩ := by
          rw [Crew.notes, polls, callsSince_of_append rfl]
          simp [Function.comp_def]
        exact .of_replaces hm (replaces_setPost hm _ (by rw [move, polls])) notes
          (.poll hentry ready (Progress.poll_polled ready hpoll))
      · exact stays (poll_of_unready hm hentry ready)
  · refine stays ?_
    unfold poll
    split
    · rename_i member
      exact absurd ⟨_, _, _, _, _, member⟩ joins
    · rfl

theorem allGoOn_giveUp (worker : Nat) : c.AllGoOn (.giveUp worker) := by
  have stays (still : c.giveUp worker = c) : c.AllGoOn (.giveUp worker) := by
    have fares : c.AllFare (.giveUp worker) := .of_still still rfl
    exact fares.allGoOn
  by_cases due : ∃ b k accepting run ledger,
      c.members[worker]? = some ⟨b, k, .running (.joining accepting) run ledger⟩ ∧
        ledger.deadline.any (· ≤ c.now) = true
  · obtain ⟨b, k, accepting, run, ledger, hm, due⟩ := due
    have gives : (c.move (.giveUp worker)).members =
        (c.setPost worker (.running (.closing none) (run.giveUp ledger) ledger)).members := by
      simp [move, giveUp, hm, due]
    exact .of_replaces hm (replaces_setPost hm _ gives) (show c.notes (.giveUp worker) = [].map _ from rfl)
      .giveUp
  · refine stays ?_
    unfold giveUp
    split
    · rename_i member
      exact if_neg fun h => due ⟨_, _, _, _, _, member, h⟩
    · rfl

theorem allGoOn_abort (worker : Nat) : c.AllGoOn (.abort worker) := by
  cases hm : c.members[worker]? with
  | none =>
    have nobody : c.move (.abort worker) = c ∧ c.notes (.abort worker) = [] := still_of_nobody rfl hm
    exact (AllFare.of_still nobody.1 nobody.2).allGoOn
  | some m =>
    by_cases kept : m.isAbortable = true
    · have notes : c.notes (.abort worker) = [Event.aborted].map fun e => ⟨some worker, e⟩ := by
        simp [Crew.notes, hm, kept]
      exact .of_replaces hm (replaces_setPost hm .gone (by simp [move, abort, hm, kept])) notes (.abort kept)
    · exact (AllFare.of_still (by simp [move, abort, hm, kept]) (by simp [notes, hm, kept])).allGoOn

theorem allGoOn (mv : Move) : c.AllGoOn mv := by
  cases mv with
  | poll worker position => exact allGoOn_poll worker position
  | giveUp worker => exact allGoOn_giveUp worker
  | abort worker => exact allGoOn_abort worker
  | _ => exact (fares_move rfl).allGoOn

/-! ## Settings and the clock -/

/-- No move changes what the executor is set to. -/
theorem settings_move (c : Crew φ) (mv : Move) :
    (c.move mv).engine = c.engine ∧ (c.move mv).target = c.target := by
  cases mv with
  | request r =>
    cases r with
    | interruptAll => exact ⟨rfl, rfl⟩
    | interruptConflicting g =>
      simp only [move, serve, interruptConflicting]
      split <;> exact ⟨rfl, rfl⟩
    | layer g =>
      rcases layer_cases g c with refused | ⟨_, _, _, _, _, _, _, -, -, -, layered⟩
      · simp [move, serve, refused]
      · simp [move, serve, layered, setMember]
  | setFocus | setDevice => exact ⟨rfl, rfl⟩
  | _ =>
    simp only [move, start, stop, work, beginRound, ask, dispatch, stepRun, seeToFocus, wait, handIn, closeLate,
      poll, join, notice, giveUp, abort, letGo, tick, close, enter, setPost, setMember]
    (repeat' split) <;> exact ⟨rfl, rfl⟩

theorem settings_play (c : Crew φ) (moves : List Move) :
    (c.play moves).engine = c.engine ∧ (c.play moves).target = c.target := by
  induction moves generalizing c with
  | nil => exact ⟨rfl, rfl⟩
  | cons mv moves ih =>
    obtain ⟨engine, target⟩ := settings_move c mv
    obtain ⟨engine', target'⟩ := ih (c.move mv)
    exact ⟨engine'.trans engine, target'.trans target⟩

/-- Time passes in no move but that of the clock. -/
theorem now_move (c : Crew φ) {mv : Move} (still : mv ≠ .tick) : (c.move mv).now = c.now := by
  cases mv with
  | tick => exact absurd rfl still
  | request r =>
    cases r with
    | interruptAll => rfl
    | interruptConflicting g =>
      simp only [move, serve, interruptConflicting]
      split <;> rfl
    | layer g =>
      rcases layer_cases g c with refused | ⟨_, _, _, _, _, _, _, -, -, -, layered⟩
      · simp [move, serve, refused]
      · simp [move, serve, layered, setMember]
  | setFocus | setDevice => rfl
  | _ =>
    simp only [move, start, stop, work, beginRound, ask, dispatch, stepRun, seeToFocus, wait, handIn, closeLate,
      poll, join, notice, giveUp, abort, letGo, close, enter, setPost, setMember]
    (repeat' split) <;> rfl

/-! ## How many workers there are -/

omit [Feed φ] in
@[simp] theorem length_setMember (c : Crew φ) (w : Nat) (m : Member) :
    (c.setMember w m).members.length = c.members.length := by simp [setMember]

omit [Feed φ] in
@[simp] theorem length_setPost (c : Crew φ) (w : Nat) (post : Post) :
    (c.setPost w post).members.length = c.members.length := by simp [setPost]

omit [Feed φ] in
@[simp] theorem length_enter (c : Crew φ) (w : Nat) (phase : Phase) (post : Post) :
    (c.enter w phase post).members.length = c.members.length := by simp [enter]

omit [Feed φ] in
@[simp] theorem length_mapRuns (f : Nat → Shift → Ledger → Run → Run) (c : Crew φ) :
    (c.mapRuns f).members.length = c.members.length := by simp [mapRuns]

/-- Workers are hired by a start only. -/
theorem length_move {mv : Move} (h : mv ≠ .start) : (c.move mv).members.length = c.members.length := by
  cases mv with
  | start => exact absurd rfl h
  | stop =>
    simp only [move, stop]
    split
    · rfl
    · simp [interruptAll, cancelUnder, cancelListed]
  | request r =>
    cases r with
    | interruptAll => simp [move, serve, interruptAll, cancelUnder, cancelListed]
    | interruptConflicting g =>
      simp only [move, serve, interruptConflicting]
      split <;> simp [cancelListed]
    | layer g =>
      rcases layer_cases g c with refused | ⟨worker, b, k, run, ledger, _, _, gate, member, -, layered⟩
      · simp [move, serve, refused]
      · simp [move, serve, layered]
  | _ =>
    simp only [move, work, beginRound, ask, dispatch, stepRun, seeToFocus, wait, handIn, closeLate, poll, join,
      notice, giveUp, abort, letGo, tick, close]
    try (repeat' split)
    all_goals simp

/-- A worker that is not there may be hired. -/
theorem hired_move {w : Nat} (nobody : c.members[w]? = none) (mv : Move) :
    (c.move mv).members[w]? = none ∨ (c.move mv).members[w]? = some {} := by
  have beyond := List.getElem?_eq_none_iff.1 nobody
  by_cases h : mv = .start
  · subst h
    simp only [move, start]
    split
    · exact .inl nobody
    · rcases Nat.lt_or_eq_of_le beyond with lt | eq
      · exact .inl (List.getElem?_eq_none_iff.2 (by simp only [List.length_append, List.length_singleton]; omega))
      · exact .inr (by simp [← eq])
  · exact .inl (List.getElem?_eq_none_iff.2 (by rw [length_move h]; exact beyond))

/-! ## What is seen of a move -/

/-- What may be seen of a move, with the worker or the action it is seen of. -/
inductive Reveals (c : Crew φ) : Move → Note → Prop
  | asked {w : Nat} {m : Member} (hm : c.members[w]? = some m) :
      c.Reveals (.work w) ⟨some w, .asked c.now (Feed.next c.now c.feed).1⟩
  | reported {w : Nat} {b : Bool} {k : Nat} {report : Report} {faulty : Bool}
      (hm : c.members[w]? = some ⟨b, k, .reporting report faulty⟩) :
      c.Reveals (.work w) ⟨some w, .reported report⟩
  | left {w : Nat} {m : Member} (hm : c.members[w]? = some m) : c.Reveals (.work w) ⟨some w, .left⟩
  | called {w position : Nat} {m : Member} {call : Call} (hm : c.members[w]? = some m) :
      c.Reveals (.poll w position) ⟨some w, .called call⟩
  | letGo {index : Nat} {l : Leftover} (hl : c.leftovers[index]? = some l) :
      c.Reveals (.letGo index)
        ⟨none, .called ⟨c.now, l.group, l.position, .up l.input, c.device.respond (.up l.input)⟩⟩
  | aborted {w : Nat} {m : Member} (hm : c.members[w]? = some m) : c.Reveals (.abort w) ⟨some w, .aborted⟩
  | layered {w : Nat} {m : Member} {g : Group} (hm : c.members[w]? = some m) :
      c.Reveals (.request (.layer g)) ⟨some w, .layered g⟩

/-- The move of a worker shows nothing if the worker is not there. -/
theorem exists_member_of_mem_notes {mv : Move} {n : Note} {w : Nat} (about : mv.worker? = some w)
    (hn : n ∈ c.notes mv) : ∃ m, c.members[w]? = some m := by
  cases hm : c.members[w]? with
  | some m => exact ⟨m, rfl⟩
  | none =>
    rw [(still_of_nobody about hm).2] at hn
    cases hn

theorem reveals_of_workEvents {w : Nat} {e : Event} (he : e ∈ c.workEvents w) :
    c.Reveals (.work w) ⟨some w, e⟩ := by
  unfold workEvents at he
  split at he
  · cases he
  · rename_i m hm
    obtain ⟨b, k, post⟩ := m
    cases post with
    | asking =>
      obtain rfl := List.mem_singleton.1 he
      exact .asked hm
    | reporting report faulty =>
      obtain rfl := List.mem_singleton.1 he
      exact .reported hm
    | checking | sleeping due =>
      simp only at he
      split at he
      · obtain rfl := List.mem_singleton.1 he
        exact .left hm
      · cases he
    | taken | running | crashed | gone => cases he

/-- Nothing else is seen of a move. -/
theorem reveals_of_notes {mv : Move} {n : Note} (hn : n ∈ c.notes mv) : c.Reveals mv n := by
  cases mv with
  | work worker =>
    obtain ⟨e, he, rfl⟩ := List.mem_map.1 hn
    exact reveals_of_workEvents he
  | poll worker position =>
    obtain ⟨m, hm⟩ := exists_member_of_mem_notes rfl hn
    obtain ⟨e, he, rfl⟩ := List.mem_map.1 hn
    obtain ⟨s, -, rfl⟩ := List.mem_map.1 he
    exact .called hm
  | letGo index =>
    obtain ⟨e, he, rfl⟩ := List.mem_map.1 hn
    cases hl : c.leftovers[index]? with
    | none => simp [Crew.letGo, hl, callsSince] at he
    | some l =>
      have grown : (c.letGo index).sent = c.sent ++
          [⟨l.shift, ⟨c.now, l.group, l.position, .up l.input, c.device.respond (.up l.input)⟩⟩] := by
        simp [Crew.letGo, hl]
      rw [callsSince_of_append grown] at he
      obtain rfl := List.mem_singleton.1 he
      exact .letGo hl
  | abort worker =>
    obtain ⟨m, hm⟩ := exists_member_of_mem_notes rfl hn
    simp only [notes] at hn
    split at hn
    · obtain rfl := List.mem_singleton.1 hn
      exact .aborted hm
    · cases hn
  | request r =>
    cases r with
    | layer g =>
      rcases layer_cases g c with refused | ⟨worker, b, k, run, ledger, _, _, gate, hm, -, accepted⟩
      · simp [notes, refused] at hn
      · simp only [notes, accepted, gate, if_true, List.mem_singleton] at hn
        subst hn
        exact .layered hm
    | interruptAll | interruptConflicting g => cases hn
  | closeLate | join | notice | giveUp | tick | start | stop | setFocus | setDevice => cases hn

/-- What is seen of a move is seen of a worker that is there, or of none. -/
theorem exists_member_of_notes {mv : Move} {n : Note} (hn : n ∈ c.notes mv) {w : Nat}
    (about : n.worker = some w) : ∃ m, c.members[w]? = some m := by
  cases reveals_of_notes hn with
  | letGo => cases about
  | asked hm | reported hm | left hm | called hm | aborted hm | layered hm =>
    cases about
    exact ⟨_, hm⟩

theorem eventsOf_of_nobody {w : Nat} (nobody : c.members[w]? = none) (mv : Move) : c.eventsOf w mv = [] := by
  rw [eventsOf, List.map_eq_nil_iff, List.filter_eq_nil_iff]
  intro n hn own
  obtain ⟨m, hm⟩ := exists_member_of_notes hn (beq_iff_eq.1 own)
  cases nobody.symm.trans hm

/-- Nothing more is seen of a worker that has left, and it does not come back. -/
theorem gone_move {w : Nat} {m : Member} (hm : c.members[w]? = some m) (gone : m.post = .gone) (mv : Move) :
    c.eventsOf w mv = [] ∧ ∃ m', (c.move mv).members[w]? = some m' ∧ m'.post = .gone := by
  obtain ⟨b, k, post⟩ := m
  obtain rfl : post = .gone := gone
  obtain ⟨m', hm', fares | spends⟩ := allGoOn mv w _ hm
  · generalize c.eventsOf w mv = es at fares
    cases fares with
    | told => exact ⟨rfl, _, hm', rfl⟩
    | leave top => simp at top
    | begin top => simp at top
  · generalize c.eventsOf w mv = es at spends
    cases spends with
    | abort kept => simp [Member.isAbortable] at kept

/-- What is seen of a worker is seen of one that has not left. -/
theorem exists_there_of_notes {mv : Move} {n : Note} (hn : n ∈ c.notes mv) {w : Nat}
    (about : n.worker = some w) : ∃ m, c.members[w]? = some m ∧ m.post ≠ .gone := by
  obtain ⟨m, hm⟩ := exists_member_of_notes hn about
  refine ⟨m, hm, fun gone => ?_⟩
  have own : n.event ∈ c.eventsOf w mv := List.mem_map_of_mem (List.mem_filter.2 ⟨hn, by simp [about]⟩)
  rw [(gone_move hm gone mv).1] at own
  cases own

end Crew

end Combo
