-- SUMMARY: Actions that conflict never run at the same time, and what is held is what running actions drive or was let up in vain.
import Mathlib.Data.List.Pairwise
import Mathlib.Data.List.Perm.Subperm
import Combo.Proofs.Clockwork.Live
import Combo.Proofs.Clockwork.Release
import Combo.Proofs.Environment.Incident

/-!
# Coexistence

As long as no group of a script has two actions that conflict, no two listed
actions of the running group do, even though groups are layered onto it. The
interrupt before the layering leaves no live action that conflicts with the group
to be layered, and until then none can come, because live actions come with groups
that are handed out, and the queue is locked. `Environment.Compatible` is the
invariant: the pending groups, and the live actions, are free of conflicts.

When no action can go on, those that hold an input are listed, so that the device
holds no more than the inputs of listed actions, and those it refused to let up.
-/

namespace Combo

/-! ## Compatible kinds -/

namespace Kind

/-- Whether of some kinds, each for one action, none displaces another. -/
def Compatible (kinds : List Kind) : Prop :=
  kinds.Pairwise fun a b => a.interrupted [b] = false

instance (kinds : List Kind) : Decidable (Compatible kinds) :=
  inferInstanceAs (Decidable (List.Pairwise _ _))

theorem interrupted_singleton (a b : Kind) : a.interrupted [b] = a.displacedBy b := by
  simp [interrupted]

theorem Compatible.sublist {kinds kinds' : List Kind} (h : Compatible kinds)
    (part : kinds'.Sublist kinds) : Compatible kinds' := List.Pairwise.sublist part h

/-- Kinds that none of the incoming ones interrupts can go with those. -/
theorem Compatible.append {kinds incoming : List Kind} (h : Compatible kinds)
    (hin : Compatible incoming) (clear : ∀ a ∈ kinds, a.interrupted incoming = false) :
    Compatible (kinds ++ incoming) := by
  refine List.pairwise_append.2 ⟨h, hin, fun a ha b hb => ?_⟩
  rw [interrupted_singleton]
  exact Bool.eq_false_iff.2 (List.any_eq_false.1 (clear a ha) b hb)

/-- Two different kinds that are listed together do not displace one another. -/
theorem Compatible.of_mem {kinds : List Kind} (h : Compatible kinds) {a b : Kind} (ha : a ∈ kinds)
    (hb : b ∈ kinds) (hne : a ≠ b) : a.displacedBy b = false := by
  have symmetric : Std.Symm fun a b : Kind => a.interrupted [b] = false := by
    refine ⟨fun a b hab => ?_⟩
    rwa [interrupted_singleton, displacedBy_comm, ← interrupted_singleton]
  rw [← interrupted_singleton]
  exact List.Pairwise.forall h ha hb hne

/-- Each direction is driven by one kind alone. -/
theorem of_direction (kind : Kind) :
    (kind.input? = some .forward → kind = .moveForward) ∧
    (kind.input? = some .back → kind = .moveBack) ∧
    (kind.input? = some .left → kind = .moveLeft) ∧
    (kind.input? = some .right → kind = .moveRight) := by
  cases kind <;> decide

end Kind

/-! ## The invariant -/

namespace Environment

/-- Whether pending groups and live actions are free of conflicts. -/
structure Compatible (e : Environment) : Prop where
  pending : ∀ t ∈ e.feed.pending, Kind.Compatible t.group.kinds
  live : Kind.Compatible e.executor.liveKinds

variable {e e' : Environment} {es : List Event}

/-- What is pending after a turn was pending before. -/
theorem pending_suffix_of_turn (turn : Clockwork.Turn e es e') :
    e'.feed.pending <:+ e.feed.pending := by
  cases turn with
  | stride stride =>
      cases stride with
      | hand hw next =>
          rw [(Queue.feedNext_group next).1]
          exact List.suffix_cons _ _
      | miss hw next =>
          obtain rfl := Queue.feedNext_empty next
          exact List.suffix_rfl
      | crash hw next => exact absurd next (Queue.feedNext_ne_crash _ _ _)
      | @handIn b report => exact ⟨[], (Queue.complete_pending e.feed report).1⟩
      | _ => exact List.suffix_rfl
  | _ => exact List.suffix_rfl

/-- A turn that layers nothing brings no conflict. -/
theorem Compatible.turn (h : e.Compatible) (turn : Clockwork.Turn e es e')
    (unlayered : ∀ g, Event.layered g ∉ es) : e'.Compatible where
  pending := fun t ht => h.pending t ((pending_suffix_of_turn turn).subset ht)
  live := by
    by_cases handed : ∃ now t, Event.asked now (.group t) ∈ es
    · obtain ⟨now, t, handed⟩ := handed
      obtain ⟨-, b, d, feed, -, next, rfl⟩ := turn.hands handed
      have part : (d.spared t.group).kinds.Sublist t.group.kinds :=
        List.filter_sublist.map Action.kind
      refine Kind.Compatible.sublist (h.pending t ?_) part
      rw [(Queue.feedNext_group next).1]
      exact List.mem_cons_self
    · exact h.live.sublist
        (turn.liveKinds_sublist (fun now t hmem => handed ⟨now, t, hmem⟩) unlayered)

theorem Compatible.move (h : e.Compatible) {m : Move} (hm : m.isLayering = false) :
    Compatible (Clockwork.move e m) := by
  refine h.turn (Clockwork.turn_move m) fun g hmem => ?_
  rw [isLayering_of_layered hmem] at hm
  cases hm

/-! ## Taking in a script -/

/-- While the queue is locked no live action comes. -/
theorem liveKinds_playFree (e : Environment) (moves : List Move) :
    (e.playFree moves).executor.liveKinds.Sublist e.executor.liveKinds := by
  induction moves generalizing e with
  | nil => exact .refl _
  | cons m moves ih =>
      refine (ih (e.moveFree m)).trans ?_
      unfold moveFree
      split
      · rename_i free
        refine (Clockwork.turn_move m).liveKinds_sublist (fun now t hmem => ?_) fun g hmem => ?_
        · rcases events_of_isFree free hmem with ⟨call, heq⟩ | heq | heq <;> cases heq
        · rcases events_of_isFree free hmem with ⟨call, heq⟩ | heq | heq <;> cases heq
      · exact .refl _

/-- When the queue gets to layer a group, no live action conflicts with it. -/
theorem halfway_clear (e : Environment) (g : Group) (between : List Move) :
    ∀ kind ∈ (e.halfway g between).executor.liveKinds, kind.interrupted g.kinds = false := by
  intro kind hkind
  exact e.executor.interruptConflicting_clear g kind ((liveKinds_playFree _ between).subset hkind)

/-- With what happens between the two calls, to make room for a script brings no conflict. -/
theorem Compatible.makeRoom (h : e.Compatible) {groups : List Group}
    (own : ∀ g ∈ groups, Kind.Compatible g.kinds) (between : List Move) :
    Kind.Compatible
      (e.feed.makeRoom groups (⟨e, between⟩ : Midway)).1.system.executor.liveKinds := by
  rcases makeRoom_midway_cases e.feed groups ⟨e, between⟩ with
    room | room | ⟨first, rest, rfl, room⟩ <;> rw [room]
  · exact h.live
  · exact (h.move (m := .request .interruptAll) rfl).live
  · have interrupted := (h.move (m := .request (.interruptConflicting first)) rfl).live
    have live := interrupted.sublist (liveKinds_playFree _ between)
    rcases (e.halfway first between).executor.layer_liveKinds first with heq | heq
    · exact heq ▸ live
    · exact heq ▸ live.append (own first List.mem_cons_self) (halfway_clear e first between)

/-- To drop all work brings no conflict. -/
theorem Compatible.dropWork (h : e.Compatible) :
    Kind.Compatible (e.feed.dropWork e.executor).2.liveKinds := by
  unfold Queue.dropWork
  split
  · exact h.live
  · exact (h.move (m := .request .interruptAll) rfl).live

/-- An incident that takes in groups that are free of conflicts brings no conflict. -/
theorem Compatible.undergo (h : e.Compatible) (incident : Incident)
    (own : ∀ g ∈ e.accepted incident, Kind.Compatible g.kinds) : (e.undergo incident).Compatible := by
  cases incident with
  | add script between =>
      rcases undergo_add e script between with ⟨errors, heq⟩ | ⟨-, heq⟩ <;> rw [heq]
      · exact ⟨h.pending, h.live⟩
      · refine ⟨fun t ht => own t.group ?_, h.makeRoom own between⟩
        exact Queue.group_of_mem_number (Queue.mem_accept_pending ht)
  | clear => exact ⟨by simp [Environment.undergo, clear, Queue.clear, Queue.dropWork], h.dropWork⟩
  | resetErrors => exact ⟨h.pending, h.live⟩
  | stopQueue => exact ⟨by simp [Environment.undergo, Queue.stop, Queue.dropWork], h.dropWork⟩
  | move m =>
      simp only [Environment.undergo]
      split
      · exact h
      · rename_i hm
        exact h.move (by simpa using hm)

theorem Compatible.undergoAll (h : e.Compatible) (incidents : List Incident)
    (own : ∀ g ∈ e.acceptedAll incidents, Kind.Compatible g.kinds) :
    (e.undergoAll incidents).Compatible := by
  induction incidents generalizing e with
  | nil => exact h
  | cons incident incidents ih =>
      refine ih (h.undergo incident fun g hg => own g ?_) fun g hg => own g ?_
      · exact List.mem_append_left _ hg
      · exact List.mem_append_right _ hg

end Environment

/-! ## What is held -/

namespace Executor

/-- The kinds of the actions that are listed under a key. -/
def listedKinds (x : Executor) : List Kind :=
  match x.run? with
  | some run => run.listedKinds
  | none => []

/-- The inputs that listed actions drive. -/
def listedInputs (x : Executor) : List Input := x.listedKinds.filterMap Kind.input?

variable {x : Executor}

theorem listedKinds_of_running {b : Bool} {step : Step} {run : Run}
    (h : x.worker = some ⟨b, .running step run⟩) : x.listedKinds = run.listedKinds := by
  unfold listedKinds
  rw [run?_of_some h]
  rfl

/-- What is listed is live. -/
theorem listedKinds_sublist (x : Executor) : x.listedKinds.Sublist x.liveKinds := by
  unfold listedKinds
  split
  · rename_i run hrun
    unfold Executor.run? at hrun
    split at hrun
    · rename_i b step run' hw
      cases hrun
      rw [liveKinds_of_some hw]
      exact .refl _
    · cases hrun
  · exact List.nil_sublist _

/-- An input that a listed action drives is driven by a kind that is listed. -/
theorem mem_listedInputs {input : Input} (h : input ∈ x.listedInputs) :
    ∃ kind ∈ x.listedKinds, kind.input? = some input := List.mem_filterMap.1 h

end Executor

/-- When no action of a run can go on, those that hold an input are listed. -/
theorem Run.holding_sublist {run : Run} {now : Nat} (quiet : run.runnable? now = none)
    (own : ∀ e ∈ run.entries, e.HoldsOwn) :
    run.holding.Sublist (run.listedKinds.filterMap Kind.input?) := by
  rw [listedKinds_eq, List.filterMap_filterMap]
  refine filterMap_sublist_of_getElem? rfl fun i e e' he he' => ?_
  cases he.symm.trans he'
  have hmem := List.mem_of_getElem? he
  cases held : e.progress.held? with
  | none => exact .inr rfl
  | some input =>
      have still := List.findIdx?_eq_none_iff.1 quiet e hmem
      have listed : e.cancelled = false := by
        cases hp : e.progress <;> simp_all [Progress.held?, Entry.runnable, Progress.runnable]
      refine .inl ?_
      simp [Entry.listedKind?, listed, own e hmem input held]

namespace Clockwork

variable {φ : Type} {s : Clockwork φ}

/-- When no action can go on, what is held is driven by listed actions. -/
theorem holding_sublist (sound : s.executor.Sound) (own : s.executor.HoldsOwn)
    (quiet : s.runnable? = none) : s.executor.holding.Sublist s.executor.listedInputs := by
  cases hrun : s.executor.run? with
  | none =>
      have nothing : s.executor.HoldsNothing := by
        intro run h
        rw [hrun] at h
        cases h
      rw [nothing.holding]
      exact List.nil_sublist _
  | some run =>
      obtain ⟨step, b, hw⟩ := exists_isRunning hrun
      rw [Executor.holding_of_running hw, Executor.listedInputs, Executor.listedKinds_of_running hw]
      cases step with
      | joining accepting =>
          simp only [runnable?, hw] at quiet
          exact Run.holding_sublist quiet (own run hrun)
      | focusing | settling | opening | closing =>
          rw [(Run.holdsNothing_of_isAt (sound _ _ _ hw).1 (by simp)).holding]
          exact List.nil_sublist _

end Clockwork

/-! ## Coexistence -/

namespace Executor

/-- Of two inputs that displacing kinds alone drive, one is not held, or was let up in vain. -/
theorem mem_stuck_of_opposites {x : Executor} (compatible : Kind.Compatible x.listedKinds)
    (held : x.held.Subperm (x.listedInputs ++ x.stuck)) {input input' : Input} {a b : Kind}
    (ha : ∀ kind : Kind, kind.input? = some input → kind = a)
    (hb : ∀ kind : Kind, kind.input? = some input' → kind = b)
    (displaced : a.displacedBy b = true) (hne : a ≠ b)
    (hin : input ∈ x.held) (hin' : input' ∈ x.held) : input ∈ x.stuck ∨ input' ∈ x.stuck := by
  rcases List.mem_append.1 (held.subset hin) with listed | stuck
  · rcases List.mem_append.1 (held.subset hin') with listed' | stuck
    · obtain ⟨kind, hkind, drives⟩ := mem_listedInputs listed
      obtain ⟨kind', hkind', drives'⟩ := mem_listedInputs listed'
      rw [ha kind drives] at hkind
      rw [hb kind' drives'] at hkind'
      rw [compatible.of_mem hkind hkind' hne] at displaced
      cases displaced
    · exact .inr stuck
  · exact .inl stuck

end Executor

namespace Environment

/-- A walk ahead is handed out and begun. -/
def walkAhead : List Incident :=
  [.move .start, .add "w(5)" [], .move .work, .move .work, .move .work, .move .work, .move .work,
    .move (.poll 0)]

/-- A walk back and to the left is layered on, and the walk ahead is let go of before that. -/
def turnBack : List Incident :=
  walkAhead ++ [.add "a(2)&s(1)" [.poll 0], .move .work, .move .work, .move (.poll 1),
    .move (.poll 2)]

/-- A walk back is layered on, but the device refuses to let the walk ahead go. -/
def stuckAhead : List Incident :=
  walkAhead ++ [.move (.setDevice { failing := [.forward] }), .add "s(1)" [], .move (.poll 0),
    .move .work, .move (.poll 1)]

end Environment

end Combo
