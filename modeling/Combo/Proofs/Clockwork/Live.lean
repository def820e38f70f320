-- SUMMARY: The kinds of the actions that may still run: no turn adds to them, except where a group is handed out or layered.
import Mathlib.Data.List.Basic
import Combo.Proofs.Clockwork.Entries
import Combo.Proofs.Executor.Dispatch

/-!
# Live kinds

An action of the worker's group is live while nothing has interrupted it: in a
run it is listed then, and before dispatch it is spared by the interrupts that
were noted. Only the feed and layering bring live actions; every other turn keeps
some of those there are, in their order. An interrupt by a group leaves no live
action that the kinds of the group interrupt.
-/

namespace Combo

theorem Kind.interrupted_append (a : Kind) (first second : List Kind) :
    a.interrupted (first ++ second) = (a.interrupted first || a.interrupted second) := by
  simp [interrupted]

/-- What one list gives, place for place, or does not give, is a part of what the other gives. -/
theorem filterMap_sublist_of_getElem? {α β : Type} {f f' : α → Option β} {l l' : List α}
    (hlength : l'.length = l.length)
    (h : ∀ (i : Nat) (a a' : α), l[i]? = some a → l'[i]? = some a' → f' a' = f a ∨ f' a' = none) :
    (l'.filterMap f').Sublist (l.filterMap f) := by
  induction l generalizing l' with
  | nil =>
      rw [List.length_eq_zero_iff.1 hlength]
      exact List.nil_sublist _
  | cons a l ih =>
      cases l' with
      | nil => cases hlength
      | cons a' l' =>
          have rest := ih (Nat.succ.inj hlength) fun i b b' hb hb' => h (i + 1) b b' hb hb'
          rw [List.filterMap_cons, List.filterMap_cons]
          rcases h 0 a a' rfl rfl with heq | heq
          · rw [heq]
            cases f a with
            | none => exact rest
            | some b => exact rest.cons_cons b
          · rw [heq]
            cases f a with
            | none => exact rest
            | some b => exact rest.cons b

/-- The kind of an entry, while it can be cancelled. -/
def Entry.listedKind? (e : Entry) : Option Kind := if e.cancelled then none else some e.action.kind

namespace Run

/-- What is listed shows what its entries show that are not cancelled. -/
theorem map_listed_eq {β : Type} (f : Entry → β) (entries : List Entry) :
    (listed entries).map f = entries.filterMap fun e => if e.cancelled then none else some (f e) := by
  unfold listed
  induction entries with
  | nil => rfl
  | cons e entries ih => cases hc : e.cancelled <;> simp_all

/-- The kinds of the actions that can still be cancelled. -/
def listedKinds (r : Run) : List Kind := (listed r.entries).map (·.action.kind)

theorem listedKinds_eq (r : Run) : r.listedKinds = r.entries.filterMap Entry.listedKind? :=
  map_listed_eq _ r.entries

variable {device : Device} {attackMs now : Nat} {r r' : Run}

/-- No change of a run adds to what is listed, unless something is layered on. -/
theorem Change.map_listed_sublist {β : Type} {f : Entry → β}
    (stays : ∀ e e' : Entry, e.Evolves e' → f e' = f e) (h : Change device attackMs now [] r r') :
    ((listed r'.entries).map f).Sublist ((listed r.entries).map f) := by
  rw [map_listed_eq, map_listed_eq]
  refine filterMap_sublist_of_getElem? ?_ ?_
  · have hlength := congrArg List.length h.actions
    simpa [Run.actions] using hlength
  · intro i e e' he he'
    obtain ⟨e'', he'', change⟩ := h.kept i e he
    cases he'.symm.trans he''
    cases hc' : e'.cancelled with
    | true => exact .inr rfl
    | false =>
        have hc : e.cancelled = false := by
          cases hc : e.cancelled with
          | false => rfl
          | true => exact absurd (change.evolves.cancelled hc) (by simp [hc'])
        simp [hc, stays e e' change.evolves]

theorem Change.listedKinds_sublist (h : Change device attackMs now [] r r') :
    r'.listedKinds.Sublist r.listedKinds :=
  h.map_listed_sublist fun _ _ evolves => congrArg Action.kind evolves.action

/-- What is layered on is listed after what was. -/
theorem layer_listedKinds (actions : List Action) (r : Run) :
    (r.layer actions).listedKinds = r.listedKinds ++ actions.map (·.kind) := by
  obtain ⟨new, heq, rfl, fresh⟩ := exists_layer actions r
  have hnew : listed new = new := List.filter_eq_self.2 fun e he => by simp [(fresh e he).1]
  have happend : listed (r.entries ++ new) = listed r.entries ++ new := by
    rw [listed, List.filter_append]
    exact congrArg (listed r.entries ++ ·) hnew
  rw [heq, listedKinds, happend, List.map_append, List.map_map]
  rfl

/-- Of a dispatched group the spared actions are listed. -/
theorem dispatch_listedKinds (requireFocus : Bool) (d : Deferred) (t : Ticket) :
    (dispatch requireFocus d t).listedKinds = (d.spared t.group).kinds := by
  obtain ⟨hactions, fresh⟩ := dispatch_spec requireFocus {} ⟨t.id, d.spared t.group⟩
  have hall : listed (dispatch requireFocus {} ⟨t.id, d.spared t.group⟩).entries =
      (dispatch requireFocus {} ⟨t.id, d.spared t.group⟩).entries :=
    List.filter_eq_self.2 fun e he => by
      have hfresh := fresh e he
      rw [Entry.IsDispatched, if_neg (by simp)] at hfresh
      simp [hfresh.1]
  rw [listedKinds, dispatch_listed, hall, Group.kinds, ← hactions, actions, List.map_map]
  rfl

/-- After an interrupt nothing is listed that the incoming kinds interrupt. -/
theorem interruptConflicting_clear (kinds : List Kind) (r : Run) :
    ∀ kind ∈ (r.interruptConflicting kinds).1.listedKinds, kind.interrupted kinds = false := by
  intro kind hkind
  obtain ⟨e', he', rfl⟩ := List.mem_map.1 hkind
  obtain ⟨he', listed⟩ := List.mem_filter.1 he'
  obtain ⟨e, -, rfl⟩ := List.mem_map.1 he'
  cases hit : Entry.hitBy kinds e with
  | true => simp [hit] at listed
  | false =>
      simp only [hit, Bool.false_eq_true, if_false, Bool.not_eq_true'] at listed ⊢
      simpa [Entry.hitBy, listed] using hit

end Run

/-! ## Stages -/

namespace Stage

/-- The kinds of the actions of the worker's group that nothing has interrupted. -/
def liveKinds : Stage → List Kind
  | .taken t d => (d.spared t.group).kinds
  | .running _ run => run.listedKinds
  | .checking | .asking _ | .reporting _ _ | .sleeping _ | .crashed => []

/-- More noted interrupts spare less. -/
theorem spared_sublist {d d' : Deferred} (h : ∀ a, d.hits a = true → d'.hits a = true) (g : Group) :
    (d'.spared g).kinds.Sublist (d.spared g).kinds := by
  refine List.Sublist.map _ (List.monotone_filter_right g.actions fun a spared => ?_)
  cases hit : d.hits a with
  | false => rfl
  | true => simp [h a hit] at spared

theorem liveKinds_interruptAll (stage : Stage) :
    stage.interruptAll.liveKinds.Sublist stage.liveKinds := by
  cases stage with
  | taken t d => exact spared_sublist (fun a _ => by simp [Deferred.hits]) t.group
  | running step run =>
      have change : Run.Change {} 0 0 [] run run.interruptAll.1 := Run.change_interruptAll run
      exact change.listedKinds_sublist
  | checking | asking | reporting | sleeping | crashed => exact .refl _

theorem liveKinds_interruptConflicting (kinds : List Kind) (stage : Stage) :
    (stage.interruptConflicting kinds).liveKinds.Sublist stage.liveKinds := by
  cases stage with
  | taken t d =>
      refine spared_sublist (fun a hit => ?_) t.group
      simp only [Deferred.hits, Bool.or_eq_true, Kind.interrupted_append] at hit ⊢
      exact hit.imp_right .inl
  | running step run =>
      have change : Run.Change {} 0 0 [] run (run.interruptConflicting kinds).1 :=
        Run.change_interruptConflicting kinds run
      exact change.listedKinds_sublist
  | checking | asking | reporting | sleeping | crashed => exact .refl _

/-- After an interrupt no action is live that the incoming kinds interrupt. -/
theorem interruptConflicting_clear (kinds : List Kind) (stage : Stage) :
    ∀ kind ∈ (stage.interruptConflicting kinds).liveKinds, kind.interrupted kinds = false := by
  cases stage with
  | taken t d =>
      intro kind hkind
      obtain ⟨a, ha, rfl⟩ := List.mem_map.1 hkind
      have spared := (List.mem_filter.1 ha).2
      simp only [Deferred.hits, Kind.interrupted_append, Bool.not_eq_true', Bool.or_eq_false_iff]
        at spared
      exact spared.2.2
  | running step run => exact run.interruptConflicting_clear kinds
  | checking | asking | reporting | sleeping | crashed =>
      intro kind hkind
      cases hkind

end Stage

/-! ## Executors -/

namespace Executor

/-- The kinds of the actions of the worker's group that nothing has interrupted. -/
def liveKinds (x : Executor) : List Kind :=
  match x.worker with
  | some w => w.stage.liveKinds
  | none => []

variable {x x' : Executor} {b b' : Bool} {stage stage' : Stage}

theorem liveKinds_of_some (h : x.worker = some ⟨b, stage⟩) : x.liveKinds = stage.liveKinds := by
  simp only [liveKinds, h]

theorem liveKinds_of_none (h : x.worker = none) : x.liveKinds = [] := by
  simp only [liveKinds, h]

/-- An executor whose worker is at a part of what it was at has a part of the live actions. -/
theorem liveKinds_sublist_of_stage (h : x.worker = some ⟨b, stage⟩)
    (h' : x'.worker = some ⟨b', stage'⟩) (part : stage'.liveKinds.Sublist stage.liveKinds) :
    x'.liveKinds.Sublist x.liveKinds := by
  rw [liveKinds_of_some h, liveKinds_of_some h']
  exact part

/-- A group that is layered on brings its actions, and one that is refused brings none. -/
theorem layer_liveKinds (g : Group) (x : Executor) :
    (x.layer g).1.liveKinds = x.liveKinds ∨ (x.layer g).1.liveKinds = x.liveKinds ++ g.kinds := by
  rcases layer_cases g x with ⟨b, run, hw, -, -, heq⟩ | heq
  · rw [heq, liveKinds_of_some hw]
    exact .inr (run.layer_listedKinds g.actions)
  · rw [heq]
    exact .inl rfl

/-- After an interrupt no action is live that the incoming kinds interrupt. -/
theorem interruptConflicting_clear (g : Group) (x : Executor) :
    ∀ kind ∈ (x.interruptConflicting g).1.liveKinds, kind.interrupted g.kinds = false := by
  rw [interruptConflicting_fst]
  cases hw : x.worker with
  | none =>
      intro kind hkind
      rw [mapStage_of_none hw, liveKinds_of_none hw] at hkind
      cases hkind
  | some w =>
      obtain ⟨b, stage⟩ := w
      rw [mapStage_of_some hw]
      exact stage.interruptConflicting_clear g.kinds

end Executor

namespace Clockwork

variable {φ : Type} [Feed φ] {s s' : Clockwork φ} {es : List Event}

open Executor

omit [Feed φ] in
/-- A run that changes without being layered onto gets no live actions. -/
theorem liveKinds_sublist_of_change {b b' : Bool} {step step' : Step} {run run' : Run}
    (h : s.executor.worker = some ⟨b, .running step run⟩)
    (h' : s'.executor.worker = some ⟨b', .running step' run'⟩)
    (change : Run.Change s.executor.device s.executor.engine.attackMs s.now [] run run') :
    s'.executor.liveKinds.Sublist s.executor.liveKinds :=
  liveKinds_sublist_of_stage h h' change.listedKinds_sublist

/-- No stride adds live actions, except where a group is handed out. -/
theorem Stride.liveKinds_sublist (stride : Stride s es s')
    (unhanded : ∀ now t, .asked now (.group t) ∉ es) :
    s'.executor.liveKinds.Sublist s.executor.liveKinds := by
  cases stride with
  | rest | tick | refocus | rewire => exact .refl _
  | start | leave | begin | miss | crash | finish => exact List.nil_sublist _
  | handIn hw hstage =>
      split at hstage <;> rw [hstage] <;> exact List.nil_sublist _
  | hand => exact absurd List.mem_cons_self (unhanded _ _)
  | @dispatch b t d run hw hrun =>
      have part : run.listedKinds.Sublist (d.spared t.group).kinds := by
        rw [hrun, Run.dispatch_listedKinds]
      exact liveKinds_sublist_of_stage hw rfl part
  | focused hw | activated hw | settled hw | closeEmpty hw | joined hw =>
      exact liveKinds_sublist_of_change hw rfl (Run.change_refl _)
  | unfocused hw => exact liveKinds_sublist_of_change hw rfl (Run.change_failAll _ _)
  | opened hw | closeLate hw =>
      exact liveKinds_sublist_of_change hw rfl (Run.change_releaseAll _)
  | receive hw => exact liveKinds_sublist_of_change hw rfl (Run.change_receive _)
  | poll hw hentry ready hpoll =>
      exact liveKinds_sublist_of_change hw rfl (Run.change_set _ hentry (.poll ready hpoll))

/-- No turn adds live actions, except where a group is handed out or layered. -/
theorem Turn.liveKinds_sublist (turn : Turn s es s') (unhanded : ∀ now t, .asked now (.group t) ∉ es)
    (unlayered : ∀ g, Event.layered g ∉ es) :
    s'.executor.liveKinds.Sublist s.executor.liveKinds := by
  cases turn with
  | stride stride => exact stride.liveKinds_sublist unhanded
  | bury | abort | vanish => exact List.nil_sublist _
  | interruptAll hw => exact liveKinds_sublist_of_stage hw rfl (Stage.liveKinds_interruptAll _)
  | interruptConflicting g hw =>
      exact liveKinds_sublist_of_stage hw rfl (Stage.liveKinds_interruptConflicting _ _)
  | layer g => exact absurd List.mem_cons_self (unlayered g)

end Clockwork

end Combo
