-- SUMMARY: What the queue has outstanding is the one group the worker holds, and only then does the queue call the executor.
import Combo.Proofs.Environment.Encounter

/-!
# Outstanding groups

As long as the worker is not taken away, the queue has at most one group
outstanding, and it is the one the worker was handed and has not reported. The
worker holds a group that is not outstanding only if all work was dropped since.
So when nothing is left to do, an idle executor means that nothing is outstanding,
and a queue that calls the executor does so while the worker is at that group.
-/

namespace Combo

/-- What others see of a worker at a stage. -/
def Stage.phase : Stage → Phase
  | .checking | .reporting _ _ | .sleeping _ => .idle
  | .asking _ | .taken _ _ | .crashed => .dequeuing
  | .running _ _ => .running

theorem Stage.phase_interruptAll (stage : Stage) : stage.interruptAll.phase = stage.phase := by
  cases stage <;> rfl

theorem Stage.phase_interruptConflicting (kinds : List Kind) (stage : Stage) :
    (stage.interruptConflicting kinds).phase = stage.phase := by
  cases stage <;> rfl

namespace Environment

/-- Whether the queue has nothing outstanding, or just the group the worker is at. -/
def Outstands (e : Environment) : Prop :=
  e.feed.running = [] ∨ ∃ o, e.feed.running = [o] ∧ e.groupId? = some o.id

/-- Whether the phase others see is that of the worker's stage. -/
structure InPhase (e : Environment) : Prop where
  away : e.executor.worker = none → e.executor.phase = .idle
  present : ∀ b stage, e.executor.worker = some ⟨b, stage⟩ →
    e.executor.phase = stage.phase ∧ stage ≠ .crashed

variable {e e' : Environment} {es : List Event} {m : Move} {id : Nat}

/-! ## Outstanding groups -/

theorem Outstands.eq_nil (h : e.Outstands) (away : e.groupId? = none) : e.feed.running = [] := by
  rcases h with hnil | ⟨o, -, hid⟩
  · exact hnil
  · rw [away] at hid
    cases hid

/-- What is outstanding has the same numbers, and the worker is at the same group. -/
theorem Outstands.of_ids (h : e.Outstands)
    (ids : e'.feed.running.map (·.id) = e.feed.running.map (·.id))
    (group : e.groupId? = e'.groupId?) : e'.Outstands := by
  rcases h with hnil | ⟨o, ho, hid⟩
  · rw [hnil] at ids
    exact .inl (List.map_eq_nil_iff.1 ids)
  · rw [ho] at ids
    obtain ⟨o', ho', hsame⟩ := List.map_eq_singleton_iff.1 ids
    exact .inr ⟨o', ho', by rw [← group, hid, hsame]⟩

/-- A turn in which the worker is not taken away keeps what is outstanding in order. -/
theorem Outstands.turn (h : e.Outstands) (turn : Clockwork.Turn e es e') (whole : .aborted ∉ es) :
    e'.Outstands := by
  cases turn.group with
  | stay before after own feed => exact h.of_ids (by rw [feed]) (before.trans after.symm)
  | handed t before after seen feed =>
      obtain ⟨-, heq⟩ := Queue.feedNext_group feed
      refine .inr ⟨⟨t.id, t.group, e.now⟩, ?_, after⟩
      rw [heq, h.eq_nil before]
      rfl
  | returned report before after seen feed =>
      refine .inl ?_
      rw [feed]
      refine Queue.complete_running ?_
      rcases h with hnil | ⟨o, ho, hid⟩
      · exact .inr hnil
      · exact .inl ⟨o, ho, Option.some.inj (hid.symm.trans before)⟩
  | idle before after seen feed => exact .inl (by rw [feed, h.eq_nil before])
  | missed handout before after seen feed none_ =>
      cases handout with
      | group t => exact absurd rfl (none_ t)
      | empty => exact .inl (by rw [Queue.feedNext_empty feed, h.eq_nil before])
      | crash => exact absurd feed (Queue.feedNext_ne_crash _ _ _)
  | lost gone aborted => exact absurd aborted whole

theorem Outstands.face (h : e.Outstands) (incident : Incident) (within : incident.Within (· ≠ .abort)) :
    (e.face incident).Outstands :=
  face_keeps (P := Outstands) (by simp)
    (fun _ m hm he => he.turn (Clockwork.turn_move m) (Clockwork.not_aborted hm))
    (fun _ _ ids _ he => he.of_ids ids rfl) (fun _ _ hnil _ _ => .inl hnil) h incident within

/-! ## Phases -/

theorem InPhase.of_some {b : Bool} {stage : Stage} (hw : e.executor.worker = some ⟨b, stage⟩)
    (phase : e.executor.phase = stage.phase) (alive : stage ≠ .crashed) : e.InPhase := by
  refine ⟨fun hnone => ?_, fun b' stage' hw' => ?_⟩
  · rw [hw] at hnone
    cases hnone
  · cases hw.symm.trans hw'
    exact ⟨phase, alive⟩

theorem InPhase.stride (h : e.InPhase) (stride : Clockwork.Stride e es e') : e'.InPhase := by
  cases stride with
  | rest | tick | refocus | rewire => exact ⟨h.away, h.present⟩
  | start hw => exact .of_some rfl (h.away hw) (by simp)
  | leave => exact ⟨fun _ => rfl, by simp⟩
  | begin | miss | dispatch | finish => exact .of_some rfl rfl (by simp)
  | hand hw next => exact .of_some rfl (h.present _ _ hw).1 (by simp)
  | crash hw next => exact absurd next (Queue.feedNext_ne_crash _ _ _)
  | focused hw | activated hw | unfocused hw | settled hw | opened hw | receive hw | closeEmpty hw
  | closeLate hw | joined hw | poll hw => exact .of_some rfl (h.present _ _ hw).1 (by simp)
  | @handIn b report faulty stage hw hstage =>
      have phase := (h.present _ _ hw).1
      cases faulty <;> subst hstage <;> exact .of_some rfl phase (by simp)

theorem InPhase.turn (h : e.InPhase) (turn : Clockwork.Turn e es e') (whole : .aborted ∉ es) :
    e'.InPhase := by
  cases turn with
  | stride stride => exact h.stride stride
  | bury hw => exact absurd rfl (h.present _ _ hw).2
  | @interruptAll b stopping stage hw =>
      obtain ⟨phase, alive⟩ := h.present _ _ hw
      refine .of_some rfl (phase.trans stage.phase_interruptAll.symm) ?_
      cases stage <;> first | exact absurd rfl alive | simp [Stage.interruptAll]
  | @interruptConflicting b stage group hw =>
      obtain ⟨phase, alive⟩ := h.present _ _ hw
      refine .of_some rfl (phase.trans (stage.phase_interruptConflicting _).symm) ?_
      cases stage <;> first | exact absurd rfl alive | simp [Stage.interruptConflicting]
  | layer group hw => exact .of_some rfl (h.present _ _ hw).1 (by simp)
  | abort | vanish => simp at whole

theorem InPhase.dropWork (h : e.InPhase) (q : Queue) :
    InPhase { e with feed := q, executor := (e.feed.dropWork e.executor).2 } := by
  have interrupted := h.turn (Clockwork.turn_interruptAll (s := e)) (by simp)
  unfold Queue.dropWork
  split
  · exact ⟨h.away, h.present⟩
  · exact ⟨interrupted.away, interrupted.present⟩

theorem InPhase.face (h : e.InPhase) (incident : Incident) (within : incident.Within (· ≠ .abort)) :
    (e.face incident).InPhase :=
  face_keeps (P := InPhase) (by simp)
    (fun _ m hm he => he.turn (Clockwork.turn_move m) (Clockwork.not_aborted hm))
    (fun _ _ _ _ he => ⟨he.away, he.present⟩) (fun _ q _ _ he => he.dropWork q) h incident within

/-! ## Since a group was handed out -/

theorem groupId?_dropWork (e : Environment) (q : Queue) :
    Clockwork.groupId? ({ e with feed := q, executor := (e.feed.dropWork e.executor).2 } : Environment) =
      e.groupId? := by
  unfold Queue.dropWork
  split
  · rfl
  · change Clockwork.groupId? (e.move (.request .interruptAll)) = e.groupId?
    cases (Clockwork.turn_move (s := e) (.request .interruptAll)).group with
    | stay before after => rw [before, after]
    | idle before after => rw [before, after]
    | handed _ _ _ seen | returned _ _ _ seen | missed _ _ _ seen => cases seen
    | lost _ aborted => cases aborted

/-- What an incident comes to for the group that the worker is at after it. -/
theorem groupId?_face (h : e.Outstands) (incident : Incident)
    (within : incident.Within (· ≠ .abort)) (hid : (e.face incident).groupId? = some id) :
    (e.groupId? = some id ∧ (incident.drops = true ∨
      (e.face incident).feed.running.map (·.id) = e.feed.running.map (·.id))) ∨
    ∃ o, (e.face incident).feed.running = [o] ∧ o.id = id := by
  cases kept : incident.drops with
  | true =>
      refine .inl ⟨?_, .inl rfl⟩
      rw [← hid]
      cases incident with
      | clear => exact (groupId?_dropWork e _).symm
      | stopQueue => exact (groupId?_dropWork e _).symm
      | add | resetErrors | move => cases kept
  | false =>
      have result := face_keeps_of_kept (e := e)
        (P := fun s => s.Outstands ∧ (s.groupId? = some id →
          (e.groupId? = some id ∧ s.feed.running.map (·.id) = e.feed.running.map (·.id)) ∨
          ∃ o, s.feed.running = [o] ∧ o.id = id)) (by simp) ?_ ?_
        ⟨h, fun hid => .inl ⟨hid, rfl⟩⟩ incident within kept
      · rcases result.2 hid with ⟨before, ids⟩ | handed
        · exact .inl ⟨before, .inr ids⟩
        · exact .inr handed
      · rintro s m hm ⟨hs, since⟩
        have turn := Clockwork.turn_move (s := s) m
        refine ⟨hs.turn turn (Clockwork.not_aborted hm), fun hid' => ?_⟩
        cases turn.group with
        | stay before after own feed =>
            rw [feed]
            exact since (before.trans (after.symm.trans hid'))
        | handed t before after seen feed =>
            obtain ⟨-, heq⟩ := Queue.feedNext_group feed
            refine .inr ⟨⟨t.id, t.group, s.now⟩, ?_, Option.some.inj (after.symm.trans hid')⟩
            rw [heq, hs.eq_nil before]
            rfl
        | returned _ _ after | idle _ after | missed _ _ after => cases after.symm.trans hid'
        | lost gone aborted => exact absurd aborted (Clockwork.not_aborted hm)
      · rintro s q ids - ⟨hs, since⟩
        refine ⟨hs.of_ids ids rfl, fun hid' => ?_⟩
        rcases since hid' with ⟨before, same⟩ | ⟨o, ho, rfl⟩
        · exact .inl ⟨before, ids.trans same⟩
        · rw [ho] at ids
          obtain ⟨o', ho', hsame⟩ := List.map_eq_singleton_iff.1 ids
          exact .inr ⟨o', ho', hsame⟩

/--
Whether all work was dropped in the course of some incidents, and the worker was at a group then and
has stayed at it.
-/
def DroppedSince (start : Environment) (incidents : List Incident) (id : Nat) : Prop :=
  ∃ before incident after, incidents = before ++ incident :: after ∧ incident.drops = true ∧
    ∀ part, part <+: incident :: after → (start.faceAll (before ++ part)).groupId? = some id

/-- Everything that happens with the worker never taken away keeps queue and worker in order. -/
theorem outstands_faceAll (h : e.Outstands ∧ e.InPhase) {incidents : List Incident}
    (within : ∀ i ∈ incidents, i.Within (· ≠ .abort)) :
    (e.faceAll incidents).Outstands ∧ (e.faceAll incidents).InPhase :=
  faceAll_keeps (P := fun e => e.Outstands ∧ e.InPhase) h fun _ incident hi he =>
    ⟨he.1.face incident (within incident hi), he.2.face incident (within incident hi)⟩

/-- A group that the worker is at is outstanding, unless all work was dropped since it came to it. -/
theorem outstanding_or_dropped (h : e.Outstands ∧ e.InPhase) (away : e.groupId? = none)
    {incidents : List Incident} (within : ∀ i ∈ incidents, i.Within (· ≠ .abort))
    (hid : (e.faceAll incidents).groupId? = some id) :
    (∃ o, (e.faceAll incidents).feed.running = [o] ∧ o.id = id) ∨ e.DroppedSince incidents id := by
  induction incidents using List.reverseRecOn with
  | nil => cases away.symm.trans hid
  | append_singleton incidents incident ih =>
      have within' : ∀ i ∈ incidents, i.Within (· ≠ .abort) :=
        fun i hi => within i (List.mem_append_left _ hi)
      have here := hid
      rw [faceAll_append_singleton] at hid ⊢
      rcases groupId?_face (outstands_faceAll h within').1 incident (within incident (by simp)) hid with
        ⟨stays, dropped | ids⟩ | handed
      · refine .inr ⟨incidents, incident, [], rfl, dropped, fun part hpart => ?_⟩
        have hpart : part <+: [] ++ [incident] := hpart
        rcases List.prefix_concat_iff.1 hpart with rfl | hnil
        · exact here
        · rw [List.prefix_nil.1 hnil, List.append_nil]
          exact stays
      · rcases ih within' stays with ⟨o, ho, hsame⟩ | ⟨before, i, after, rfl, drops, since⟩
        · rw [ho] at ids
          obtain ⟨o', ho', hids⟩ := List.map_eq_singleton_iff.1 ids
          exact .inl ⟨o', ho', hids.trans hsame⟩
        · refine .inr ⟨before, i, after ++ [incident], by simp, drops, fun part hpart => ?_⟩
          have hpart : part <+: (i :: after) ++ [incident] := hpart
          rcases List.prefix_concat_iff.1 hpart with rfl | hpart
          · simpa using here
          · exact since part hpart
      · exact .inl handed

/-! ## Calls of the queue -/

section Calls

variable {σ : Type} [Control σ]

/-- With nothing outstanding no operation of the queue calls the executor. -/
theorem no_call_of_nil {q : Queue} (hnil : q.running = []) (s : σ) :
    (∀ now script, (q.add now script s).2.2 = s) ∧ (q.clear s).2 = s ∧ (q.stop s).2 = s := by
  refine ⟨fun now script => ?_, by simp [Queue.clear, Queue.dropWork, hnil],
    by simp [Queue.stop, Queue.dropWork, hnil]⟩
  rcases Queue.add_cases now script q s with ⟨fault, errors, heq⟩ | ⟨groups, -, -, heq⟩
  · rw [heq]
  · rw [heq]
    simp [Queue.makeRoom, hnil]

/-- A script that is refused makes no call to the executor. -/
theorem no_call_of_refused {q : Queue} {now : Nat} {script : String} {s : σ} {fault : QueueError}
    (h : (q.add now script s).1 = .error fault) : (q.add now script s).2.2 = s := by
  rcases Queue.add_cases now script q s with ⟨_, _, heq⟩ | ⟨groups, -, -, heq⟩
  · rw [heq]
  · rw [heq] at h
    cases h

end Calls

/-! ## Queue and worker -/

/-- When nothing is left to do and the executor is seen to be idle, the worker is at no group. -/
theorem InPhase.groupId?_of_idle (h : e.InPhase) (quiet : e.isQuiet = true)
    (idle : e.executor.phase = .idle) : e.groupId? = none := by
  cases hw : e.executor.worker with
  | none => exact Clockwork.groupId?_of_none hw
  | some w =>
      obtain ⟨b, stage⟩ := w
      rw [Clockwork.groupId?_of_some hw]
      have phase := (h.present b stage hw).1
      rw [idle] at phase
      cases stage with
      | checking | sleeping => rfl
      | reporting report faulty => simp [Clockwork.isQuiet, Clockwork.workerReady, hw] at quiet
      | asking | taken | running | crashed => cases phase

/-- An executor that is seen to be running has a worker at a run. -/
theorem InPhase.exists_running (h : e.InPhase) (running : e.executor.phase = .running) :
    ∃ step run, e.IsRunning step run := by
  cases hw : e.executor.worker with
  | none => cases running.symm.trans (h.away hw)
  | some w =>
      obtain ⟨b, stage⟩ := w
      have phase := (h.present b stage hw).1
      rw [running] at phase
      cases stage with
      | running step run => exact ⟨step, run, b, hw⟩
      | checking | asking | taken | reporting | sleeping | crashed => cases phase

/-- A walk is submitted and held, and then all work is dropped. -/
def clearedWalk : List Incident :=
  [.move .start, .add "w(5)" [], .move .work, .move .work, .move .work, .move .work, .move .work,
    .move (.poll 0), .clear]

end Environment

end Combo
