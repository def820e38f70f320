-- SUMMARY: What the operations of a queue do to it and to an executor, said once for each.
import Combo.Clockwork.Environment
import Combo.Queue.Operation
import Combo.Proofs.Executor.Stage

/-!
# The effects of a queue's operations

The lemmas here say what the operations of a queue come to, so that no later proof
opens them: what is handed out and taken back, and what is asked of an executor
to make room for a script.
-/

namespace Combo

namespace Queue

/-! ## Handing out and taking back -/

/-- A group that is handed out was pending, and is outstanding from then on. -/
theorem feedNext_group {now : Nat} {q q' : Queue} {t : Ticket}
    (h : Feed.next now q = (.group t, q')) :
    q.pending = t :: q'.pending ∧
      q' = { q with pending := q'.pending, running := q.running ++ [⟨t.id, t.group, now⟩] } := by
  simp only [Feed.next, next] at h
  split at h
  · rename_i t' q'' hnext
    split at hnext
    · cases hnext
    · rename_i rest hpending
      cases hnext
      cases h
      exact ⟨hpending, rfl⟩
  · cases h

/-- When nothing is handed out the queue stays as it is. -/
theorem feedNext_empty {now : Nat} {q q' : Queue} (h : Feed.next now q = (.empty, q')) : q' = q := by
  simp only [Feed.next, next] at h
  split at h
  · cases h
  · rename_i q'' hnext
    split at hnext
    · cases hnext
      cases h
      rfl
    · cases hnext

theorem feedNext_ne_crash (now : Nat) (q q' : Queue) : Feed.next now q ≠ (.crash, q') := by
  intro h
  simp only [Feed.next] at h
  split at h <;> cases h

/-- Nothing is pending, or the first pending group becomes the last outstanding one. -/
theorem next_cases (now : Nat) (q : Queue) :
    (q.pending = [] ∧ q.next now = (none, q)) ∨
    (∃ t rest, q.pending = t :: rest ∧ q.next now =
      (some t, { q with pending := rest, running := q.running ++ [⟨t.id, t.group, now⟩] })) := by
  unfold next
  split
  · rename_i hpending
    exact .inl ⟨hpending, rfl⟩
  · rename_i t rest hpending
    exact .inr ⟨t, rest, hpending, rfl⟩

/-- What is kept of what is kept and more is what is kept of all. -/
theorem latest_latest_append {α : Type} (limit : Nat) (xs ys : List α) :
    latest limit (latest limit xs ++ ys) = latest limit (xs ++ ys) := by
  simp only [latest, List.length_append, List.length_drop, List.drop_append, List.drop_drop]
  congr 1
  · congr 1
    omega
  · congr 1
    omega

/-- A report is of no outstanding group and ignored, or of one, which moves to the history. -/
theorem complete_cases (q : Queue) (report : Report) :
    ((∀ o ∈ q.running, o.id ≠ report.id) ∧ q.complete report = q) ∨
    (∃ before o after, q.running = before ++ o :: after ∧ o.id = report.id ∧ q.complete report =
      { q with
        running := before ++ after
        history := latest q.engine.historyLimit (q.history ++ [report])
        finished := q.finished + 1 }) := by
  cases hfind : q.running.findIdx? (·.id == report.id) with
  | none =>
      refine .inl ⟨fun o ho => ?_, by rw [complete, hfind]⟩
      simpa using List.findIdx?_eq_none_iff.1 hfind o ho
  | some i =>
      obtain ⟨hi, hid, -⟩ := List.findIdx?_eq_some_iff_getElem.1 hfind
      refine .inr ⟨q.running.take i, q.running[i], q.running.drop (i + 1), ?_, by simpa using hid, ?_⟩
      · rw [List.getElem_cons_drop, List.take_append_drop]
      · rw [complete, hfind, ← List.eraseIdx_eq_take_drop_succ]

/-- To take in a report of the only outstanding group leaves none outstanding. -/
theorem complete_running {q : Queue} {report : Report}
    (h : (∃ o, q.running = [o] ∧ o.id = report.id) ∨ q.running = []) :
    (q.complete report).running = [] := by
  unfold complete
  rcases h with ⟨o, hrunning, hid⟩ | hrunning <;> simp [*]

/-- To take in a report changes nothing but what is outstanding and the history. -/
theorem complete_pending (q : Queue) (report : Report) :
    (q.complete report).pending = q.pending ∧ (q.complete report).nextId = q.nextId ∧
      (q.complete report).stopped = q.stopped ∧ (q.complete report).engine = q.engine := by
  unfold complete
  split <;> exact ⟨rfl, rfl, rfl, rfl⟩

/-! ## Taking in scripts -/

section Add

variable {σ : Type} [Control σ] {now : Nat} {script : String} {q : Queue} {s : σ}

theorem add_of_stopped (h : q.stopped = true) : q.add now script s = (.error .stopped, q, s) := by
  simp [add, h]

theorem add_of_fault {fault : Script.Fault} (h : q.stopped = false)
    (hcheck : Script.check q.engine.maxActionSeconds script = .error fault) :
    q.add now script s = (.error (q.refuse fault).1, (q.refuse fault).2, s) := by
  simp [add, h, hcheck]

theorem add_of_groups {groups : List Group} (h : q.stopped = false)
    (hcheck : Script.check q.engine.maxActionSeconds script = .ok groups) :
    q.add now script s = (.ok groups.length,
      q.accept now script groups (q.makeRoom groups s).2, (q.makeRoom groups s).1) := by
  simp [add, h, hcheck]

end Add

/-- What comes of a script: it is refused and only the count of refusals changes, or taken in. -/
theorem add_cases {σ : Type} [Control σ] (now : Nat) (script : String) (q : Queue) (s : σ) :
    (∃ fault errors, q.add now script s = (.error fault, { q with errors }, s)) ∨
    (∃ groups, q.stopped = false ∧ Script.check q.engine.maxActionSeconds script = .ok groups ∧
      q.add now script s = (.ok groups.length,
        q.accept now script groups (q.makeRoom groups s).2, (q.makeRoom groups s).1)) := by
  unfold add
  split
  · exact .inl ⟨.stopped, q.errors, rfl⟩
  · rename_i open_
    split
    · rename_i fault hcheck
      simp only [refuse]
      split
      · exact .inl ⟨_, 0, rfl⟩
      · exact .inl ⟨_, q.errors + 1, rfl⟩
    · rename_i groups hcheck
      exact .inr ⟨groups, by simpa using open_, hcheck, rfl⟩

theorem makeRoom_of_nil {q : Queue} (h : q.running = []) (groups : List Group) (x : Executor) :
    q.makeRoom groups x = (x, false) := by
  simp [makeRoom, h]

theorem makeRoom_replace {q : Queue} (h : q.running ≠ []) (mode : q.engine.mode = .replace)
    (groups : List Group) (x : Executor) :
    q.makeRoom groups x = (x.interruptAll.1, false) := by
  simp only [makeRoom, mode, List.isEmpty_iff, h, if_false]
  rfl

theorem makeRoom_merge {σ : Type} [Control σ] {q : Queue} (h : q.running ≠ []) (mode : q.engine.mode = .merge)
    (first : Group) (rest : List Group) (s : σ) :
    q.makeRoom (first :: rest) s = Control.layer first (Control.interruptConflicting first s).1 := by
  simp only [makeRoom, mode, List.isEmpty_iff, h, if_false]

theorem makeRoom_merge_nil {q : Queue} (mode : q.engine.mode = .merge) (x : Executor) :
    q.makeRoom [] x = (x, false) := by
  simp [makeRoom, mode]

/-- Only the first group of a script is layered, while a group is outstanding, if that is agreed to. -/
theorem exists_cons_of_layered {σ : Type} [Control σ] {q : Queue} {groups : List Group} {s : σ}
    (h : (q.makeRoom groups s).2 = true) :
    q.running ≠ [] ∧ ∃ first rest, groups = first :: rest ∧
      (Control.layer first (Control.interruptConflicting first s).1).2 = true := by
  by_cases hrunning : q.running = []
  · simp [makeRoom, hrunning] at h
  · refine ⟨hrunning, ?_⟩
    cases hmode : q.engine.mode with
    | replace => simp [makeRoom, hmode, hrunning] at h
    | merge =>
        cases groups with
        | nil => simp [makeRoom, hmode, hrunning] at h
        | cons first rest => exact ⟨first, rest, rfl, by simpa [makeRoom, hmode, hrunning] using h⟩

/-- Whatever the mode, the executor stays at its group while room is made. -/
theorem makeRoom_keepsGroup (q : Queue) (groups : List Group) (x : Executor) :
    Executor.KeepsGroup x (q.makeRoom groups x).1 := by
  have still : Executor.KeepsGroup x x :=
    ⟨rfl, fun b stage id hw hid => ⟨stage, hw, hid, fun doomed => doomed⟩⟩
  by_cases hrunning : q.running = []
  · rw [makeRoom_of_nil hrunning]
    exact still
  · cases mode : q.engine.mode with
    | replace =>
        rw [makeRoom_replace hrunning mode]
        exact x.keepsGroup_interruptAll
    | merge =>
        cases groups with
        | nil =>
            rw [makeRoom_merge_nil mode]
            exact still
        | cons first rest =>
            rw [makeRoom_merge hrunning mode]
            exact (x.keepsGroup_interruptConflicting first).trans (Executor.keepsGroup_layer first _)

/-- The groups of a script get fresh numbers. -/
theorem mem_number {first : Nat} {groups : List Group} {t : Ticket}
    (h : t ∈ number first groups) : first ≤ t.id ∧ t.id < first + groups.length := by
  unfold number at h
  obtain ⟨i, hi, rfl⟩ := List.mem_mapIdx.1 h
  exact ⟨Nat.le_add_right _ _, Nat.add_lt_add_left hi _⟩

theorem group_of_mem_number {first : Nat} {groups : List Group} {t : Ticket}
    (h : t ∈ number first groups) : t.group ∈ groups := by
  unfold number at h
  obtain ⟨i, hi, rfl⟩ := List.mem_mapIdx.1 h
  exact List.getElem_mem hi

theorem mem_accept_pending {q : Queue} {now : Nat} {script : String} {groups : List Group}
    {layered : Bool} {t : Ticket} (h : t ∈ (q.accept now script groups layered).pending) :
    t ∈ number q.nextId groups := by
  cases layered with
  | true => exact List.mem_of_mem_drop h
  | false => exact h

/-- A group is layered onto the one that was handed out last. -/
theorem mergeIntoLast_append_singleton (now : Nat) (incoming : Group) (running : List Outstanding)
    (o : Outstanding) :
    mergeIntoLast now incoming (running ++ [o]) =
      running ++ [{ o with group := mergeGroups o.group incoming (elapsed now o.since) }] := by
  have last (f : Outstanding → Outstanding) (os : List Outstanding) :
      mapLast f (os ++ [o]) = os ++ [f o] := by
    induction os with
    | nil => rfl
    | cons a os ih => cases os <;> simp_all [mapLast]
  exact last _ running

/-- Layering changes what is outstanding, but not its number. -/
theorem accept_running {q : Queue} {o : Outstanding} (h : q.running = [o]) (now : Nat)
    (script : String) (groups : List Group) (layered : Bool) :
    ∃ o', (q.accept now script groups layered).running = [o'] ∧ o'.id = o.id := by
  simp only [accept, h]
  cases layered with
  | true => exact ⟨_, rfl, rfl⟩
  | false => exact ⟨o, rfl, rfl⟩

/-! ## Any operation -/

/-- No operation changes the settings of a queue. -/
theorem engine_perform {σ : Type} [Control σ] (state : Queue × σ) (o : Operation) :
    (perform state o).1.engine = state.1.engine := by
  cases o with
  | add now script =>
      rcases add_cases now script state.1 state.2 with ⟨_, _, heq⟩ | ⟨_, -, -, heq⟩
      · rw [perform, heq]
      · rw [perform, heq]
        rfl
  | next now =>
      rcases next_cases now state.1 with ⟨-, heq⟩ | ⟨_, _, -, heq⟩
      · rw [perform, heq]
      · rw [perform, heq]
  | complete report => exact (complete_pending state.1 report).2.2.2
  | resetErrors | clear | stop => rfl

theorem engine_performAll {σ : Type} [Control σ] (state : Queue × σ) (history : List Operation) :
    (performAll state history).1.engine = state.1.engine := by
  induction history generalizing state with
  | nil => rfl
  | cons o history ih => exact (ih (perform state o)).trans (engine_perform state o)

end Queue

end Combo
