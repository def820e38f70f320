-- SUMMARY: The estimate of an entry with layers: it counts the last layer from when it came and everything before it from the start.
import Combo.Proofs.Number.Length
import Combo.Proofs.Queue.Layers
import Combo.Proofs.Script.Executable

/-!
# The estimate of layered groups

An action that is layered onto an outstanding group ends as long after that group
was handed out as the action came later, and its length on top. The estimate of the
entry is made anew with each layer: the actions of that layer count with the time
they came, but those of an earlier layer count with their lengths alone, as if they
had been there from the start. So the estimate is the time at which all that is
layered ends just when no action of an earlier layer ends later than the estimate
says.
-/

namespace Combo.Queue

open Number

/-! ## Groups as scripts give them -/

/-- The group has actions, each takes a length of time, and the longest is the estimate. -/
structure IsMeasured (g : Group) : Prop where
  nonempty : g.actions ≠ []
  lengths : ∀ a ∈ g.actions, IsLength a.seconds
  estimate : g.estimate = greatest (g.actions.map (·.seconds))

theorem longest_eq_greatest (actions : List Action) :
    longest actions = greatest (actions.map (·.seconds)) := by
  rw [longest, greatest, List.foldl_map]

/-- The groups of an accepted script are measured. -/
theorem isMeasured_of_check {max : Float} {script : String} {groups : List Group}
    (h : Script.check max script = .ok groups) {g : Group} (hg : g ∈ groups) : IsMeasured g := by
  obtain ⟨hread, -⟩ := Script.read_of_check h
  have read : g ∈ (Script.read script).groups := by
    rw [hread]
    exact hg
  obtain ⟨hne, hof⟩ := Script.groupOf_of_mem_groups read
  refine ⟨hne, fun a ha => ?_, ?_⟩
  · obtain ⟨-, length⟩ := Script.actionFault?_eq_none (Script.actionFault?_of_check h hg ha)
    obtain ⟨finite, notNegative, -⟩ := Script.lengthFault?_eq_none length
    exact isLength_of_finite finite notNegative
  · exact (congrArg Group.estimate hof).trans (longest_eq_greatest _)

/-! ## When layered actions end -/

theorem isLength_elapsed (now since : Nat) : IsLength (elapsed now since) :=
  Duration.isLength_secondsOfMillis _

/-- The actions left of groups that were layered, each with the seconds after which it came. -/
def started (since : Nat) : List Arrival → List (Float × Action)
  | [] => []
  | a :: later => (leftOf (later.map (·.group)) a.group).map (elapsed a.instant since, ·) ++ started since later

/-- The seconds after which an action ends that came after some seconds. -/
def ending (x : Float × Action) : Float := x.1 + x.2.seconds

/-- The seconds after which the actions left of a group and of its layers end. -/
def endings (since : Nat) (first : Group) (layers : List Arrival) : List Float :=
  (leftOf (layers.map (·.group)) first).map (·.seconds) ++ (started since layers).map ending

/-- The actions that another layer leaves of those that were layered before it. -/
def earlier (since : Nat) (layers : List Arrival) (a : Arrival) : List (Float × Action) :=
  (started since layers).filter fun x => !x.2.kind.interrupted a.group.kinds

theorem started_append_singleton (since : Nat) (layers : List Arrival) (a : Arrival) :
    started since (layers ++ [a]) =
      earlier since layers a ++ a.group.actions.map (elapsed a.instant since, ·) := by
  unfold earlier
  induction layers with
  | nil => simp [started, leftOf_nil]
  | cons first layers ih =>
      rw [List.cons_append, started, ih, started, List.map_append, List.map_cons, List.map_nil,
        leftOf_append_singleton, List.filter_append, List.append_assoc, List.filter_map]
      rfl

theorem map_started (since : Nat) (layers : List Arrival) :
    (started since layers).map (·.2) = surviving (layers.map (·.group)) := by
  induction layers with
  | nil => rfl
  | cons a layers ih => simp [started, surviving, ih, Function.comp_def]

/-! ## The estimate after a layer -/

/-- What an entry is estimated at when a group comes onto it. -/
def counted (since : Nat) (kept : List Action) (a : Arrival) : List Float :=
  (kept.filter fun x => !x.kind.interrupted a.group.kinds).map (·.seconds) ++
    a.group.actions.map fun x => ending (elapsed a.instant since, x)

theorem isLength_ending {x : Float × Action} (start : IsLength x.1) (length : IsLength x.2.seconds) :
    IsLength (ending x) :=
  (start.add length).1

theorem isLength_counted (since : Nat) {kept : List Action} {a : Arrival}
    (lengths : ∀ x ∈ kept, IsLength x.seconds) (measured : IsMeasured a.group) :
    ∀ y ∈ counted since kept a, IsLength y := by
  intro y hy
  rw [counted, List.mem_append, List.mem_map, List.mem_map] at hy
  rcases hy with ⟨x, hx, rfl⟩ | ⟨x, hx, rfl⟩
  · exact lengths x (List.mem_filter.1 hx).1
  · exact isLength_ending (isLength_elapsed _ _) (measured.lengths x hx)

/-- The estimate counts what is kept from the start and what comes from when it comes. -/
theorem estimate_receive {o : Outstanding} {a : Arrival}
    (lengths : ∀ x ∈ o.group.actions, IsLength x.seconds) (measured : IsMeasured a.group) :
    (receive o a).group.estimate = greatest (counted o.since o.group.actions a) := by
  have start := isLength_elapsed a.instant o.since
  have kept : ∀ x ∈ (o.group.actions.filter fun x => !x.kind.interrupted a.group.kinds).map
      (·.seconds), IsLength x :=
    List.forall_mem_map.2 fun x hx => lengths x (List.mem_filter.1 hx).1
  have incoming : ∀ y ∈ a.group.actions.map (·.seconds), IsLength y :=
    List.forall_mem_map.2 measured.lengths
  obtain ⟨before, unsigned, boundBefore⟩ := greatest_spec kept
  obtain ⟨-, unsigned', bound⟩ := greatest_spec (isLength_counted o.since lengths measured)
  have last := (start.add (greatest_spec incoming).1).1
  have both := isLength_longer before last
  have hestimate : (receive o a).group.estimate =
      longer (greatest ((o.group.actions.filter fun x => !x.kind.interrupted a.group.kinds).map
        (·.seconds))) (elapsed a.instant o.since + greatest (a.group.actions.map (·.seconds))) := by
    rw [← measured.estimate, ← longest_eq_greatest]
    rfl
  rw [hestimate]
  refine eq_of_magnitude (unsigned_longer before last unsigned) unsigned'
    (eq_of_forall_ge_iff fun n => ?_)
  rw [both.2, max_le_iff, boundBefore, bound,
    start.add_greatest_le_iff incoming (by simpa using measured.nonempty)]
  simp [counted, ending, or_imp, forall_and]

/-! ## What is counted and what is promised -/

theorem isLength_started {since : Nat} {layers : List Arrival}
    (measured : ∀ a ∈ layers, IsMeasured a.group) {x : Float × Action}
    (hx : x ∈ started since layers) : IsLength x.1 ∧ IsLength x.2.seconds := by
  induction layers with
  | nil => cases hx
  | cons a layers ih =>
      rcases List.mem_append.1 hx with here | later
      · obtain ⟨action, haction, rfl⟩ := List.mem_map.1 here
        exact ⟨isLength_elapsed _ _,
          (measured a List.mem_cons_self).lengths action (List.mem_filter.1 haction).1⟩
      · exact ih (fun b hb => measured b (List.mem_cons_of_mem _ hb)) later

theorem isLength_surviving {first : Group} {layers : List Arrival}
    (lengths : ∀ x ∈ first.actions, IsLength x.seconds)
    (measured : ∀ a ∈ layers, IsMeasured a.group) :
    ∀ x ∈ surviving (first :: layers.map (·.group)), IsLength x.seconds := by
  intro x hx
  rcases List.mem_append.1 hx with initial | layered
  · exact lengths x (List.mem_filter.1 initial).1
  · rw [← map_started 0] at layered
    obtain ⟨y, hy, rfl⟩ := List.mem_map.1 layered
    exact (isLength_started measured hy).2

/-- All endings are lengths. -/
theorem isLength_endings (since : Nat) {first : Group} {layers : List Arrival}
    (lengths : ∀ x ∈ first.actions, IsLength x.seconds)
    (measured : ∀ a ∈ layers, IsMeasured a.group) : ∀ y ∈ endings since first layers, IsLength y := by
  intro y hy
  rcases List.mem_append.1 hy with initial | layered
  · obtain ⟨x, hx, rfl⟩ := List.mem_map.1 initial
    exact lengths x (List.mem_filter.1 hx).1
  · obtain ⟨x, hx, rfl⟩ := List.mem_map.1 layered
    exact isLength_ending (isLength_started measured hx).1 (isLength_started measured hx).2

/-- What is counted differs from the endings in the actions of earlier layers only. -/
theorem counted_and_endings (since : Nat) (first : Group) (layers : List Arrival) (a : Arrival) :
    let initial := (leftOf ((layers ++ [a]).map (·.group)) first).map (·.seconds)
    let last := a.group.actions.map fun x => ending (elapsed a.instant since, x)
    counted since (surviving (first :: layers.map (·.group))) a =
        initial ++ ((earlier since layers a).map (·.2.seconds) ++ last) ∧
      endings since first (layers ++ [a]) =
        initial ++ ((earlier since layers a).map ending ++ last) := by
  intro initial last
  refine ⟨?_, ?_⟩
  · have hearlier : (earlier since layers a).map (·.2) =
        (surviving (layers.map (·.group))).filter fun x => !x.kind.interrupted a.group.kinds := by
      rw [← map_started since, List.filter_map]
      rfl
    have hseconds : (earlier since layers a).map (·.2.seconds) =
        ((earlier since layers a).map (·.2)).map (·.seconds) := by simp
    rw [counted, surviving, List.filter_append, List.map_append, hseconds, hearlier,
      ← leftOf_append_singleton, List.append_assoc]
    simp [initial, last]
  · rw [endings, started_append_singleton]
    simp [initial, last]

/--
The estimate never exceeds the greatest of all endings, and it is that just when no action of an earlier
layer that is still there ends later.
-/
theorem greatest_counted (since : Nat) {first : Group} {layers : List Arrival} {a : Arrival}
    (lengths : ∀ x ∈ first.actions, IsLength x.seconds)
    (measured : ∀ b ∈ layers ++ [a], IsMeasured b.group) :
    let estimate := greatest (counted since (surviving (first :: layers.map (·.group))) a)
    let promised := greatest (endings since first (layers ++ [a]))
    ¬ promised < estimate ∧ (estimate = promised ↔ ∀ x ∈ earlier since layers a, ¬ estimate < ending x) := by
  intro estimate promised
  obtain ⟨hcounted, hendings⟩ := counted_and_endings since first layers a
  have before : ∀ b ∈ layers, IsMeasured b.group :=
    fun b hb => measured b (List.mem_append_left _ hb)
  have ends : ∀ x ∈ earlier since layers a, IsLength x.2.seconds ∧ IsLength (ending x) ∧
      magnitude x.2.seconds ≤ magnitude (ending x) := by
    intro x hx
    obtain ⟨start, seconds⟩ := isLength_started before (List.mem_filter.1 hx).1
    exact ⟨seconds, isLength_ending start seconds, start.le_add seconds⟩
  obtain ⟨length, unsigned, bound⟩ := greatest_spec
    (isLength_counted since (isLength_surviving lengths before) (measured a (by simp)))
  obtain ⟨length', unsigned', bound'⟩ := greatest_spec (isLength_endings since lengths measured)
  -- both bounds are in three parts, and only those of the earlier layers differ
  simp only [hcounted, List.forall_mem_append, List.forall_mem_map] at bound
  simp only [hendings, List.forall_mem_append, List.forall_mem_map] at bound'
  rw [← hcounted] at bound
  rw [← hendings] at bound'
  obtain ⟨initial, -, last⟩ := (bound _).1 le_rfl
  obtain ⟨initial', layered', last'⟩ := (bound' _).1 le_rfl
  have below : magnitude estimate ≤ magnitude promised :=
    (bound _).2 ⟨initial', fun x hx => (ends x hx).2.2.trans (layered' x hx), last'⟩
  refine ⟨?_, fun same x hx => ?_, fun none_later => ?_⟩
  · rw [length'.lt_iff length, not_lt]
    exact below
  · rw [same, length'.lt_iff (ends x hx).2.1, not_lt]
    exact layered' x hx
  · refine eq_of_magnitude unsigned unsigned' (le_antisymm below ?_)
    refine (bound' _).2 ⟨initial, fun x hx => ?_, last⟩
    have h := none_later x hx
    rwa [length.lt_iff (ends x hx).2.1, not_lt] at h

section History

variable {σ : Type} [Control σ]

/-- What an operation layers is measured. -/
theorem isMeasured_layeredBy {state : Queue × σ} {op : Operation} {a : Arrival}
    (ha : a ∈ layeredBy state op) : IsMeasured a.group := by
  cases op with
  | add now script =>
      rcases add_cases now script state.1 state.2 with
        ⟨fault, errors, heq⟩ | ⟨groups, open_, hcheck, heq⟩
      · rw [layeredBy, events_add_of_error (congrArg Prod.fst heq)] at ha
        cases ha
      · rw [layeredBy, events_add_of_groups open_ hcheck] at ha
        obtain ⟨g, hg, rfl⟩ := List.mem_map.1 ha
        refine isMeasured_of_check hcheck ?_
        simp only [List.flatMap_cons, List.flatMap_nil, Event.layeredGroups, List.nil_append,
          List.append_nil] at hg
        split at hg
        · obtain ⟨t, ht, rfl⟩ := List.mem_map.1 hg
          exact group_of_mem_number (List.mem_of_mem_take ht)
        · cases hg
  | next now => cases ha
  | complete report => cases ha
  | resetErrors => cases ha
  | clear => cases ha
  | stop => cases ha

theorem isMeasured_arrivals (state : Queue × σ) (history : List Operation) :
    ∀ a ∈ arrivals state history, IsMeasured a.group := by
  induction history generalizing state with
  | nil => simp [arrivals]
  | cons op history ih =>
      intro a ha
      rcases List.mem_append.1 ha with here | later
      · exact isMeasured_layeredBy here
      · exact ih _ a later

/-- What an operation leaves pending is measured if all that was pending before it is. -/
theorem isMeasured_perform {state : Queue × σ} (op : Operation)
    (measured : ∀ t ∈ state.1.pending, IsMeasured t.group) :
    ∀ t ∈ (perform state op).1.pending, IsMeasured t.group := by
  intro t ht
  cases op with
  | add now script =>
      rcases add_cases now script state.1 state.2 with
        ⟨fault, errors, heq⟩ | ⟨groups, open_, hcheck, heq⟩
      · rw [perform, heq] at ht
        exact measured t ht
      · rw [perform, heq] at ht
        exact isMeasured_of_check hcheck (group_of_mem_number (mem_accept_pending ht))
  | next now =>
      rcases next_cases now state.1 with ⟨-, heq⟩ | ⟨t', rest, hpending, heq⟩
      · rw [perform, heq] at ht
        exact measured t ht
      · rw [perform, heq] at ht
        exact measured t (hpending ▸ List.mem_cons_of_mem _ ht)
  | complete report => exact measured t ((complete_pending state.1 report).1 ▸ ht)
  | resetErrors => exact measured t ht
  | clear => cases ht
  | stop => cases ht

/-- Whatever is pending is measured. -/
theorem isMeasured_pending (engine : Engine) (s : σ) (history : List Operation) :
    ∀ t ∈ (performAll (({ engine } : Queue), s) history).1.pending, IsMeasured t.group := by
  induction history using List.reverseRecOn with
  | nil => simp
  | append_singleton history op ih =>
      rw [performAll_append, performAll_cons, performAll_nil]
      exact isMeasured_perform op ih

/-! ## The estimate of an entry -/

/-- What remains of an entry is no less than what remains until an instant within its estimate. -/
theorem not_remaining_lt {o : Outstanding} {y : Float} (length : IsLength o.group.estimate)
    (hy : IsLength y) (within : ¬ o.group.estimate < y) (now : Nat) :
    ¬ Outstanding.remaining now o < longer 0.0 (y - elapsed now o.since) := by
  have passed := isLength_elapsed now o.since
  rw [Outstanding.remaining, (length.sub passed).1.lt_iff (hy.sub passed).1, not_lt]
  rw [length.lt_iff hy, not_lt] at within
  exact hy.sub_le_sub length passed within

/-- The estimate of a measured group with layers, against the endings of all that is left of it. -/
theorem estimate_foldl_receive {o : Outstanding} (measured : IsMeasured o.group)
    {layers : List Arrival} (layered : ∀ a ∈ layers, IsMeasured a.group) :
    let estimate := (layers.foldl receive o).group.estimate
    (layers = [] → estimate = greatest (endings o.since o.group [])) ∧
      (∀ front a, layers = front ++ [a] →
        estimate = greatest (counted o.since (surviving (o.group :: front.map (·.group))) a) ∧
        (estimate = greatest (endings o.since o.group layers) ↔
          ∀ x ∈ earlier o.since front a, ¬ estimate < ending x)) ∧
      ¬ greatest (endings o.since o.group layers) < estimate ∧ IsLength estimate := by
  intro estimate
  rcases List.eq_nil_or_concat' layers with rfl | ⟨front, a, rfl⟩
  · have first : estimate = greatest (endings o.since o.group []) := by
      rw [endings, List.map_nil, leftOf_nil, started, List.map_nil, List.append_nil]
      exact measured.estimate
    have length := (greatest_spec (isLength_endings o.since measured.lengths layered)).1
    refine ⟨fun _ => first, fun front a h => by simp at h, ?_, first ▸ length⟩
    rw [first, length.lt_iff length]
    exact lt_irrefl _
  · have before : ∀ b ∈ front, IsMeasured b.group := fun b hb => layered b (List.mem_append_left _ hb)
    have kept := isLength_surviving measured.lengths before
    rw [← foldl_receive_actions o front] at kept
    have last : estimate = greatest (counted o.since (surviving (o.group :: front.map (·.group))) a) := by
      have h := estimate_receive kept (layered a (by simp))
      rw [foldl_receive_actions, (foldl_receive_id o front).2] at h
      rw [← h]
      simp [estimate]
    obtain ⟨atMost, exactly⟩ := greatest_counted o.since measured.lengths layered
    rw [← last] at atMost exactly
    refine ⟨fun h => by simp at h, fun front' a' h => ?_, atMost, ?_⟩
    · obtain ⟨rfl, same⟩ := List.append_inj' h rfl
      obtain rfl := (List.cons.inj same).1
      exact ⟨last, exactly⟩
    · rw [last]
      refine (greatest_spec (isLength_counted o.since ?_ (layered a (by simp)))).1
      exact isLength_surviving measured.lengths before

/--
A group is handed out, and while nothing else is and it is neither reported nor dropped, others are
layered onto it. Its estimate is at first the longest of its lengths. With each layer it becomes the
greatest of the lengths of what is kept of all that came before and of the endings of what comes:
never more than the greatest of all endings, and that just when no action left of an earlier layer
ends later. At any instant no less remains of the entry than until an ending within its estimate.
-/
theorem layered_estimate (engine : Engine) (s : σ) (history during : List Operation) (now : Nat) :
    let before := performAll (({ engine } : Queue), s) history
    let out := perform before (.next now)
    let after := performAll out during
    ∀ t, (before.1.next now).1 = some t → Stays t.id (journal out during) →
      ∃ others o, after.1.running = others ++ [o] ∧ (o.id = t.id ∧ o.since = now) ∧
        (arrivals out during = [] → o.group.estimate = greatest (endings now t.group [])) ∧
        (∀ layers a, arrivals out during = layers ++ [a] →
          o.group.estimate = greatest (counted now (surviving (t.group :: layers.map (·.group))) a) ∧
          (o.group.estimate = greatest (endings now t.group (layers ++ [a])) ↔
            ∀ x ∈ earlier now layers a, ¬ o.group.estimate < ending x)) ∧
        ¬ greatest (endings now t.group (arrivals out during)) < o.group.estimate ∧
        ∀ y ∈ endings now t.group (arrivals out during), ¬ o.group.estimate < y →
          ∀ later, ¬ Outstanding.remaining later o < longer 0.0 (y - elapsed later now) := by
  intro before out after t hnext stays
  have hout : before.1.pending = t :: out.1.pending ∧
      out.1.running = before.1.running ++ [⟨t.id, t.group, now⟩] := by
    rcases next_cases now before.1 with ⟨-, heq⟩ | ⟨t', rest, hpending, heq⟩
    · rw [heq] at hnext
      cases hnext
    · rw [heq] at hnext
      obtain rfl := Option.some.inj hnext
      refine ⟨?_, ?_⟩
      · simp only [out, perform, heq]
        exact hpending
      · simp only [out, perform, heq]
  have measured : IsMeasured t.group :=
    isMeasured_pending engine s history t (hout.1 ▸ List.mem_cons_self)
  have once : out.1.runningIds.Nodup := by
    have hhistory : out = performAll (({ engine } : Queue), s) (history ++ [.next now]) := by
      rw [performAll_append, performAll_cons, performAll_nil]
    rw [hhistory]
    exact runningIds_nodup engine s _
  have hrunning := running_performAll hout.2 once during stays
  have ids := foldl_receive_id ⟨t.id, t.group, now⟩ (arrivals out during)
  have layered := isMeasured_arrivals out during
  obtain ⟨first, last, atMost, length⟩ :=
    estimate_foldl_receive (o := ⟨t.id, t.group, now⟩) measured layered
  have ends := isLength_endings now measured.lengths layered
  refine ⟨_, _, hrunning, ids, first, fun layers a h => ?_, atMost, fun y hy within later => ?_⟩
  · rw [← h]
    exact last layers a h
  · have remaining := not_remaining_lt length (ends y hy) within later
    rwa [ids.2] at remaining

end History

/-- A step aside is layered onto a walk that is nearly over, and a jump onto both. -/
def asideThenJump : List Operation := [.add 4000 "a(3)", .add 4500 "jump"]

/-- After the jump the step aside counts as if it had been there from the start. -/
theorem layered_estimate_asideThenJump :
    let start : Queue × StandIn :=
      ({ engine := { mode := .merge } }, { attached := true, layers := true })
    let before := performAll start [.add 0 "w(5)"]
    let out := perform before (.next 0)
    let after := performAll out asideThenJump
    ∃ t o layers a, (before.1.next 0).1 = some t ∧ Stays t.id (journal out asideThenJump) ∧
      after.1.running = [o] ∧ arrivals out asideThenJump = layers ++ [a] ∧
      o.group.estimate = greatest (counted 0 (surviving (t.group :: layers.map (·.group))) a) ∧
      (o.group.estimate = 5.0 ∧ greatest (endings 0 t.group (layers ++ [a])) = 7.0) ∧
      ¬ ∀ x ∈ earlier 0 layers a, ¬ o.group.estimate < ending x := by
  intro start before out after
  let walk : Ticket := ⟨0, Group.of [Action.make .moveForward (some "5")]⟩
  let aside : Arrival := ⟨Group.of [Action.make .moveLeft (some "3")], 4000⟩
  let jump : Arrival := ⟨Group.of [Action.make .jump none], 4500⟩
  have facts : (before.1.next 0).1 = some walk ∧
      (handed (journal out asideThenJump) = [] ∧
        walk.id ∉ (journal out asideThenJump).flatMap Event.completedIds ∧
        walk.id ∉ (journal out asideThenJump).flatMap Event.droppedIds) ∧
      arrivals out asideThenJump = [aside] ++ [jump] ∧
      after.1.running.map (·.group.estimate) = [5.0] ∧
      greatest (endings 0 walk.group ([aside] ++ [jump])) = 7.0 := by
    decide +kernel
  obtain ⟨hnext, ⟨unhanded, unreported, undropped⟩, layered, estimates, promised⟩ := facts
  have stays : Stays walk.id (journal out asideThenJump) := ⟨unhanded, unreported, undropped⟩
  obtain ⟨others, o, hrunning, -, -, law, -⟩ :=
    layered_estimate start.1.engine start.2 [.add 0 "w(5)"] asideThenJump 0 walk hnext stays
  obtain ⟨last, exactly⟩ := law _ _ layered
  change after.1.running = others ++ [o] at hrunning
  obtain ⟨rfl, estimate⟩ : others = [] ∧ o.group.estimate = 5.0 := by
    rw [hrunning] at estimates
    cases others with
    | nil => exact ⟨rfl, by simpa using estimates⟩
    | cons other others => simp at estimates
  refine ⟨walk, o, [aside], jump, hnext, stays, hrunning, layered, last, ⟨estimate, promised⟩, ?_⟩
  rw [← exactly, estimate, promised]
  decide +kernel

end Combo.Queue
