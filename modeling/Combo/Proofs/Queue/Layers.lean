-- SUMMARY: What layering makes of the group handed out last: everything that arrived, filtered by what arrived later.
import Combo.Proofs.Queue.Conservation

/-!
# Layers

While no other group is handed out, the groups that are layered all come onto the
group handed out last. Each of them filters what was there and adds its own
actions, so that in the end an action is there unless a group that came after its
own interrupts it. Reports of other groups may come in between: they take their
groups out and leave the rest in order.
-/

namespace Combo.Queue

/-! ## Arrivals -/

/-- A group that is layered onto an outstanding one. -/
structure Arrival where
  group : Group
  /-- The instant it is layered, in milliseconds. -/
  instant : Nat
  deriving DecidableEq

/-- The groups an event layers onto an outstanding one. -/
@[simp]
def Event.layeredGroups : Event → List Group
  | .accepted tickets layered => if layered then (tickets.take 1).map (·.group) else []
  | .handed _ | .completed _ | .dropped _ => []

/-- An outstanding group with another one layered onto it. -/
def receive (o : Outstanding) (a : Arrival) : Outstanding :=
  { o with group := mergeGroups o.group a.group (elapsed a.instant o.since) }

/-- The actions of a group that none of the later groups interrupts. -/
def leftOf (later : List Group) (g : Group) : List Action :=
  g.actions.filter fun a => later.all fun g' => !a.kind.interrupted g'.kinds

/-- The actions of groups that came one after the other, without those a later group interrupts. -/
def surviving : List Group → List Action
  | [] => []
  | g :: later => leftOf later g ++ surviving later

theorem leftOf_nil (g : Group) : leftOf [] g = g.actions := by simp [leftOf]

/-- One more later group filters what was left before it. -/
theorem leftOf_append_singleton (later : List Group) (g' g : Group) :
    leftOf (later ++ [g']) g = (leftOf later g).filter fun a => !a.kind.interrupted g'.kinds := by
  rw [leftOf, leftOf, List.filter_filter]
  refine List.filter_congr fun a _ => ?_
  simp [Bool.and_comm]

/-- A group that comes last filters what survived before it, and all its own actions survive. -/
theorem surviving_append_singleton (groups : List Group) (g : Group) :
    surviving (groups ++ [g]) =
      (surviving groups).filter (fun a => !a.kind.interrupted g.kinds) ++ g.actions := by
  induction groups with
  | nil => simp [surviving, leftOf_nil]
  | cons first groups ih =>
      rw [List.cons_append, surviving, leftOf_append_singleton, ih, surviving, List.filter_append,
        List.append_assoc]

/-- Layering changes neither the number of an outstanding group nor since when it is out. -/
theorem foldl_receive_id (o : Outstanding) (layers : List Arrival) :
    (layers.foldl receive o).id = o.id ∧ (layers.foldl receive o).since = o.since := by
  induction layers generalizing o with
  | nil => exact ⟨rfl, rfl⟩
  | cons a layers ih => exact ih (receive o a)

/-- What is left of everything that was layered is what no later group interrupts. -/
theorem foldl_receive_actions (o : Outstanding) (layers : List Arrival) :
    (layers.foldl receive o).group.actions = surviving (o.group :: layers.map (·.group)) := by
  induction layers using List.reverseRecOn with
  | nil => simp [surviving, leftOf_nil]
  | append_singleton layers a ih =>
      rw [List.foldl_append, List.map_append, ← List.cons_append]
      simp only [List.foldl_cons, List.foldl_nil, List.map_cons, List.map_nil,
        surviving_append_singleton, ← ih, receive, mergeGroups]

section History

variable {σ : Type} [Control σ]

/-- What one operation layers. -/
def layeredBy (state : Queue × σ) : Operation → List Arrival
  | .add now script =>
    ((events state (.add now script)).flatMap Event.layeredGroups).map (⟨·, now⟩)
  | .next _ | .complete _ | .resetErrors | .clear | .stop => []

/-- What a history layers, in order of arrival. -/
def arrivals (state : Queue × σ) : List Operation → List Arrival
  | [] => []
  | o :: history => layeredBy state o ++ arrivals (perform state o) history

/-! ## While no other group is handed out -/

/-- Nothing is handed out, and the group with this number is neither reported nor dropped. -/
structure Stays (id : Nat) (log : List Event) : Prop where
  unhanded : handed log = []
  unreported : id ∉ log.flatMap Event.completedIds
  undropped : id ∉ log.flatMap Event.droppedIds

theorem Stays.of_append {id : Nat} {first second : List Event} (stays : Stays id (first ++ second)) :
    Stays id first ∧ Stays id second := by
  obtain ⟨unhanded, unreported, undropped⟩ := stays
  simp only [handed, List.flatMap_append, List.append_eq_nil_iff, List.mem_append, not_or]
    at unhanded unreported undropped
  exact ⟨⟨unhanded.1, unreported.1, undropped.1⟩, ⟨unhanded.2, unreported.2, undropped.2⟩⟩

/-- The outstanding groups that a journal does not report. -/
def unreported (log : List Event) (running : List Outstanding) : List Outstanding :=
  running.filter fun p => p.id ∉ log.flatMap Event.completedIds

@[simp] theorem unreported_nil (running : List Outstanding) : unreported [] running = running := by
  simp [unreported]

theorem unreported_append (first second : List Event) (running : List Outstanding) :
    unreported (first ++ second) running = unreported second (unreported first running) := by
  rw [unreported, unreported, unreported, List.filter_filter]
  refine List.filter_congr fun p _ => ?_
  rw [List.flatMap_append, ← Bool.decide_and, decide_eq_decide, List.mem_append, not_or, and_comm]

variable {state : Queue × σ} {others : List Outstanding} {o : Outstanding}

/-- To take in a script layers onto the last group or leaves the outstanding groups alone. -/
theorem running_add (last : state.1.running = others ++ [o]) (now : Nat) (script : String) :
    (perform state (.add now script)).1.running =
      unreported (events state (.add now script)) others ++
        [(layeredBy state (.add now script)).foldl receive o] := by
  rw [perform, layeredBy]
  rcases add_cases now script state.1 state.2 with
    ⟨fault, errors, heq⟩ | ⟨groups, open_, hcheck, heq⟩
  · rw [events_add_of_error (congrArg Prod.fst heq), heq]
    simpa using last
  · rw [events_add_of_groups open_ hcheck, heq]
    cases layered : (state.1.makeRoom groups state.2).2 with
    | false => simpa [accept, unreported] using last
    | true =>
        obtain ⟨-, first, rest, rfl, -⟩ := exists_cons_of_layered layered
        simp [accept, unreported, last, mergeIntoLast_append_singleton, receive, number]

/-- Numbers are given out once, so a report takes out one group and leaves the others in order. -/
theorem unreported_completed {before after : List Outstanding} {p : Outstanding} {id : Nat}
    (once : ((before ++ p :: after).map (·.id)).Nodup) (hid : p.id = id) :
    unreported [.completed id] (before ++ p :: after) = before ++ after := by
  simp only [List.map_append, List.map_cons, hid] at once
  have twice := List.nodup_cons.1 (List.nodup_middle.1 once)
  have apart : ∀ r ∈ before ++ after, r.id ≠ id := by
    intro r hr same
    exact twice.1 (List.map_append ▸ same ▸ List.mem_map_of_mem hr)
  have keep : unreported [.completed id] (before ++ after) = before ++ after :=
    List.filter_eq_self.2 fun r hr => by simpa using apart r hr
  rw [← keep]
  simp [unreported, hid]

/-- A report takes out the group it is of, if that is outstanding. -/
theorem running_complete (once : state.1.runningIds.Nodup) (report : Report) :
    (state.1.complete report).running =
      unreported (events state (.complete report)) state.1.running := by
  rcases complete_cases state.1 report with ⟨unknown, heq⟩ | ⟨before, p, after, hrunning, hid, heq⟩
  · have quiet : events state (.complete report) = [] := by
      simpa [events, runningIds] using unknown
    rw [heq, quiet, unreported_nil]
  · have hevents : events state (.complete report) = [.completed report.id] := by
      simp [events, runningIds, hrunning, hid]
    rw [runningIds, hrunning] at once
    rw [heq, hevents, hrunning, unreported_completed once hid]

/-- A report of the last group takes out this one group. -/
theorem complete_last (last : state.1.running = others ++ [o]) (once : state.1.runningIds.Nodup)
    {report : Report} (hid : o.id = report.id) :
    state.1.complete report = { state.1 with
      running := others
      history := latest state.1.engine.historyLimit (state.1.history ++ [report])
      finished := state.1.finished + 1 } := by
  have hevents : events state (.complete report) = [.completed report.id] := by
    simp [events, runningIds, last, hid]
  have hrunning := running_complete once report
  rw [runningIds, last] at once
  rw [hevents, last, unreported_completed once hid, List.append_nil] at hrunning
  rcases complete_cases state.1 report with ⟨unknown, -⟩ | ⟨before, p, after, -, -, heq⟩
  · exact absurd hid (unknown o (last ▸ List.mem_append_right _ (List.mem_singleton_self o)))
  · rw [heq] at hrunning ⊢
    exact congrArg (fun running => { state.1 with
      running
      history := latest state.1.engine.historyLimit (state.1.history ++ [report])
      finished := state.1.finished + 1 }) hrunning

/-- An operation that leaves the last group in its place layers onto it, and takes out what it reports. -/
theorem running_perform (last : state.1.running = others ++ [o]) (once : state.1.runningIds.Nodup)
    (op : Operation) (stays : Stays o.id (events state op)) :
    (perform state op).1.running =
      unreported (events state op) others ++ [(layeredBy state op).foldl receive o] := by
  cases op with
  | add now script => exact running_add last now script
  | next now =>
      rcases next_cases now state.1 with ⟨-, heq⟩ | ⟨t, rest, -, heq⟩
      · simpa [perform, events, heq, layeredBy] using last
      · have unhanded := stays.unhanded
        simp [events, heq, handed] at unhanded
  | complete report =>
      have keep : unreported (events state (.complete report)) [o] = [o] := by
        simpa [unreported] using stays.unreported
      rw [perform, running_complete once report, last, layeredBy]
      rw [unreported, List.filter_append, ← unreported, ← unreported, keep]
      rfl
  | resetErrors => simpa [perform, resetErrors, events, layeredBy] using last
  | clear =>
      have undropped := stays.undropped
      simp [events, runningIds, last] at undropped
  | stop =>
      have undropped := stays.undropped
      simp [events, runningIds, last] at undropped

/-- Through a history that leaves the last group in its place, all layers come onto it in order. -/
theorem running_performAll (last : state.1.running = others ++ [o])
    (once : state.1.runningIds.Nodup) (during : List Operation)
    (stays : Stays o.id (journal state during)) :
    (performAll state during).1.running =
      unreported (journal state during) others ++ [(arrivals state during).foldl receive o] := by
  induction during generalizing state others o with
  | nil => simpa [arrivals] using last
  | cons op during ih =>
      obtain ⟨first, rest⟩ := stays.of_append
      have step := running_perform last once op first
      have same : ((layeredBy state op).foldl receive o).id = o.id := (foldl_receive_id o _).1
      have once' : (perform state op).1.runningIds.Nodup := by
        refine once.sublist ?_
        simp only [runningIds, step, last, List.map_append, List.map_cons, List.map_nil, same]
        exact (List.filter_sublist.map _).append_right _
      rw [performAll_cons, ih step once' (same.symm ▸ rest), journal_cons, unreported_append,
        arrivals, List.foldl_append]

/-- The outstanding groups of any history have different numbers. -/
theorem runningIds_nodup (engine : Engine) (s : σ) (history : List Operation) :
    (performAll (({ engine } : Queue), s) history).1.runningIds.Nodup := by
  have accounts := accounts_performAll engine s history
  have once := accounts.places.nodup_iff.2 (accounts.fresh ▸ List.nodup_range)
  exact (List.nodup_append.1 (List.nodup_append.1 once).1).2.1

/-! ## The order of outstanding groups -/

/-- An operation keeps outstanding groups in order and puts what it hands out after them. -/
theorem runningIds_perform (state : Queue × σ) (op : Operation) :
    (perform state op).1.runningIds.Sublist
      (state.1.runningIds ++ (handed (events state op)).map (·.id)) := by
  cases op with
  | add now script =>
      have same : (perform state (.add now script)).1.runningIds = state.1.runningIds := by
        rcases add_cases now script state.1 state.2 with ⟨_, _, heq⟩ | ⟨groups, _, _, heq⟩
        · rw [perform, heq]
          rfl
        · rw [perform, heq]
          cases (state.1.makeRoom groups state.2).2 with
          | false => rfl
          | true => exact runningIds_mergeIntoLast _ _ _
      exact same ▸ List.sublist_append_left _ _
  | next now =>
      rcases next_cases now state.1 with ⟨-, heq⟩ | ⟨t, rest, -, heq⟩
      · simp [perform, heq]
      · simp [perform, events, heq, runningIds, handed]
  | complete report =>
      refine List.Sublist.trans ?_ (List.sublist_append_left _ _)
      rcases complete_cases state.1 report with ⟨-, heq⟩ | ⟨before, p, after, hrunning, -, heq⟩
      · rw [perform, heq]
      · rw [perform, heq, runningIds, runningIds, hrunning]
        exact (List.Sublist.append_left (List.sublist_cons_self p after) before).map _
  | resetErrors => exact List.sublist_append_left _ _
  | clear => exact List.nil_sublist _
  | stop => exact List.nil_sublist _

/-- Outstanding groups stand in the order in which they were handed out. -/
theorem runningIds_sublist_handed (engine : Engine) (s : σ) (history : List Operation) :
    (performAll (({ engine } : Queue), s) history).1.runningIds.Sublist
      ((handed (journal (({ engine } : Queue), s) history)).map (·.id)) := by
  induction history using List.reverseRecOn with
  | nil => exact List.Sublist.refl _
  | append_singleton history op ih =>
      rw [journal_append, performAll_append, performAll_cons, performAll_nil, journal_cons,
        journal_nil, List.append_nil, handed, List.flatMap_append, List.map_append]
      exact (runningIds_perform _ op).trans (ih.append_right _)

/-! ## Merging is a filter by later arrivals -/

/--
Outstanding groups stand in the order they were handed out. While nothing else is handed out and the
last of them is neither reported nor dropped, it keeps its number and is followed by whatever is
layered: its actions are those of all groups in order of arrival, without the ones that a group which
came later interrupts. Of the groups before it just those that are reported leave. A report of its
own number then takes out this one group.
-/
theorem layers_filtered_by_later_arrivals (engine : Engine) (s : σ)
    (earlier during : List Operation) :
    let start : Queue × σ := ({ engine }, s)
    let before := performAll start earlier
    let after := performAll before during
    before.1.runningIds.Sublist ((handed (journal start earlier)).map (·.id)) ∧
    ∀ others o, before.1.running = others ++ [o] → Stays o.id (journal before during) →
      ∃ o', after.1.running = unreported (journal before during) others ++ [o'] ∧
        (o'.id = o.id ∧ o'.since = o.since) ∧
        o'.group.actions = surviving (o.group :: (arrivals before during).map (·.group)) ∧
        ∀ report, report.id = o.id →
          after.1.complete report = { after.1 with
            running := unreported (journal before during) others
            history := latest engine.historyLimit (after.1.history ++ [report])
            finished := after.1.finished + 1 } := by
  intro start before after
  refine ⟨runningIds_sublist_handed engine s earlier, fun others o last stays => ?_⟩
  have hrunning : after.1.running = unreported (journal before during) others ++
      [(arrivals before during).foldl receive o] :=
    running_performAll last (runningIds_nodup engine s earlier) during stays
  obtain ⟨hid, hsince⟩ := foldl_receive_id o (arrivals before during)
  refine ⟨_, hrunning, ⟨hid, hsince⟩, foldl_receive_actions o _, fun report hreport => ?_⟩
  have once : after.1.runningIds.Nodup := by
    have hafter : after = performAll start (earlier ++ during) := (performAll_append _ _ _).symm
    rw [hafter]
    exact runningIds_nodup engine s (earlier ++ during)
  have hengine : after.1.engine = engine :=
    (engine_performAll before during).trans (engine_performAll start earlier)
  rw [complete_last hrunning once (hid.trans hreport.symm), hengine]

end History

/-- A walk, a step aside, and an attack beside a skill are handed out together. -/
def untilAttack : List Operation := [.add 0 "w,a,attack(5)&e", .next 0, .next 10, .next 20]

/-- Two attacks at once take over, the walk is reported, and a charge and an attack follow. -/
def attacksOnAttack : List Operation :=
  [.add 100 "attack&attack,q", .complete ⟨0, default, [], false⟩, .add 200 "zz",
    .add 300 "charge&d", .add 400 "attack&a"]

/-- What the attack came with stays, of the attacks only the last does, and the step aside goes on. -/
theorem layers_filtered_by_later_arrivals_attacks :
    let start : Queue × StandIn :=
      ({ engine := { mode := .merge } }, { attached := true, layers := true })
    let before := performAll start untilAttack
    let after := performAll before attacksOnAttack
    ∃ others o o', before.1.running = others ++ [o] ∧ Stays o.id (journal before attacksOnAttack) ∧
      (arrivals before attacksOnAttack).map (·.group.text) =
        ["attack&attack", "charge&d", "attack&a"] ∧
      after.1.running.map (·.id) = [1, 2] ∧ after.1.running.getLast? = some o' ∧
      o'.group.actions = surviving (o.group :: (arrivals before attacksOnAttack).map (·.group)) ∧
      o'.group.text = "e&attack&a" ∧
      (after.1.complete ⟨2, default, [], false⟩).running.map (·.id) = [1] := by
  intro start before after
  have facts : before.1.running = before.1.running.dropLast ++ [before.1.running[2]!] ∧
      (handed (journal before attacksOnAttack) = [] ∧
        before.1.running[2]!.id ∉ (journal before attacksOnAttack).flatMap Event.completedIds ∧
        before.1.running[2]!.id ∉ (journal before attacksOnAttack).flatMap Event.droppedIds) ∧
      (arrivals before attacksOnAttack).map (·.group.text) =
        ["attack&attack", "charge&d", "attack&a"] ∧
      after.1.running.map (·.id) = [1, 2] ∧
      after.1.running.getLast?.map (·.group.text) = some "e&attack&a" ∧
      (after.1.complete ⟨2, default, [], false⟩).running.map (·.id) = [1] := by
    decide +kernel
  obtain ⟨last, ⟨unhanded, unreported, undropped⟩, layered, ids, text, rest⟩ := facts
  have stays : Stays before.1.running[2]!.id (journal before attacksOnAttack) :=
    ⟨unhanded, unreported, undropped⟩
  obtain ⟨-, law⟩ :=
    layers_filtered_by_later_arrivals start.1.engine start.2 untilAttack attacksOnAttack
  obtain ⟨o', hrunning, -, hactions, -⟩ := law _ _ last stays
  have hlast : after.1.running.getLast? = some o' := by rw [hrunning]; simp
  rw [hlast] at text
  exact ⟨_, _, o', last, stays, layered, ids, hlast, hactions, Option.some.inj text, rest⟩

end Combo.Queue
