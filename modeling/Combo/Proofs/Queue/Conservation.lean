-- SUMMARY: No group is lost, doubled or handed out late: where every accepted group is, and in which order groups leave.
import Mathlib.Data.List.Induction
import Mathlib.Data.List.Nodup
import Combo.Proofs.Queue.Journal

/-!
# Conservation of groups

Every accepted group is in one place: pending, outstanding, merged into an
outstanding group, completed or dropped. The places together are a rearrangement
of what was accepted, and each operation keeps this. Numbers are given out
once, so no place has a group twice and no two places share one. What is handed
out is always the first pending group, so that the groups of a script leave in
script order until another script, a clear or a stop takes the rest away.
-/

namespace Combo.Queue

/-! ## Places -/

/-- The numbers of the groups a journal has taken in. -/
def acceptedIds (log : List Event) : List Nat := (log.flatMap Event.acceptedTickets).map (·.id)

/-- The numbers of the groups a journal has merged, completed and dropped. -/
def settledIds (log : List Event) : List Nat :=
  log.flatMap Event.mergedIds ++ log.flatMap Event.completedIds ++ log.flatMap Event.droppedIds

theorem acceptedIds_append (log es : List Event) :
    acceptedIds (log ++ es) = acceptedIds log ++ acceptedIds es := by
  simp [acceptedIds]

theorem settledIds_append (log es : List Event) :
    (settledIds (log ++ es)).Perm (settledIds log ++ settledIds es) := by
  rw [List.perm_iff_count]
  intro id
  simp only [settledIds, List.flatMap_append, List.count_append]
  omega

/-- A journal accounts for a queue: for its numbers, its groups and its history. -/
structure Accounts (log : List Event) (q : Queue) : Prop where
  fresh : acceptedIds log = List.range q.nextId
  places : (q.pendingIds ++ q.runningIds ++ settledIds log).Perm (acceptedIds log)
  recent : q.historyIds <:+ log.flatMap Event.completedIds

/-- One operation is accounted for by its own events. -/
theorem Accounts.append {log es : List Event} {q q' : Queue} (accounts : Accounts log q)
    (fresh : List.range q.nextId ++ acceptedIds es = List.range q'.nextId)
    (places : (q'.pendingIds ++ q'.runningIds ++ settledIds es).Perm
      (q.pendingIds ++ q.runningIds ++ acceptedIds es))
    (recent : q'.historyIds <:+ q.historyIds ++ es.flatMap Event.completedIds) :
    Accounts (log ++ es) q' := by
  refine ⟨?_, ?_, ?_⟩
  · rw [acceptedIds_append, accounts.fresh, fresh]
  · have settled := settledIds_append log es
    have earlier := accounts.places
    rw [List.perm_iff_count] at places settled earlier ⊢
    intro id
    have here := places id
    have sum := settled id
    have before := earlier id
    simp only [acceptedIds_append, List.count_append] at here sum before ⊢
    omega
  · obtain ⟨older, holder⟩ := accounts.recent
    obtain ⟨gone, hgone⟩ := recent
    refine ⟨older ++ gone, ?_⟩
    rw [List.append_assoc, hgone, List.flatMap_append, ← holder, List.append_assoc]

/-- What is kept of a history is its end. -/
theorem latest_suffix {α : Type} (limit : Nat) (xs : List α) : latest limit xs <:+ xs :=
  List.drop_suffix _ xs

theorem number_ids (first : Nat) (groups : List Group) :
    (number first groups).map (·.id) = List.range' first groups.length := by
  refine List.ext_getElem ?_ fun i hi _ => ?_
  · simp [number]
  · simp [number]

theorem number_groups (first : Nat) (groups : List Group) :
    (number first groups).map (·.group) = groups := by
  refine List.ext_getElem ?_ fun i hi _ => ?_
  · simp [number]
  · simp [number]

/-! ## Every operation keeps account -/

/-- To clear and to stop drop what is pending and what is outstanding. -/
theorem Accounts.drop {log : List Event} {q q' : Queue} (accounts : Accounts log q)
    (pending : q'.pending = []) (running : q'.running = []) (numbers : q'.nextId = q.nextId)
    (recent : q'.historyIds <:+ q.historyIds) :
    Accounts (log ++ [.dropped (q.pendingIds ++ q.runningIds)]) q' := by
  refine accounts.append ?_ ?_ (by simpa using recent)
  · simp [acceptedIds, numbers]
  · simp [settledIds, acceptedIds, pendingIds, runningIds, pending, running]

section History

variable {σ : Type} [Control σ] {log : List Event} {state : Queue × σ}

/-- To layer a group onto another one leaves every number where it is. -/
theorem runningIds_mergeIntoLast (now : Nat) (incoming : Group) (running : List Outstanding) :
    (mergeIntoLast now incoming running).map (·.id) = running.map (·.id) := by
  rcases List.eq_nil_or_concat running with rfl | ⟨front, o, rfl⟩
  · rfl
  · rw [List.concat_eq_append, mergeIntoLast_append_singleton]
    simp

theorem Accounts.add (accounts : Accounts log state.1) (now : Nat) (script : String) :
    Accounts (log ++ events state (.add now script)) (state.1.add now script state.2).2.1 := by
  rcases add_cases now script state.1 state.2 with
    ⟨fault, errors, heq⟩ | ⟨groups, open_, hcheck, heq⟩
  · rw [events_add_of_error (congrArg Prod.fst heq), heq, List.append_nil]
    exact ⟨accounts.fresh, accounts.places, accounts.recent⟩
  · rw [events_add_of_groups open_ hcheck, heq]
    generalize (state.1.makeRoom groups state.2).2 = layered
    refine accounts.append ?_ ?_ (by simp [accept, historyIds])
    · simp only [acceptedIds, accept, List.flatMap_cons, List.flatMap_nil, Event.acceptedTickets,
        List.nil_append, List.append_nil, number_ids, List.range_eq_range']
      simpa using List.range'_append_1 (s := 0) (m := state.1.nextId) (n := groups.length)
    · -- the pending groups make room for the new ones, of which the first may go to the merged
      rw [List.perm_iff_count]
      intro id
      have split := List.take_append_drop 1 (number state.1.nextId groups)
      have count := congrArg (List.count id) (congrArg (List.map (·.id)) split)
      rw [List.map_append, List.count_append] at count
      cases layered with
      | false =>
          simp [accept, settledIds, acceptedIds, pendingIds, runningIds]
          omega
      | true =>
          simp [accept, settledIds, acceptedIds, pendingIds, runningIds, runningIds_mergeIntoLast]
            at count ⊢
          omega

theorem Accounts.next (accounts : Accounts log state.1) (now : Nat) :
    Accounts (log ++ events state (.next now)) (state.1.next now).2 := by
  rcases next_cases now state.1 with ⟨-, heq⟩ | ⟨t, rest, hpending, heq⟩
  · simpa [events, heq] using accounts
  · rw [events, heq]
    refine accounts.append (List.append_nil _) ?_ (by simp [historyIds])
    rw [List.perm_iff_count]
    intro id
    simp [settledIds, acceptedIds, pendingIds, runningIds, hpending, List.count_cons]
    omega

theorem Accounts.complete (accounts : Accounts log state.1) (report : Report) :
    Accounts (log ++ events state (.complete report)) (state.1.complete report) := by
  rcases complete_cases state.1 report with ⟨unknown, heq⟩ | ⟨before, o, after, hrunning, hid, heq⟩
  · have hevents : events state (.complete report) = [] := by
      simpa [events, runningIds] using unknown
    rw [hevents, heq, List.append_nil]
    exact accounts
  · have hevents : events state (.complete report) = [.completed report.id] := by
      simp [events, runningIds, hrunning, hid]
    rw [hevents, heq]
    refine accounts.append (List.append_nil _) ?_ ?_
    · rw [List.perm_iff_count]
      intro id
      simp [settledIds, acceptedIds, pendingIds, runningIds, hrunning, hid, List.count_cons]
    · simpa [historyIds] using
        (latest_suffix state.1.engine.historyLimit (state.1.history ++ [report])).map (·.id)

theorem Accounts.perform (accounts : Accounts log state.1) (o : Operation) :
    Accounts (log ++ events state o) (perform state o).1 := by
  cases o with
  | add now script => exact accounts.add now script
  | next now => exact accounts.next now
  | complete report => exact accounts.complete report
  | resetErrors =>
      rw [events, List.append_nil]
      exact ⟨accounts.fresh, accounts.places, accounts.recent⟩
  | clear => exact accounts.drop rfl rfl rfl List.nil_suffix
  | stop => exact accounts.drop rfl rfl rfl (List.suffix_refl _)

/-- The journal of any history of a new queue accounts for it. -/
theorem accounts_performAll (engine : Engine) (s : σ) (history : List Operation) :
    Accounts (journal (({ engine } : Queue), s) history)
      (performAll (({ engine } : Queue), s) history).1 := by
  induction history using List.reverseRecOn with
  | nil => exact ⟨rfl, .refl _, List.suffix_refl _⟩
  | append_singleton history o ih =>
      rw [journal_append, performAll_append, performAll_cons, performAll_nil, journal_cons,
        journal_nil, List.append_nil]
      exact ih.perform o

/-! ## The order of handing out -/

/-- The groups a journal hands out. -/
def handed (log : List Event) : List Ticket := log.flatMap Event.handedTickets

/-- What was pending has been handed out or is pending still, or the rest was dropped. -/
def Leaves (pending out pending' : List Ticket) : Prop :=
  out ++ pending' = pending ∨ (out <+: pending ∧ pending' = [])

theorem leaves_trans {first second third out out' : List Ticket} (h : Leaves first out second)
    (h' : Leaves second out' third) : Leaves first (out ++ out') third := by
  rcases h with rfl | ⟨front, rfl⟩
  · rcases h' with rfl | ⟨front, rfl⟩
    · exact .inl (List.append_assoc _ _ _)
    · exact .inr ⟨(List.prefix_append_right_inj out).2 front, rfl⟩
  · -- nothing is left that could be handed out
    rcases h' with hnil | ⟨hnil, rfl⟩
    · obtain ⟨rfl, rfl⟩ := List.append_eq_nil_iff.1 hnil
      exact .inr ⟨by simpa using front, rfl⟩
    · obtain rfl := List.prefix_nil.1 hnil
      exact .inr ⟨by simpa using front, rfl⟩

/-- Unless it takes in a script, an operation hands out what is pending or drops it. -/
theorem leaves_perform (state : Queue × σ) (o : Operation)
    (quiet : ∀ e ∈ events state o, e.isAccept = false) :
    Leaves state.1.pending (handed (events state o)) (perform state o).1.pending := by
  cases o with
  | add now script =>
      rcases add_cases now script state.1 state.2 with
        ⟨fault, errors, heq⟩ | ⟨groups, open_, hcheck, -⟩
      · rw [events_add_of_error (congrArg Prod.fst heq), perform, heq]
        exact .inl rfl
      · simp [events_add_of_groups open_ hcheck] at quiet
  | next now =>
      rcases next_cases now state.1 with ⟨hpending, heq⟩ | ⟨t, rest, hpending, heq⟩
      · exact .inl (by simp [perform, events, heq, handed])
      · exact .inl (by simp [perform, events, heq, handed, hpending])
  | complete report =>
      have same := (complete_pending state.1 report).1
      rw [events]
      split
      · exact .inl same
      · exact .inl same
  | resetErrors => exact .inl rfl
  | clear => exact .inr ⟨List.nil_prefix, rfl⟩
  | stop => exact .inr ⟨List.nil_prefix, rfl⟩

/-- As long as no script is taken in, what is handed out was pending, in this order. -/
theorem leaves_performAll (state : Queue × σ) (history : List Operation)
    (quiet : ∀ e ∈ journal state history, e.isAccept = false) :
    Leaves state.1.pending (handed (journal state history))
      (performAll state history).1.pending := by
  induction history generalizing state with
  | nil => exact .inl rfl
  | cons o history ih =>
      rw [journal_cons] at quiet ⊢
      have first := leaves_perform state o fun e he => quiet e (List.mem_append_left _ he)
      have rest := ih (perform state o) fun e he => quiet e (List.mem_append_right _ he)
      rw [handed, List.flatMap_append]
      exact leaves_trans first rest

/-! ## Taking in a script -/

/-- What a script that is taken in becomes: numbered groups, pending but for a layered first one. -/
theorem add_accepted {now : Nat} {script : String} {n : Nat}
    (h : (state.1.add now script state.2).1 = .ok n) :
    ∃ tickets layered,
      events state (.add now script) =
        [.dropped state.1.pendingIds, .accepted tickets layered] ∧
      Script.check state.1.engine.maxActionSeconds script = .ok (tickets.map (·.group)) ∧
      (perform state (.add now script)).1.pending = (if layered then tickets.drop 1 else tickets) ∧
      (layered = false → (perform state (.add now script)).1.running = state.1.running) ∧
      (layered = true → ∃ front o first rest, tickets = first :: rest ∧
        (Control.layer first.group (Control.interruptConflicting first.group state.2).1).2 = true ∧
        state.1.running = front ++ [o] ∧ (perform state (.add now script)).1.running =
          front ++ [{ o with group := mergeGroups o.group first.group (elapsed now o.since) }]) := by
  rcases add_cases now script state.1 state.2 with
    ⟨fault, errors, heq⟩ | ⟨groups, open_, hcheck, heq⟩
  · rw [heq] at h
    cases h
  · have hgroups : (number state.1.nextId groups).map (·.group) = groups :=
      List.ext_getElem (by simp [number]) (by simp [number])
    refine ⟨number state.1.nextId groups, (state.1.makeRoom groups state.2).2,
      events_add_of_groups open_ hcheck, by rw [hgroups, hcheck], ?_, ?_, ?_⟩
    · simp only [perform, heq, accept]
    · intro alone
      simp [perform, heq, accept, alone]
    · intro layered
      obtain ⟨outstanding, first, rest, rfl, agreed⟩ := exists_cons_of_layered layered
      obtain ⟨front, o, hrunning⟩ :=
        (List.eq_nil_or_concat state.1.running).resolve_left outstanding
      rw [List.concat_eq_append] at hrunning
      refine ⟨front, o, ⟨state.1.nextId, first⟩, _, List.mapIdx_cons, agreed, hrunning, ?_⟩
      simp [perform, heq, accept, layered, hrunning, mergeIntoLast_append_singleton]

/-! ## Conservation -/

/--
After any history, in either mode and whatever the executor answers, each group that was taken in
is in just one place: pending, outstanding, merged into an outstanding group, completed or
dropped. No number is both pending, outstanding or in the history, nor twice in one of them. A
script that is taken in drops what was pending; its groups get numbers in script order, and its first
group is merged into the group handed out last if the executor agrees to layer it. Until another
script is taken in, what is handed out is the beginning of the groups that are left, and what is
pending then is the rest.
-/
theorem groups_conserved (engine : Engine) (s : σ) (history : List Operation) :
    let start : Queue × σ := ({ engine }, s)
    let q := (performAll start history).1
    let log := journal start history
    ((acceptedIds log).Nodup ∧
      (q.pendingIds ++ q.runningIds ++ (log.flatMap Event.mergedIds ++
        log.flatMap Event.completedIds ++ log.flatMap Event.droppedIds)).Perm (acceptedIds log)) ∧
    (q.historyIds <:+ log.flatMap Event.completedIds ∧
      (q.pendingIds ++ q.runningIds ++ q.historyIds).Nodup) ∧
    ∀ earlier now script during n, history = earlier ++ .add now script :: during →
      let before := performAll start earlier
      let after := perform before (.add now script)
      (before.1.add now script before.2).1 = .ok n →
      ∃ tickets layered,
        events before (.add now script) =
          [.dropped before.1.pendingIds, .accepted tickets layered] ∧
        Script.check engine.maxActionSeconds script = .ok (tickets.map (·.group)) ∧
        (layered = false → after.1.running = before.1.running) ∧
        (layered = true → ∃ front o first rest, tickets = first :: rest ∧
          (Control.layer first.group
            (Control.interruptConflicting first.group before.2).1).2 = true ∧
          before.1.running = front ++ [o] ∧ after.1.running =
            front ++ [{ o with group := mergeGroups o.group first.group (elapsed now o.since) }]) ∧
        ((∀ e ∈ journal after during, e.isAccept = false) →
          let left := if layered then tickets.drop 1 else tickets
          handed (journal after during) <+: left ∧
            (q.pending ≠ [] → handed (journal after during) ++ q.pending = left)) := by
  intro start q log
  obtain ⟨fresh, places, recent⟩ := accounts_performAll engine s history
  have distinct : (acceptedIds log).Nodup := by
    rw [fresh]
    exact List.nodup_range
  refine ⟨⟨distinct, places⟩, ⟨recent, ?_⟩, ?_⟩
  · have apart : (q.pendingIds ++ q.runningIds ++ settledIds log).Nodup :=
      places.nodup_iff.2 distinct
    have kept : q.historyIds.Sublist (settledIds log) :=
      recent.sublist.trans ((List.sublist_append_right _ _).trans (List.sublist_append_left _ _))
    exact apart.sublist ((List.Sublist.refl _).append kept)
  · rintro earlier now script during n rfl before after accepted
    obtain ⟨tickets, layered, hevents, hcheck, hpending, alone, merged⟩ := add_accepted accepted
    have hengine : before.1.engine = engine := engine_performAll start earlier
    refine ⟨tickets, layered, hevents, hengine ▸ hcheck, alone, merged, ?_⟩
    intro quiet left
    have hq : q = (performAll after during).1 := by
      simp only [q, performAll_append, performAll_cons, before, after]
    have leaves := leaves_performAll after during quiet
    rw [hpending, ← hq] at leaves
    rcases leaves with whole | ⟨front, gone⟩
    · exact ⟨⟨_, whole⟩, fun _ => whole⟩
    · exact ⟨front, fun pending => absurd gone pending⟩

end History

/-- A walk is handed out. -/
def untilWalk : List Operation := [.add 0 "w(5),a", .next 100]

/-- The next group is handed out, a script is refused, and a known and an unknown report come in. -/
def afterJump : List Operation :=
  [.next 300, .add 350 "zz", .complete ⟨0, default, [], false⟩, .complete ⟨7, default, [], false⟩]

/-- A jump is layered onto the walk, and only the steps after it are handed out. -/
theorem groups_conserved_jumpOntoWalk :
    let start : Queue × StandIn :=
      ({ engine := { mode := .merge } }, { attached := true, layers := true })
    let before := performAll start untilWalk
    let after := perform before (.add 200 "jump,s,d")
    let q := (performAll after afterJump).1
    (before.1.add 200 "jump,s,d" before.2).1 = .ok 3 ∧
      (∀ e ∈ journal after afterJump, e.isAccept = false) ∧
      (q.historyIds = [0] ∧ q.runningIds = [3] ∧ q.pendingIds = [4]) ∧
      (q.pendingIds ++ q.runningIds ++ q.historyIds).Nodup ∧
      handed (journal after afterJump) ++ q.pending =
        (number 2 (Script.read "jump,s,d").groups).drop 1 := by
  intro start before after q
  have accepted : (before.1.add 200 "jump,s,d" before.2).1 = .ok 3 := by decide +kernel
  have quiet : ∀ e ∈ journal after afterJump, e.isAccept = false := by decide +kernel
  have places : q.historyIds = [0] ∧ q.runningIds = [3] ∧ q.pendingIds = [4] := by decide +kernel
  have events : events before (.add 200 "jump,s,d") =
      [.dropped [1], .accepted (number 2 (Script.read "jump,s,d").groups) true] := by decide +kernel
  have hq : q = (performAll start (untilWalk ++ .add 200 "jump,s,d" :: afterJump)).1 := by
    rw [performAll_append, performAll_cons]
  obtain ⟨-, ⟨-, apart⟩, orders⟩ :=
    groups_conserved start.1.engine start.2 (untilWalk ++ .add 200 "jump,s,d" :: afterJump)
  obtain ⟨tickets, layered, hevents, -, -, -, order⟩ :=
    orders untilWalk 200 "jump,s,d" afterJump 3 rfl accepted
  obtain ⟨rfl, rfl⟩ : number 2 (Script.read "jump,s,d").groups = tickets ∧ true = layered := by
    simpa using (List.cons.inj (events.symm.trans hevents)).2
  have pending : q.pending ≠ [] := by
    intro none_left
    rw [pendingIds, none_left] at places
    exact absurd places.2.2 (by decide)
  exact ⟨accepted, quiet, places, hq ▸ apart, (order quiet).2 pending⟩

end Combo.Queue
