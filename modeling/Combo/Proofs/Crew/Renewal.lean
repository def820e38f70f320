-- SUMMARY: What nobody looks at: a stale board, without which an executor goes on alike in any play.
import Combo.Proofs.Crew.Trim

/-!
# Stale boards

Interrupts that were deferred count for the worker that takes a group next, and a gate and
its focus check count while the worker behind the gate is there. Workers that have left
may leave such things behind, and there is the record of what was sent. `recast` puts
others in their place: in any play, with any number of workers, everything goes on as before.
-/

namespace Combo

/-- Whether a worker at a post is about to take a group, or holds one that it has not dispatched. -/
def Post.isPicking : Post → Bool
  | .asking | .taken _ => true
  | _ => false

namespace Crew

variable {φ : Type} {c c' : Crew φ} {d : Deferred} {gate : Option Nat} {focused : Bool} {sent : List Sent}

/-- A crew with other deferred interrupts, another gate with its focus check, and another record of what was sent. -/
def recast (d : Deferred) (gate : Option Nat) (focused : Bool) (sent : List Sent) (c : Crew φ) : Crew φ :=
  { c with board := { c.board with deferred := d, gate, focused }, sent }

theorem sameStaff_recast : c.SameStaff (c.recast d gate focused sent) := ⟨rfl, rfl, rfl, rfl, rfl, rfl, rfl, rfl⟩

/-- Whether a worker is about to take a group, or to dispatch one. -/
def Picks (c : Crew φ) : Prop := ∃ (w : Nat) (m : Member), c.members[w]? = some m ∧ m.post.isPicking = true

/-- Whether nobody is behind a gate but a worker that has left. -/
def IsShut (c : Crew φ) (gate : Option Nat) : Prop :=
  ∀ w, gate = some w → ∃ m, c.members[w]? = some m ∧ m.post = .gone

/-- Whether a gate with its focus check is the one on the board as far as anybody looks at it. -/
def SameGate (c : Crew φ) (gate : Option Nat) (focused : Bool) : Prop :=
  (gate = c.board.gate ∧ focused = c.board.focused) ∨ (c.IsShut c.board.gate ∧ c.IsShut gate)

/-- Whether deferred interrupts and a gate are those on the board as far as anybody looks at them. -/
structure Ignores (c : Crew φ) (d : Deferred) (gate : Option Nat) (focused : Bool) : Prop where
  deferred : c.Picks → d = c.board.deferred
  gate : c.SameGate gate focused

/-! ## Who takes groups -/

theorem Picks.of_touches (h : c.Touches c') (length : c'.members.length = c.members.length) (picks : c'.Picks) :
    c.Picks := by
  obtain ⟨w, m', hm', picking⟩ := picks
  have lt : w < c.members.length := length ▸ (List.getElem?_eq_some_iff.1 hm').1
  obtain ⟨m'', hm'', touched⟩ := h w _ (List.getElem?_eq_getElem lt)
  cases hm'.symm.trans hm''
  refine ⟨w, _, List.getElem?_eq_getElem lt, ?_⟩
  generalize c.members[w] = m at touched
  cases touched with
  | told => exact picking
  | bury | cancel => cases picking

/-- A worker that does something else takes no group. -/
theorem Picks.of_replaces {worker : Nat} {m' : Member} (h : c.Replaces worker m' c')
    (other : m'.post.isPicking = false) (picks : c'.Picks) : c.Picks := by
  obtain ⟨w, m, hm, picking⟩ := picks
  by_cases here : w = worker
  · subst here
    cases hm.symm.trans h.here
    exact absurd picking (by simp [other])
  · exact ⟨w, m, (h.elsewhere w here).symm.trans hm, picking⟩

/-! ## Calls -/

/-- A gate with nobody behind it refuses every group. -/
theorem layer_of_isShut (shut : c.IsShut c.board.gate) (g : Group) : c.layer g = (c, false) := by
  rcases layer_cases g c with refused | ⟨w, b, k, run, ledger, _, _, opened, hm, -, -⟩
  · exact refused
  · obtain ⟨m, hm', gone⟩ := shut w opened
    cases hm.symm.trans hm'
    cases gone

theorem layer_recast (ok : c.SameGate gate focused) (g : Group) :
    (c.recast d gate focused sent).layer g = ((c.layer g).1.recast d gate focused sent, (c.layer g).2) := by
  rcases ok with ⟨rfl, rfl⟩ | ⟨shut, shut'⟩
  · set c' := c.recast d c.board.gate c.board.focused sent with recast
    cases gate : c.board.gate with
    | none =>
      have gate' : c'.board.gate = none := gate
      simp only [layer, gate, gate']
      rw [recast, gate]
    | some worker =>
      have gate' : c'.board.gate = some worker := gate
      cases token : c.board.token with
      | none =>
        have token' : c'.board.token = none := token
        simp only [layer, gate, gate', token, token']
        rw [recast, gate]
      | some shift =>
        have token' : c'.board.token = some shift := token
        have hm : c'.members[worker]? = c.members[worker]? := rfl
        simp only [layer, gate, gate', token, token']
        rw [hm, recast, ← gate]
        split
        · by_cases refused : (decide (c.board.phase ≠ .running) || c.isCancelled shift ||
              (c.needsFocus g && !c.board.focused)) = true
          · rw [if_pos refused, ← recast]
            exact if_pos (c := (decide (c'.board.phase ≠ .running) || c'.isCancelled shift ||
              (c'.needsFocus g && !c'.board.focused)) = true) refused
          · rw [if_neg refused]
            exact if_neg refused
        · rfl
  · rw [layer_of_isShut shut, layer_of_isShut (c := c.recast d gate focused sent) shut']

theorem interruptConflicting_recast (d : Deferred) (gate : Option Nat) (focused : Bool) (sent : List Sent)
    (c : Crew φ) (g : Group) :
    ∃ d', (d = c.board.deferred → d' = (c.interruptConflicting g).1.board.deferred) ∧
    (c.recast d gate focused sent).interruptConflicting g =
      ((c.interruptConflicting g).1.recast d' gate focused sent, (c.interruptConflicting g).2) := by
  simp only [interruptConflicting]
  by_cases phase : c.board.phase = .dequeuing
  · have phase' : (c.recast d gate focused sent).board.phase = .dequeuing := phase
    rw [if_pos phase, if_pos phase']
    exact ⟨{ d with kinds := d.kinds ++ g.kinds }, fun same => by rw [same], rfl⟩
  · have phase' : ¬(c.recast d gate focused sent).board.phase = .dequeuing := phase
    rw [if_neg phase, if_neg phase']
    exact ⟨d, fun same => same, rfl⟩

theorem interruptAll_recast (d : Deferred) (gate : Option Nat) (focused : Bool) (sent : List Sent) (c : Crew φ) :
    ∃ d', (d = c.board.deferred → d' = c.interruptAll.1.board.deferred) ∧
    (c.recast d gate focused sent).interruptAll =
      (c.interruptAll.1.recast d' gate focused sent, c.interruptAll.2) := by
  refine ⟨if c.board.phase = .dequeuing then { d with all := true } else d, fun same => ?_, rfl⟩
  rw [same]
  rfl

/-- What an executor answers does not depend on what nobody looks at. -/
theorem serve_recast (ok : c.Ignores d gate focused) (r : Request) :
    ((c.recast d gate focused sent).serve r).2 = (c.serve r).2 := by
  cases r with
  | interruptAll => rfl
  | interruptConflicting g =>
    obtain ⟨d', -, interrupted⟩ := interruptConflicting_recast d gate focused sent c g
    simp only [serve, interrupted]
  | layer g => simp only [serve, layer_recast ok.gate]

/-! ## Moves -/

variable [Feed φ]

/-- Whether a move leads to the same with what nobody looks at on the board, and is seen alike. -/
def GoesAlike (c : Crew φ) (d : Deferred) (gate : Option Nat) (focused : Bool) (sent : List Sent) (mv : Move) :
    Prop :=
  ∃ d' gate' focused' sent',
    (c.recast d gate focused sent).move mv = (c.move mv).recast d' gate' focused' sent' ∧
    (c.move mv).Ignores d' gate' focused' ∧ (c.recast d gate focused sent).notes mv = c.notes mv

theorem IsShut.move (shut : c.IsShut gate) (mv : Move) : (c.move mv).IsShut gate := by
  intro w opened
  obtain ⟨m, hm, gone⟩ := shut w opened
  exact (gone_move hm gone mv).2

theorem SameGate.kept (same : c.SameGate gate focused) (mv : Move) (moved : c.move mv = c')
    (kept : c'.board.gate = c.board.gate ∧ c'.board.focused = c.board.focused) : c'.SameGate gate focused := by
  unfold SameGate
  rw [kept.1, kept.2, ← moved]
  exact same.imp_right fun ⟨shut, shut'⟩ => ⟨shut.move mv, shut'.move mv⟩

omit [Feed φ] in
theorem SameGate.closed (closed : c.board.gate = none) (focused : Bool) : c.SameGate none focused :=
  .inr ⟨by rw [closed]; nofun, nofun⟩

section Blind

variable {mv : Move} {f : Crew φ → Crew φ} (moves : ∀ c₁, c.SameStaff c₁ → c₁.move mv = f c₁)
  (notes : (c.recast d gate focused sent).notes mv = c.notes mv)
include moves notes

theorem GoesAlike.of_commutes {d' : Deferred} {gate' : Option Nat} {focused' : Bool} {sent' : List Sent}
    (commutes : f (c.recast d gate focused sent) = (f c).recast d' gate' focused' sent')
    (ignores : (f c).Ignores d' gate' focused') : c.GoesAlike d gate focused sent mv := by
  refine ⟨d', gate', focused', sent', ?_, ?_, notes⟩
  · rw [moves _ sameStaff_recast, moves c (.refl c), commutes]
  · rwa [moves c (.refl c)]

/-- A move that leaves the gate alone and what was deferred, and after which no other worker takes a group. -/
theorem GoesAlike.kept (ok : c.Ignores d gate focused)
    (commutes : f (c.recast d gate focused sent) = (f c).recast d gate focused sent)
    (kept : (f c).board.gate = c.board.gate ∧ (f c).board.focused = c.board.focused)
    (deferred : (f c).board.deferred = c.board.deferred) (picks : (f c).Picks → c.Picks) :
    c.GoesAlike d gate focused sent mv :=
  .of_commutes moves notes commutes
    ⟨fun picking => (ok.deferred (picks picking)).trans deferred.symm, ok.gate.kept mv (moves c (.refl c)) kept⟩

end Blind

/-- A move that cannot be made changes nothing. -/
theorem GoesAlike.of_still {mv : Move} (ok : c.Ignores d gate focused)
    (rests : ∀ c₁, c.SameStaff c₁ → c₁.move mv = c₁)
    (notes : (c.recast d gate focused sent).notes mv = c.notes mv) : c.GoesAlike d gate focused sent mv :=
  .kept rests notes ok rfl ⟨rfl, rfl⟩ rfl id

/-! ### Steps of workers -/

section Work

variable {worker : Nat} {b : Bool} {k : Nat} {post : Post} (hm : c.members[worker]? = some ⟨b, k, post⟩)
  (ok : c.Ignores d gate focused)
include hm ok

theorem goesAlike_top (top : post = .checking ∨ ∃ due, post = .sleeping due)
    (ready : Member.isReady c.now ⟨b, k, post⟩ = true) : c.GoesAlike d gate focused sent (.work worker) := by
  have begins (c₁ : Crew φ) (same : c.SameStaff c₁) : c₁.move (.work worker) = c₁.beginRound worker b := by
    simp only [Crew.move, work, same.members, same.now, hm, if_pos ready]
    rcases top with rfl | ⟨due, rfl⟩ <;> rfl
  cases b with
  | true => exact .kept begins rfl ok rfl ⟨rfl, rfl⟩ rfl (.of_replaces (replaces_setPost hm .gone rfl) rfl)
  | false => exact .of_commutes begins rfl rfl ⟨fun _ => rfl, ok.gate.kept _ (begins c (.refl c)) ⟨rfl, rfl⟩⟩

theorem goesAlike_asking (h : post = .asking) : c.GoesAlike d gate focused sent (.work worker) := by
  subst h
  have same : d = c.board.deferred := ok.deferred ⟨worker, _, hm, rfl⟩
  have asks (c₁ : Crew φ) (same : c.SameStaff c₁) : c₁.move (.work worker) = c₁.ask worker b := by
    simp only [Crew.move, work, same.members, hm]
    rfl
  rcases next : Feed.next c.now c.feed with ⟨handout, feed⟩
  cases handout with
  | group t =>
    have hands (c₁ : Crew φ) (same : c.SameStaff c₁) :
        c₁.move (.work worker) = { c₁ with feed }.setPost worker (.taken t) := by
      rw [asks c₁ same, ask, same.now, same.feed, next]
    exact .of_commutes hands rfl rfl ⟨fun _ => same, ok.gate.kept _ (hands c (.refl c)) ⟨rfl, rfl⟩⟩
  | empty =>
    have misses (c₁ : Crew φ) (same : c.SameStaff c₁) : c₁.move (.work worker) =
        { c₁ with feed }.enter worker .idle (.sleeping (c₁.now + c₁.engine.pollMs)) := by
      rw [asks c₁ same, ask, same.now, same.feed, next]
    exact .of_commutes misses rfl rfl ⟨fun _ => same, ok.gate.kept _ (misses c (.refl c)) ⟨rfl, rfl⟩⟩
  | crash =>
    have crashes (c₁ : Crew φ) (same : c.SameStaff c₁) : c₁.move (.work worker) =
        { c₁ with feed }.setPost worker (if b then .gone else .crashed) := by
      rw [asks c₁ same, ask, same.now, same.feed, next]
    exact .of_commutes crashes rfl rfl ⟨fun _ => same, ok.gate.kept _ (crashes c (.refl c)) ⟨rfl, rfl⟩⟩

theorem goesAlike_taken {t : Ticket} (h : post = .taken t) : c.GoesAlike d gate focused sent (.work worker) := by
  subst h
  obtain rfl : d = c.board.deferred := ok.deferred ⟨worker, _, hm, rfl⟩
  have dispatches (c₁ : Crew φ) (same : c.SameStaff c₁) :
      c₁.move (.work worker) = c₁.dispatch worker ⟨b, k, .taken t⟩ t := by
    simp only [Crew.move, work, same.members, hm]
    rfl
  exact .of_commutes dispatches rfl rfl ⟨fun _ => rfl, ok.gate.kept _ (dispatches c (.refl c)) ⟨rfl, rfl⟩⟩

theorem goesAlike_running {step : Step} {run : Run} {ledger : Ledger} (h : post = .running step run ledger)
    (ready : Member.isReady c.now ⟨b, k, post⟩ = true) : c.GoesAlike d gate focused sent (.work worker) := by
  subst h
  have goes (c₁ : Crew φ) (same : c.SameStaff c₁) :
      c₁.move (.work worker) = c₁.stepRun worker run ledger step := by
    simp only [Crew.move, work, same.members, same.now, hm, if_pos ready]
  have picks {c' : Crew φ} {post : Post} (members : c'.members = (c.setPost worker post).members)
      (other : post.isPicking = false) : c'.Picks → c.Picks :=
    .of_replaces (replaces_setPost hm post members) other
  cases step with
  | focusing =>
    by_cases active : c.focus.isActive = true
    · have opens (c₁ : Crew φ) (same : c.SameStaff c₁) :
          c₁.move (.work worker) = c₁.setPost worker (.running .opening run ledger) := by
        rw [goes c₁ same, stepRun, seeToFocus, same.focus, if_pos active]
      exact .kept opens rfl ok rfl ⟨rfl, rfl⟩ rfl (picks rfl rfl)
    · rcases found : c.focus.activate with ⟨focus, _ | fault⟩
      · have settles (c₁ : Crew φ) (same : c.SameStaff c₁) : c₁.move (.work worker) =
            { c₁ with focus }.setPost worker
              (.running (.settling (c₁.now + c₁.target.settleMs)) run ledger) := by
          rw [goes c₁ same, stepRun, seeToFocus, same.focus, if_neg active, found]
        exact .kept settles rfl ok rfl ⟨rfl, rfl⟩ rfl (picks rfl rfl)
      · have fails (c₁ : Crew φ) (same : c.SameStaff c₁) : c₁.move (.work worker) =
            { c₁ with focus }.setPost worker
              (.running (.closing (some fault)) (run.failAll fault.message) ledger) := by
          rw [goes c₁ same, stepRun, seeToFocus, same.focus, if_neg active, found]
        exact .kept fails rfl ok rfl ⟨rfl, rfl⟩ rfl (picks rfl rfl)
  | settling due => exact .kept goes rfl ok rfl ⟨rfl, rfl⟩ rfl (picks rfl rfl)
  | opening =>
    exact .of_commutes goes rfl rfl ⟨fun picking => ok.deferred (picks rfl rfl picking), .inl ⟨rfl, rfl⟩⟩
  | joining accepting =>
    simp only [stepRun, wait] at goes
    by_cases receive : Member.canReceive accepting run ledger = true
    · simp only [if_pos receive] at goes
      exact .kept goes rfl ok rfl ⟨rfl, rfl⟩ rfl (picks rfl rfl)
    · simp only [if_neg receive] at goes
      cases accepting with
      | true =>
        exact .of_commutes goes rfl rfl ⟨fun picking => ok.deferred (picks rfl rfl picking), .closed rfl _⟩
      | false => exact .kept goes rfl ok rfl ⟨rfl, rfl⟩ rfl (picks rfl rfl)
  | closing fault =>
    exact .of_commutes goes rfl rfl ⟨fun picking => ok.deferred (picks rfl rfl picking), .closed rfl _⟩

theorem goesAlike_reporting {report : Report} {faulty : Bool} (h : post = .reporting report faulty) :
    c.GoesAlike d gate focused sent (.work worker) := by
  subst h
  have hands (c₁ : Crew φ) (same : c.SameStaff c₁) :
      c₁.move (.work worker) = c₁.handIn worker report faulty := by
    simp only [Crew.move, work, same.members, hm]
    rfl
  refine .kept hands rfl ok rfl ⟨rfl, rfl⟩ rfl (.of_replaces (replaces_setPost hm _ rfl) ?_)
  cases faulty <;> rfl

end Work

theorem goesAlike_work (ok : c.Ignores d gate focused) (worker : Nat) :
    c.GoesAlike d gate focused sent (.work worker) := by
  cases hm : c.members[worker]? with
  | none => exact .of_still ok (fun c₁ same => by simp only [Crew.move, work, same.members, hm]) rfl
  | some m =>
    obtain ⟨b, k, post⟩ := m
    by_cases ready : Member.isReady c.now ⟨b, k, post⟩ = true
    · cases post with
      | checking => exact goesAlike_top hm ok (.inl rfl) ready
      | sleeping due => exact goesAlike_top hm ok (.inr ⟨due, rfl⟩) ready
      | asking => exact goesAlike_asking hm ok rfl
      | taken t => exact goesAlike_taken hm ok rfl
      | running step run ledger => exact goesAlike_running hm ok rfl ready
      | reporting report faulty => exact goesAlike_reporting hm ok rfl
      | crashed | gone => cases ready
    · refine .of_still ok (fun c₁ same => ?_) rfl
      simp only [Crew.move, work, same.members, same.now, hm, if_neg ready]

/-! ### Workers that wait for their actions -/

/-- Whether a move is one of a worker that waits for its actions and sends nothing, or takes the worker away. -/
def Move.isReaction : Move → Bool
  | .closeLate _ | .join _ _ | .notice _ | .giveUp _ | .abort _ => true
  | _ => false

omit [Feed φ] in
/-- A worker stands elsewhere, the gate may be shut, and actions may be given up. -/
def react (worker : Nat) (post : Post) (shuts : Bool) (dropped : List Leftover) (c : Crew φ) : Crew φ :=
  { c.setPost worker post with
    board := if shuts then { c.board with gate := none } else c.board
    leftovers := c.leftovers ++ dropped }

/-- Such a move cannot be made, or the worker does the same whatever is on the board. -/
theorem rests_or_reacts (c : Crew φ) {mv : Move} (reaction : mv.isReaction = true) :
    (∀ c₁, c.SameStaff c₁ → c₁.move mv = c₁) ∨
    ∃ worker m post shuts dropped, c.members[worker]? = some m ∧ post.isPicking = false ∧
      ∀ c₁, c.SameStaff c₁ → c₁.move mv = c₁.react worker post shuts dropped := by
  cases mv with
  | closeLate worker =>
    by_cases h : ∃ b k run ledger, c.members[worker]? = some ⟨b, k, .running (.joining true) run ledger⟩ ∧
        run.isJoined ledger = true
    · obtain ⟨b, k, run, ledger, hm, joined⟩ := h
      refine .inr ⟨worker, _, .running (.joining false) run.releaseAll ledger, true, [], hm, rfl,
        fun c₁ same => ?_⟩
      simp only [move, closeLate, same.members, hm, if_pos joined, close, react, List.append_nil]
      rfl
    · refine .inl fun c₁ same => ?_
      simp only [move, closeLate, same.members]
      split
      · rename_i hm
        exact if_neg fun joined => h ⟨_, _, _, _, hm, joined⟩
      · rfl
  | join worker position =>
    by_cases h : ∃ b k accepting run ledger,
        c.members[worker]? = some ⟨b, k, .running (.joining accepting) run ledger⟩ ∧
        (run.entries[position]?.any (·.progress.isEnded) && !ledger.joined.contains position) = true
    · obtain ⟨b, k, accepting, run, ledger, hm, ended⟩ := h
      refine .inr ⟨worker, _, .running (.joining accepting) run
        { ledger with joined := ledger.joined ++ [position] }, false, [], hm, rfl, fun c₁ same => ?_⟩
      simp only [move, join, same.members, hm, if_pos ended, react, List.append_nil]
      rfl
    · refine .inl fun c₁ same => ?_
      simp only [move, join, same.members]
      split
      · rename_i hm
        exact if_neg fun ended => h ⟨_, _, _, _, _, hm, ended⟩
      · rfl
  | notice worker =>
    by_cases h : ∃ b k accepting run ledger,
        c.members[worker]? = some ⟨b, k, .running (.joining accepting) run ledger⟩ ∧
        (run.cancelled && ledger.deadline.isNone) = true
    · obtain ⟨b, k, accepting, run, ledger, hm, unseen⟩ := h
      refine .inr ⟨worker, _, .running (.joining accepting) run
        { ledger with deadline := some (c.now + c.engine.cleanupMs) }, false, [], hm, rfl, fun c₁ same => ?_⟩
      simp only [move, notice, same.members, same.now, same.engine, hm, if_pos unseen, react, List.append_nil]
      rfl
    · refine .inl fun c₁ same => ?_
      simp only [move, notice, same.members]
      split
      · rename_i hm
        exact if_neg fun unseen => h ⟨_, _, _, _, _, hm, unseen⟩
      · rfl
  | giveUp worker =>
    by_cases h : ∃ b k accepting run ledger,
        c.members[worker]? = some ⟨b, k, .running (.joining accepting) run ledger⟩ ∧
        ledger.deadline.any (· ≤ c.now) = true
    · obtain ⟨b, k, accepting, run, ledger, hm, due⟩ := h
      refine .inr ⟨worker, _, .running (.closing none) (run.giveUp ledger) ledger, true,
        run.leftovers ⟨worker, k⟩, hm, rfl, fun c₁ same => ?_⟩
      simp only [move, giveUp, same.members, same.now, hm, if_pos due, react]
      rfl
    · refine .inl fun c₁ same => ?_
      simp only [move, giveUp, same.members, same.now]
      split
      · rename_i hm
        exact if_neg fun due => h ⟨_, _, _, _, _, hm, due⟩
      · rfl
  | abort worker =>
    by_cases h : ∃ m, c.members[worker]? = some m ∧ m.isAbortable = true
    · obtain ⟨m, hm, kept⟩ := h
      refine .inr ⟨worker, m, .gone, false, m.leftovers worker, hm, rfl, fun c₁ same => ?_⟩
      simp only [move, abort, same.members, hm, if_pos kept, react]
      rfl
    · refine .inl fun c₁ same => ?_
      simp only [move, abort, same.members]
      split
      · rename_i m hm
        exact if_neg fun kept => h ⟨m, hm, kept⟩
      · rfl
  | _ => cases reaction

theorem goesAlike_reaction (ok : c.Ignores d gate focused) {mv : Move} (reaction : mv.isReaction = true) :
    c.GoesAlike d gate focused sent mv := by
  have notes : (c.recast d gate focused sent).notes mv = c.notes mv := by
    cases mv <;> cases reaction <;> rfl
  rcases rests_or_reacts c reaction with rests | ⟨worker, m, post, shuts, dropped, hm, other, reacts⟩
  · exact .of_still ok rests notes
  · have picks : (c.react worker post shuts dropped).Picks → c.Picks :=
      .of_replaces (replaces_setPost hm post rfl) other
    cases shuts with
    | true =>
      exact .of_commutes reacts notes rfl ⟨fun picking => ok.deferred (picks picking), .closed rfl _⟩
    | false => exact .kept reacts notes ok rfl ⟨rfl, rfl⟩ rfl picks

/-! ### Actions -/

omit [Feed φ] in
theorem Picks.of_poll {worker position : Nat} (picks : (c.poll worker position).Picks) : c.Picks := by
  unfold poll at picks
  split at picks
  · rename_i hm
    split at picks
    · exact picks
    · split at picks
      · exact picks.of_replaces (replaces_setPost hm _ rfl) rfl
      · exact picks
  · exact picks

/-- A move that leaves the board alone. -/
theorem GoesAlike.sends (ok : c.Ignores d gate focused) {mv : Move} {now : Nat} {members : List Member}
    {leftovers : List Leftover} {new : List Sent}
    (sends : c.move mv = { c with now, members, leftovers, sent := c.sent ++ new })
    (sends' : (c.recast d gate focused sent).move mv =
      { c.recast d gate focused sent with now, members, leftovers, sent := sent ++ new })
    (picks : (c.move mv).Picks → c.Picks)
    (notes : (c.recast d gate focused sent).notes mv = c.notes mv) : c.GoesAlike d gate focused sent mv := by
  refine ⟨d, gate, focused, sent ++ new, by rw [sends, sends']; rfl, ⟨fun picking => ?_, ?_⟩, notes⟩
  · rw [ok.deferred (picks picking), sends]
  · refine ok.gate.kept mv rfl ?_
    rw [sends]
    exact ⟨rfl, rfl⟩

theorem goesAlike_poll (ok : c.Ignores d gate focused) (worker position : Nat) :
    c.GoesAlike d gate focused sent (.poll worker position) := by
  obtain ⟨members, new, polls⟩ := c.exists_poll worker position
  have polls' := polls (c.recast d gate focused sent) sameStaff_recast
  have polls := polls c (.refl c)
  refine .sends ok polls polls' .of_poll ?_
  have grown : (c.poll worker position).sent = c.sent ++ new := by rw [polls]
  have grown' : ((c.recast d gate focused sent).poll worker position).sent = sent ++ new := by rw [polls']; rfl
  simp only [notes]
  rw [callsSince_of_append grown, callsSince_of_append grown']

theorem goesAlike_letGo (ok : c.Ignores d gate focused) (index : Nat) :
    c.GoesAlike d gate focused sent (.letGo index) := by
  obtain ⟨leftovers, new, lets, lets'⟩ : ∃ leftovers new,
      c.letGo index = { c with leftovers, sent := c.sent ++ new } ∧ (c.recast d gate focused sent).letGo index =
        { c.recast d gate focused sent with leftovers, sent := sent ++ new } := by
    have hl : (c.recast d gate focused sent).leftovers[index]? = c.leftovers[index]? := rfl
    simp only [letGo, hl]
    cases c.leftovers[index]? with
    | none => exact ⟨c.leftovers, [], by rw [List.append_nil], by rw [List.append_nil]; rfl⟩
    | some l => exact ⟨_, _, rfl, rfl⟩
  refine .sends ok lets lets' (fun picking => ?_) ?_
  · rwa [Crew.move, lets] at picking
  · have grown : (c.letGo index).sent = c.sent ++ new := by rw [lets]
    have grown' : ((c.recast d gate focused sent).letGo index).sent = sent ++ new := by rw [lets']
    simp only [notes]
    rw [callsSince_of_append grown, callsSince_of_append grown']

/-! ### Calls and the clock -/

theorem goesAlike_request (ok : c.Ignores d gate focused) (r : Request) :
    c.GoesAlike d gate focused sent (.request r) := by
  cases r with
  | interruptAll =>
    obtain ⟨d', same, interrupted⟩ := interruptAll_recast d gate focused sent c
    have commutes : (c.recast d gate focused sent).interruptAll.1 = c.interruptAll.1.recast d' gate focused sent := by
      rw [interrupted]
    have length : (c.move (.request .interruptAll)).members.length = c.members.length := length_move (by simp)
    exact .of_commutes (f := (·.interruptAll.1)) (fun _ _ => rfl) rfl commutes
      ⟨fun picking => same (ok.deferred (picking.of_touches c.touches_interruptAll length)),
        ok.gate.kept (.request .interruptAll) rfl ⟨rfl, rfl⟩⟩
  | interruptConflicting g =>
    obtain ⟨d', same, interrupted⟩ := interruptConflicting_recast d gate focused sent c g
    have commutes : ((c.recast d gate focused sent).interruptConflicting g).1 =
        (c.interruptConflicting g).1.recast d' gate focused sent := by rw [interrupted]
    have kept : (c.interruptConflicting g).1.board.gate = c.board.gate ∧
        (c.interruptConflicting g).1.board.focused = c.board.focused := by
      simp only [interruptConflicting]
      split <;> exact ⟨rfl, rfl⟩
    have length : (c.move (.request (.interruptConflicting g))).members.length = c.members.length :=
      length_move (by simp)
    exact .of_commutes (f := fun c₁ => (c₁.interruptConflicting g).1) (fun _ _ => rfl) rfl commutes
      ⟨fun picking => same (ok.deferred (picking.of_touches (touches_interruptConflicting g c) length)),
        ok.gate.kept (.request (.interruptConflicting g)) rfl kept⟩
  | layer g =>
    have kept : (c.layer g).1.board.gate = c.board.gate ∧ (c.layer g).1.board.focused = c.board.focused ∧
        (c.layer g).1.board.deferred = c.board.deferred := by
      simp only [layer]
      (repeat' split) <;> exact ⟨rfl, rfl, rfl⟩
    have notes : (c.recast d gate focused sent).notes (.request (.layer g)) = c.notes (.request (.layer g)) := by
      simp only [Crew.notes, layer_recast ok.gate]
      rcases ok.gate with ⟨rfl, -⟩ | ⟨shut, -⟩
      · rfl
      · simp [layer_of_isShut shut]
    refine .kept (f := fun c₁ => (c₁.layer g).1) (fun _ _ => rfl) notes ok
      (congrArg Prod.fst (layer_recast ok.gate g)) ⟨kept.1, kept.2.1⟩ kept.2.2 fun picking => ?_
    rcases layer_cases g c with refused | ⟨worker, b, k, run, ledger, _, _, -, hm, -, layered⟩
    · rwa [refused] at picking
    · exact picking.of_replaces (replaces_setMember hm _ (by rw [layered])) rfl

theorem goesAlike_stop (ok : c.Ignores d gate focused) : c.GoesAlike d gate focused sent .stop := by
  cases slot : c.slot with
  | none => exact .of_still ok (fun c₁ same => by simp only [Crew.move, stop, same.slot, slot]) rfl
  | some worker =>
    let told (c₁ : Crew φ) : Crew φ :=
      { c₁ with slot := none, members := c₁.members.modify worker Member.stop }
    let halted (c₁ : Crew φ) : Crew φ := (told c₁).cancelUnder fun shift => shift.worker == worker
    have stops (c₁ : Crew φ) (same : c.SameStaff c₁) : c₁.move .stop = (halted c₁).interruptAll.1 := by
      simp only [Crew.move, stop, same.slot, slot, halted, told]
    obtain ⟨d', same, interrupted⟩ := interruptAll_recast d gate focused sent (halted c)
    have commutes : (halted (c.recast d gate focused sent)).interruptAll.1 =
        (halted c).interruptAll.1.recast d' gate focused sent := congrArg Prod.fst interrupted
    refine .of_commutes stops rfl commutes
      ⟨fun picking => same (ok.deferred ?_), ok.gate.kept .stop (stops c (.refl c)) ⟨rfl, rfl⟩⟩
    have picks : (c.move .stop).Picks := stops c (.refl c) ▸ picking
    have length : (c.move .stop).members.length = c.members.length := length_move (by simp)
    exact picks.of_touches c.touches_stop length

theorem goesAlike_start (ok : c.Ignores d gate focused) : c.GoesAlike d gate focused sent .start := by
  cases slot : c.slot with
  | some worker => exact .of_still ok (fun c₁ same => by simp only [Crew.move, start, same.slot, slot]) rfl
  | none =>
    have starts (c₁ : Crew φ) (same : c.SameStaff c₁) :
        c₁.move .start = { c₁ with members := c₁.members ++ [{}], slot := some c₁.members.length } := by
      simp only [Crew.move, start, same.slot, slot]
    refine .kept starts rfl ok rfl ⟨rfl, rfl⟩ rfl fun picks => ?_
    obtain ⟨w, m, hm, picking⟩ := picks
    rcases List.mem_append.1 (List.mem_of_getElem? hm) with old | hired
    · obtain ⟨w, hw⟩ := List.mem_iff_getElem?.1 old
      exact ⟨w, m, hw, picking⟩
    · rw [List.mem_singleton.1 hired] at picking
      cases picking

theorem goesAlike_tick (ok : c.Ignores d gate focused) : c.GoesAlike d gate focused sent .tick := by
  obtain ⟨now, ticks, ticks'⟩ : ∃ now, c.tick = { c with now, sent := c.sent ++ [] } ∧
      (c.recast d gate focused sent).tick = { c.recast d gate focused sent with now, sent := sent ++ [] } := by
    have quiet : (c.recast d gate focused sent).isQuiet = c.isQuiet := rfl
    simp only [tick, quiet, List.append_nil]
    split
    · exact ⟨c.now + 1, rfl, rfl⟩
    · exact ⟨c.now, rfl, rfl⟩
  refine .sends ok ticks ticks' (fun picking => ?_) rfl
  rwa [Crew.move, ticks] at picking

/-- No move tells what nobody looks at. -/
theorem goesAlike (ok : c.Ignores d gate focused) (mv : Move) : c.GoesAlike d gate focused sent mv := by
  cases mv with
  | work worker => exact goesAlike_work ok worker
  | poll worker position => exact goesAlike_poll ok worker position
  | letGo index => exact goesAlike_letGo ok index
  | tick => exact goesAlike_tick ok
  | start => exact goesAlike_start ok
  | stop => exact goesAlike_stop ok
  | request r => exact goesAlike_request ok r
  | setFocus active failing =>
    exact .kept (f := (·.move (.setFocus active failing))) (fun _ _ => rfl) rfl ok rfl ⟨rfl, rfl⟩ rfl id
  | setDevice device =>
    exact .kept (f := (·.move (.setDevice device))) (fun _ _ => rfl) rfl ok rfl ⟨rfl, rfl⟩ rfl id
  | closeLate | join | notice | giveUp | abort => exact goesAlike_reaction ok rfl

/-! ## Plays -/

/-- A play goes on alike whatever nobody looks at. -/
theorem exists_recast_play (ok : c.Ignores d gate focused) (sent : List Sent) (moves : List Move) :
    ∃ d' gate' focused' sent',
    (c.recast d gate focused sent).play moves = (c.play moves).recast d' gate' focused' sent' ∧
    (c.play moves).Ignores d' gate' focused' ∧ (c.recast d gate focused sent).record moves = c.record moves := by
  -- `Ignores` carries the induction; what is ignored need not stay the same from move to move.
  induction moves generalizing c d gate focused sent with
  | nil => exact ⟨d, gate, focused, sent, rfl, ok, rfl⟩
  | cons mv moves ih =>
    obtain ⟨d₁, gate₁, focused₁, sent₁, moved, ok₁, notes⟩ := goesAlike ok mv
    obtain ⟨d', gate', focused', sent', played, ok', record⟩ := ih ok₁ sent₁
    refine ⟨d', gate', focused', sent', ?_, ok', ?_⟩
    · rw [play_cons, moved, played, play_cons]
    · rw [record_cons, record_cons, notes, moved, record]

/-- Whether two crews do, show and answer the same at a moment. -/
structure Alike (c c' : Crew φ) : Prop where
  now : c'.now = c.now
  feed : c'.feed = c.feed
  device : c'.device = c.device
  focus : c'.focus = c.focus
  phase : c'.board.phase = c.board.phase
  current : c'.board.current = c.board.current
  listings : c'.board.listings = c.board.listings
  started : c'.isStarted = c.isStarted
  members : c'.members = c.members
  leftovers : c'.leftovers = c.leftovers
  answers : ∀ r, (c'.serve r).2 = (c.serve r).2

omit [Feed φ] in
theorem alike_recast (ok : c.Ignores d gate focused) : c.Alike (c.recast d gate focused sent) where
  now := rfl
  feed := rfl
  device := rfl
  focus := rfl
  phase := rfl
  current := rfl
  listings := rfl
  started := rfl
  members := rfl
  leftovers := rfl
  answers := serve_recast ok

/-! ## Gates -/

/-- Whether the gate on the board, if there is one, is that of a worker that was hired. -/
def GateStands (c : Crew φ) : Prop := ∀ w, c.board.gate = some w → w < c.members.length

/-- The gate is left as it is, or shut, or opened by one of the workers. -/
theorem gate_move (c : Crew φ) (mv : Move) : (c.move mv).board.gate = c.board.gate ∨
    (c.move mv).board.gate = none ∨ ∃ w m, c.members[w]? = some m ∧ (c.move mv).board.gate = some w := by
  cases mv with
  | work worker =>
    simp only [move, work]
    split
    · exact .inl rfl
    · rename_i m hm
      split
      · split
        case h_4 step run ledger _ =>
          cases step with
          | opening => exact .inr (.inr ⟨worker, m, hm, rfl⟩)
          | closing fault => exact .inr (.inl rfl)
          | _ =>
            simp only [stepRun, seeToFocus, wait, close]
            (repeat' split) <;> first | exact .inl rfl | exact .inr (.inl rfl)
        case h_7 | h_8 => exact .inl rfl
        all_goals
          simp only [beginRound, ask, dispatch, handIn]
          (repeat' split) <;> exact .inl rfl
      · exact .inl rfl
  | request r =>
    refine .inl ?_
    cases r with
    | interruptAll => rfl
    | interruptConflicting g | layer g =>
      simp only [move, serve, interruptConflicting, layer]
      (repeat' split) <;> rfl
  | setFocus | setDevice => exact .inl rfl
  | _ =>
    simp only [move, start, stop, closeLate, poll, join, notice, giveUp, abort, letGo, tick, close]
    (repeat' split) <;> first | exact .inl rfl | exact .inr (.inl rfl)

theorem length_le_move (c : Crew φ) (mv : Move) : c.members.length ≤ (c.move mv).members.length := by
  by_cases h : mv = .start
  · subst h
    simp only [move, start]
    split <;> simp
  · exact Nat.le_of_eq (length_move h).symm

theorem GateStands.move (h : c.GateStands) (mv : Move) : (c.move mv).GateStands := by
  intro w opened
  refine Nat.lt_of_lt_of_le ?_ (c.length_le_move mv)
  rcases c.gate_move mv with kept | shut | ⟨w', m, hm, opens⟩
  · exact h w (kept ▸ opened)
  · cases shut.symm.trans opened
  · cases opens.symm.trans opened
    exact (List.getElem?_eq_some_iff.1 hm).1

theorem GateStands.play (h : c.GateStands) (moves : List Move) : (c.play moves).GateStands := by
  induction moves generalizing c with
  | nil => exact h
  | cons mv moves ih => exact ih (h.move mv)

omit [Feed φ] in
/-- When all workers have left nobody is behind the gate. -/
theorem GateStands.isShut (h : c.GateStands) (gone : ∀ m ∈ c.members, m.post = .gone) :
    c.IsShut c.board.gate := by
  intro w opened
  exact ⟨_, List.getElem?_eq_getElem (h w opened), gone _ (List.getElem_mem _)⟩

/-! ## New executors -/

/-- A newly built executor with the feed, the device, the focus and the settings of another one. -/
def renewed (c : Crew φ) : Crew φ := { new c.feed c.engine c.target c.device c.focus with now := c.now }

/--
A newly built executor that numbers its workers from where the ones that have left end, and that has yet to let
go of what was given up.
-/
def refreshed (c : Crew φ) : Crew φ := { c.renewed with members := c.members, leftovers := c.leftovers }

/-- When all workers have left and the board is blank, every play goes on as with a newly built executor. -/
theorem refreshed_play (gone : ∀ m ∈ c.members, m.post = .gone) (stands : c.GateStands) (slot : c.slot = none)
    (idle : c.board.phase = .idle) (blank : c.board.IsBlank) (later : List Move) :
    c.refreshed.record later = c.record later ∧ (c.play later).Alike (c.refreshed.play later) := by
  have ok : c.Ignores {} none false := by
    refine ⟨fun ⟨w, m, hm, picking⟩ => ?_, .inr ⟨stands.isShut gone, nofun⟩⟩
    rw [gone m (List.mem_of_getElem? hm)] at picking
    cases picking
  have refreshed : c.recast {} none false [] = c.refreshed := by
    have board : { c.board with deferred := {}, gate := none, focused := false } = ({} : Board) := by
      simp only [idle, blank.listings, blank.token, blank.current]
    rw [recast, board, slot]
    rfl
  obtain ⟨d', gate', focused', sent', played, ok', record⟩ := exists_recast_play ok [] later
  rw [refreshed] at played record
  exact ⟨record, played ▸ alike_recast ok'⟩

end Crew

end Combo
