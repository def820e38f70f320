-- SUMMARY: A crew seen as a single worker: the view, the moves that go with it, and what holds while there is one worker at a time.
import Combo.Proofs.Crew.Journal
import Combo.Proofs.Crew.Listing

/-!
# One worker at a time

Seen from outside, a crew of which at most one worker has not left is an executor
with one worker: `single` is that executor, and `plain` gives the moves it makes
where the crew makes its own. The worker's dealings with its ledger are not seen,
and neither is a second call to stop.

A play is orderly when no worker is hired before the last one has left, none is taken
away, and none gives up its actions. `Lone` says what is on the board then: what
the worker at work has put there, and nothing else.
-/

namespace Combo

/-! ## The view -/

/-- The stage of a worker at a post, while something is deferred. -/
def Post.stage? (d : Deferred) : Post → Option Stage
  | .checking => some .checking
  | .asking => some (.asking d)
  | .taken ticket => some (.taken ticket d)
  | .running step run _ => some (.running step run)
  | .reporting report faulty => some (.reporting report faulty)
  | .sleeping due => some (.sleeping due)
  | .crashed => some .crashed
  | .gone => none

/-- A member of a crew as the worker of an executor. -/
def Member.worker? (d : Deferred) (m : Member) : Option Worker :=
  (m.post.stage? d).map (⟨m.stopping, ·⟩)

namespace Crew

variable {φ : Type}

/-- The executor with the first worker of a crew that has not left. -/
def executor (c : Crew φ) : Executor where
  engine := c.engine
  target := c.target
  device := c.device
  focus := c.focus
  phase := c.board.phase
  worker := c.members.findSome? (Member.worker? c.board.deferred)
  calls := c.calls

/-- The crew as a single worker. -/
def single (c : Crew φ) : Clockwork φ := ⟨c.now, c.feed, c.executor⟩

variable [Feed φ]

/-- The moves that a single worker makes where a member of a crew takes a step. -/
def plainWork (c : Crew φ) (worker : Nat) : List Combo.Move :=
  match c.members[worker]? with
  | none => []
  | some m =>
    if m.isReady c.now then
      match m.post with
      | .asking =>
        if m.stopping && (Feed.next c.now c.feed).1 == .crash then [.work, .requestStop] else [.work]
      | .running (.joining true) run ledger =>
        if run.hasQueued && !Member.canReceive true run ledger then [.closeLate] else [.work]
      | _ => [.work]
    else []

/-- The moves that a single worker makes where a crew makes one. -/
def plainMove (c : Crew φ) : Move → List Combo.Move
  | .work worker => c.plainWork worker
  | .closeLate worker =>
    match c.members[worker]? with
    | some ⟨_, _, .running (.joining true) run ledger⟩ => if run.isJoined ledger then [.closeLate] else []
    | _ => []
  | .poll worker position =>
    match c.members[worker]? with
    | some ⟨_, _, .running _ _ _⟩ => [.poll position]
    | _ => []
  | .tick => if c.isQuiet then [.tick] else []
  | .start => if c.slot.isSome then [] else [.start]
  | .stop => if c.slot.isSome then [.requestStop] else []
  | .request r => [.request r]
  | .setFocus active failing => [.setFocus active failing]
  | .setDevice device => [.setDevice device]
  | .join _ _ | .notice _ | .giveUp _ | .letGo _ | .abort _ => []

/-- The moves that a single worker makes in a play of a crew. -/
def plain (c : Crew φ) : List Move → List Combo.Move
  | [] => []
  | m :: moves => c.plainMove m ++ (c.move m).plain moves

/-! ## Successive and orderly plays -/

/-- Whether a move hires no worker before the last one has left. -/
def isSuccessive (c : Crew φ) : Move → Bool
  | .start => c.slot.isSome || c.members.all (·.post == .gone)
  | _ => true

/-- Whether no worker is hired before the last one has left. -/
def Successive (c : Crew φ) : List Move → Prop
  | [] => True
  | m :: moves => c.isSuccessive m = true ∧ (c.move m).Successive moves

instance decidableSuccessive (c : Crew φ) (moves : List Move) : Decidable (c.Successive moves) :=
  match moves with
  | [] => inferInstanceAs (Decidable True)
  | m :: moves =>
    have := decidableSuccessive (c.move m) moves
    inferInstanceAs (Decidable (_ ∧ _))

theorem successive_append {c : Crew φ} {first second : List Move} :
    c.Successive (first ++ second) ↔ c.Successive first ∧ (c.play first).Successive second := by
  induction first generalizing c with
  | nil => simp [Successive]
  | cons m first ih => simp [Successive, ih, and_assoc]

/-- Whether with a move no second worker is hired, none is taken away, and none gives up. -/
def isRegular (c : Crew φ) : Move → Bool
  | .giveUp worker => !c.members[worker]?.any (Member.canGiveUp c.now)
  | .abort worker => !c.members[worker]?.any Member.isAbortable
  | m => c.isSuccessive m

/-- Whether all moves of a play are regular. -/
def Orderly (c : Crew φ) : List Move → Prop
  | [] => True
  | m :: moves => c.isRegular m = true ∧ (c.move m).Orderly moves

instance decidableOrderly (c : Crew φ) (moves : List Move) : Decidable (c.Orderly moves) :=
  match moves with
  | [] => inferInstanceAs (Decidable True)
  | m :: moves =>
    have := decidableOrderly (c.move m) moves
    inferInstanceAs (Decidable (_ ∧ _))

theorem orderly_append {c : Crew φ} {first second : List Move} :
    c.Orderly (first ++ second) ↔ c.Orderly first ∧ (c.play first).Orderly second := by
  induction first generalizing c with
  | nil => simp [Orderly]
  | cons m first ih => simp [Orderly, ih, and_assoc]

@[simp] theorem plain_nil (c : Crew φ) : c.plain [] = [] := rfl

@[simp] theorem plain_cons (c : Crew φ) (m : Move) (moves : List Move) :
    c.plain (m :: moves) = c.plainMove m ++ (c.move m).plain moves := rfl

end Crew

/-! ## What a lone worker has on the board -/

/-- Whether no group is shown on the board. -/
structure Board.IsBlank (b : Board) : Prop where
  listings : b.listings = []
  token : b.token = none
  current : b.current = none

/-- What is on the board while its only worker is at a run, told to stop or not. -/
structure Board.Shows (b : Board) (stopping : Bool) (own : Shift) (step : Step) (run : Run)
    (ledger : Ledger) : Prop where
  phase : b.phase = .running
  guests : ledger.guests = []
  stopped : stopping = true → run.cancelled = true
  coherent : run.Coherent
  listings : b.listings = run.shown own.worker
  token : b.token = if run.cancelled then none else some own
  current : b.current = if run.cancelled then none else some run.group
  noticed : ledger.deadline.isSome = true → run.cancelled = true
  gate : step = .joining true → b.gate = some own.worker ∧ b.focused = run.needsFocus

/-- Whether the board is as its only worker has left it. -/
def Board.Fits (b : Board) (worker : Nat) (m : Member) : Prop :=
  match m.post with
  | .asking | .taken _ =>
    b.IsBlank ∧ b.phase = .dequeuing ∧ (m.stopping = true → b.deferred.all = true)
  | .running step run ledger => b.Shows m.stopping ⟨worker, m.round⟩ step run ledger
  | .crashed => b.IsBlank ∧ m.stopping = false
  | .checking | .reporting _ _ | .sleeping _ => b.IsBlank
  | .gone => False

namespace Crew

variable {φ : Type}

/-- Whether one worker at most has not left, and the board is as it has left it. -/
inductive Lone (c : Crew φ) : Prop where
  | none (members : ∀ m ∈ c.members, m.post = .gone) (slot : c.slot = none)
      (leftovers : c.leftovers = []) (blank : c.board.IsBlank)
  | one {old : List Member} {m : Member} (members : c.members = old ++ [m])
      (gone : ∀ o ∈ old, o.post = .gone)
      (slot : c.slot = if m.stopping then none else some old.length)
      (leftovers : c.leftovers = []) (fits : c.board.Fits old.length m)

end Crew

end Combo
