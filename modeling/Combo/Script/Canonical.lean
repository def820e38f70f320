-- SUMMARY: Canonical groups: those that are written as a script and read back as they were.
import Combo.Script.Reading

/-!
# Canonical groups

A script says neither blanks around a parameter nor lengths of its own, and a
parameter cannot hold a `)`. An opening parenthesis in a parameter shields
everything after it, so it can stand in the very last action only. Groups that
keep to this are canonical.
-/

namespace Combo.Script

/-- Whether a text may stand between the parentheses of an action. -/
def IsParameter (p : String) : Prop :=
  p ≠ "" ∧ Text.trim p.toList = p.toList ∧ ')' ∉ p.toList

/-- Whether a text may stand there with more of the script after it. -/
def IsClosed (p : String) : Prop := '(' ∉ p.toList

instance (p : String) : Decidable (IsParameter p) := inferInstanceAs (Decidable (_ ∧ _ ∧ _))

instance (p : String) : Decidable (IsClosed p) := inferInstanceAs (Decidable (¬ _))

/-- Whether an action is one that a script can name. -/
def IsCanonicalAction (a : Action) : Prop :=
  (∀ p ∈ a.parameter, IsParameter p) ∧ a = Action.make a.kind a.parameter

instance (a : Action) : Decidable (IsCanonicalAction a) := inferInstanceAs (Decidable (_ ∧ _))

/-- Whether groups are as a script can name them. -/
def IsCanonical (groups : List Group) : Prop :=
  (∀ g ∈ groups, g.actions ≠ []) ∧
  (∀ g ∈ groups, ∀ a ∈ g.actions, IsCanonicalAction a) ∧
  ∀ a ∈ (groups.flatMap (·.actions)).dropLast, ∀ p ∈ a.parameter, IsClosed p

instance (groups : List Group) : Decidable (IsCanonical groups) :=
  inferInstanceAs (Decidable (_ ∧ _ ∧ _))

end Combo.Script
