-- SUMMARY: A hand-fed supply of groups for an executor, with requests made while a group is handed out.
import Combo.Clockwork.Schedule
import Combo.Script.Reading

/-!
# A hand-fed executor

A supply is a list of groups that is filled by hand. While it hands out a group
it may make requests of the executor, or crash.
-/

namespace Combo

/-- What a supply does while it hands out a group. -/
inductive Interjection where
  | request (request : Request)
  | crash
  deriving DecidableEq

/-- A list of groups filled by hand, and what became of them. -/
structure Supply where
  pending : List Ticket := []
  /-- The number of the next group. -/
  nextId : Nat := 0
  /-- How many groups were asked for and found. -/
  handed : Nat := 0
  /-- What to do while the group with this count is handed out. -/
  interjections : List (Nat × Interjection) := []
  /-- Every report, oldest first. -/
  reports : List Report := []
  /-- The answers to requests: the count of the group, the phase, and the answer. -/
  answers : List (Nat × Phase × Answer) := []
  deriving DecidableEq, Inhabited

namespace Supply

/-- Appends groups under fresh numbers. -/
def push (s : Supply) (groups : List Group) : Supply :=
  { s with
    pending := s.pending ++ groups.mapIdx fun i g => ⟨s.nextId + i, g⟩
    nextId := s.nextId + groups.length }

/-- What is to be done while the next group is handed out. -/
def due (s : Supply) : List Interjection :=
  if s.pending.isEmpty then []
  else (s.interjections.filter (·.1 == s.handed)).map (·.2)

/-- The requests to be made before the next group is handed out. -/
def requests (s : Supply) : List Request :=
  (s.due.takeWhile (· != .crash)).filterMap fun
    | .request r => some r
    | .crash => none

/-- Hands out the next group. -/
def next (s : Supply) : Handout × Supply :=
  match s.pending with
  | [] => (.empty, s)
  | t :: rest =>
    let s' := { s with pending := rest, handed := s.handed + 1 }
    (if s.due.contains .crash then .crash else .group t, s')

instance : Feed Supply where
  next _ s := s.next
  complete report s := { s with reports := s.reports ++ [report] }
  left s := s.pending.map (·.group)

end Supply

namespace Clockwork

/-- Makes one request of the executor and notes the answer. -/
def interjectOne (s : Clockwork Supply) (request : Request) : Clockwork Supply :=
  let phase := s.executor.phase
  let (executor, answer) := s.executor.serve request
  { s with
    executor
    feed := { s.feed with answers := s.feed.answers ++ [(s.feed.handed, phase, answer)] } }

/-- Makes the requests that come with the next group. -/
def interject (s : Clockwork Supply) : Clockwork Supply :=
  s.feed.requests.foldl interjectOne s

end Clockwork

end Combo
