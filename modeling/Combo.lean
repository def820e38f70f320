import Combo.Main
import Combo.Action.Record
import Combo.Clockwork.Supply
import Combo.Queue.Operation
import Combo.Script.Canonical
import Combo.Proofs.Clockwork.Turn
import Combo.Proofs.Executor.Run
import Combo.Proofs.Executor.Poll
import Combo.Proofs.Clockwork.Sound
import Combo.Proofs.Clockwork.Release
import Combo.Proofs.Clockwork.Rounds
import Combo.Proofs.Environment.Link
import Combo.Proofs.Environment.Override
import Combo.Proofs.Environment.MergeRecord
import Combo.Proofs.Script.Split
import Combo.Proofs.Script.Piece
import Combo.Proofs.Script.RoundTrip
import Combo.Proofs.Script.Compose
import Combo.Proofs.Script.Verdict
import Combo.Proofs.Script.Scan
import Combo.Proofs.Executor.Change
import Combo.Proofs.Clockwork.Course
import Combo.Proofs.Clockwork.Layering
import Combo.Proofs.Clockwork.Window
import Combo.Proofs.Executor.Dispatch
import Combo.Proofs.Clockwork.Deferral
import Combo.Proofs.Clockwork.Entries
import Combo.Proofs.Clockwork.Live
import Combo.Proofs.Environment.Incident
import Combo.Proofs.Environment.Coexistence
import Combo.Proofs.Queue.Breaker
import Combo.Proofs.Queue.Journal
import Combo.Proofs.Queue.Conservation
import Combo.Proofs.Executor.Solo
import Combo.Proofs.Clockwork.Impact
import Combo.Proofs.Clockwork.Parallel
import Combo.Proofs.Clockwork.Fate
import Combo.Proofs.Executor.Proper
import Combo.Proofs.Script.Executable
import Combo.Proofs.Script.Agreement
import Combo.Proofs.Clockwork.Handout
import Combo.Proofs.Clockwork.Track
import Combo.Proofs.Clockwork.LetGo
import Combo.Proofs.Clockwork.Finality
import Combo.Proofs.Executor.Undisturbed
import Combo.Proofs.Clockwork.Outset
import Combo.Proofs.Environment.Encounter
import Combo.Proofs.Environment.Outstanding
import Combo.Proofs.Environment.Divergence
import Combo.Proofs.Clockwork.Sight
import Combo.Proofs.Clockwork.Backoff
import Combo.Proofs.Clockwork.Pauses
import Combo.Proofs.Queue.Aftermath
import Combo.Proofs.Queue.History
import Combo.Proofs.Queue.Layers
import Combo.Proofs.Queue.Estimate
import Combo.Proofs.Clockwork.Listing
import Combo.Proofs.Clockwork.Register
import Combo.Proofs.Clockwork.Onward
import Combo.Proofs.Clockwork.Flag
import Combo.Proofs.Clockwork.Recall
import Combo.Proofs.Clockwork.Restart
import Combo.Proofs.Number.Duration
import Combo.Proofs.Number.Integer
import Combo.Proofs.Executor.Keys
import Combo.Proofs.Number.Rounding
import Combo.Proofs.Number.Unpacked
import Combo.Proofs.Number.Length
import Combo.Proofs.Number.Nearest
import Combo.Proofs.Executor.Timetable
import Combo.Proofs.Executor.Performed
import Combo.Proofs.Clockwork.Punctual
import Combo.Proofs.Environment.Roster
import Combo.Proofs.Environment.OnTime
import Combo.Proofs.Environment.Performance
import Combo.Proofs.Environment.Completion
import Combo.Proofs.Environment.Drain
import Combo.Proofs.Environment.Intake
import Combo.Proofs.Cli.DryRun
import Combo.Proofs.Input.Vocabulary
import Combo.Proofs.Executor.Presses
import Combo.Proofs.Number.Exact
import Combo.Proofs.Number.Nanos
import Combo.Proofs.Script.HeldTime
import Combo.Proofs.Config.Storage
import Combo.Proofs.Crew.Single
import Combo.Proofs.Crew.Seat
import Combo.Proofs.Crew.Work
import Combo.Proofs.Crew.Calls
import Combo.Proofs.Crew.Mirror
import Combo.Proofs.Crew.Fare
import Combo.Proofs.Crew.Grip
import Combo.Proofs.Crew.Sole
import Combo.Proofs.Crew.Listing
import Combo.Proofs.Crew.Journal
import Combo.Proofs.Crew.Rounds
import Combo.Proofs.Crew.Trim
import Combo.Proofs.Crew.Deadline
import Combo.Proofs.Crew.View
import Combo.Proofs.Crew.Release
import Combo.Proofs.Crew.Apart
import Combo.Proofs.Crew.Sends
import Combo.Proofs.Crew.Windup
import Combo.Proofs.Crew.Interrupts
import Combo.Proofs.Crew.Course
import Combo.Proofs.Crew.Flag
import Combo.Proofs.Crew.Account
import Combo.Proofs.Crew.Restart
import Combo.Proofs.Crew.Sight
import Combo.Proofs.Crew.Backoff
import Combo.Proofs.Crew.Foreground
