import Interleave.Main
import Interleave.Minimization.Minimized
import Interleave.Program.Harness
import Interleave.Program.Script
import Interleave.Scheduler.Callers
import Interleave.Strategy.RandomWalk
import Interleave.Strategy.Recorded
import Interleave.Strategy.Scripted
import Interleave.Proofs.Dump.Reading
import Interleave.Proofs.Engine.Accounting
import Interleave.Proofs.Engine.LastOutcome
import Interleave.Proofs.Engine.Merging
import Interleave.Proofs.Engine.Resuming
import Interleave.Proofs.Engine.Rounds
import Interleave.Proofs.Engine.Transparency
import Interleave.Proofs.EventTree.HappensBefore
import Interleave.Proofs.EventTree.MintraceRoundTrip
import Interleave.Proofs.EventTree.Occurrences
import Interleave.Proofs.Minimization.Consumption
import Interleave.Proofs.Minimization.Cutoff
import Interleave.Proofs.Minimization.EagerCursor
import Interleave.Proofs.Minimization.EditSearch
import Interleave.Proofs.Minimization.GuidedReplay
import Interleave.Proofs.Minimization.ReplayPaths
import Interleave.Proofs.Minimization.Resetting
import Interleave.Proofs.Minimization.SessionEnd
import Interleave.Proofs.Minimization.TransitionSearch
import Interleave.Proofs.Minimization.WithheldSends
import Interleave.Proofs.Program.Deliveries
import Interleave.Proofs.Program.Livelock
import Interleave.Proofs.Program.Progress
import Interleave.Proofs.SavedFiles
import Interleave.Proofs.Scheduler.Blame
import Interleave.Proofs.Scheduler.Cancellation
import Interleave.Proofs.Scheduler.LegalRuns
import Interleave.Proofs.Scheduler.StepBound
import Interleave.Proofs.Scheduler.Temperatures
import Interleave.Proofs.Strategy.ExactReplay
