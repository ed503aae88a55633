import EntityMachines.Async.Durations
import EntityMachines.Async.Pool
import EntityMachines.Catalogue
import EntityMachines.Console
import EntityMachines.Eval.Timers
import EntityMachines.Evaluator
import EntityMachines.Host
import EntityMachines.Library.Registration
import EntityMachines.Machine.Check
import EntityMachines.Machine.Document
import EntityMachines.Machine.Threads
import EntityMachines.Main
import EntityMachines.Proofs.Catalogue.Flags
import EntityMachines.Proofs.Catalogue.Notification
import EntityMachines.Proofs.Catalogue.Pagination
import EntityMachines.Proofs.Catalogue.Search
import EntityMachines.Proofs.Catalogue.Selection
import EntityMachines.Proofs.Catalogue.Undo
import EntityMachines.Proofs.Console.Session
import EntityMachines.Proofs.Document.Written
import EntityMachines.Proofs.Ending.Recursion
import EntityMachines.Proofs.Evaluation.Amendment
import EntityMachines.Proofs.Host.Creation
import EntityMachines.Proofs.Host.Pass
import EntityMachines.Proofs.Host.Removal
import EntityMachines.Proofs.Joins.Answered
import EntityMachines.Proofs.Joins.Staffed
import EntityMachines.Proofs.Joins.Timed
import EntityMachines.Proofs.Library.Cards
import EntityMachines.Proofs.Library.Counterparts
import EntityMachines.Proofs.Library.Cuts
import EntityMachines.Proofs.Library.Durations
import EntityMachines.Proofs.Library.Groups
import EntityMachines.Proofs.Library.Object
import EntityMachines.Proofs.Library.Retry
import EntityMachines.Proofs.Library.Shifts
import EntityMachines.Proofs.Library.Sort
import EntityMachines.Proofs.Library.Stamps
import EntityMachines.Proofs.Library.Strings
import EntityMachines.Proofs.Library.Unique
import EntityMachines.Proofs.Lockstep.Quiet
import EntityMachines.Proofs.Lockstep.Unaffected
import EntityMachines.Proofs.Log
import EntityMachines.Proofs.Machine.Configured
import EntityMachines.Proofs.Machine.Course
import EntityMachines.Proofs.Machine.Guards
import EntityMachines.Proofs.Machine.Interruption
import EntityMachines.Proofs.Machine.Invariant
import EntityMachines.Proofs.Machine.Spacing
import EntityMachines.Proofs.Numeral.Doubles
import EntityMachines.Proofs.Numeral.Grouping
import EntityMachines.Proofs.Numeral.Literals
import EntityMachines.Proofs.Numeral.Nearest
import EntityMachines.Proofs.Numeral.Readings
import EntityMachines.Proofs.Numeral.Rounding
import EntityMachines.Proofs.Numeral.Whole
import EntityMachines.Proofs.Reader.Completion
import EntityMachines.Proofs.Reader.Surrogates
import EntityMachines.Proofs.Registry
import EntityMachines.Proofs.Scheduler.Regular
import EntityMachines.Proofs.Text.Distance
import EntityMachines.Proofs.Threads.Orderly
import EntityMachines.Proofs.Threads.Sequential
import EntityMachines.Proofs.Timers
import EntityMachines.Proofs.Value.Merging
import EntityMachines.Proofs.Value.Paths
import EntityMachines.Proofs.Value.Printing
import EntityMachines.Value.Access
import EntityMachines.Value.Reader
