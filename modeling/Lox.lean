import Lox.CommandLine
import Lox.Main
import Lox.Proofs.Execution.Restoration
import Lox.Proofs.Grammar.RoundTrip
import Lox.Proofs.Scoping.Presence
import Lox.Proofs.Tokens.Partition
import Lox.Proofs.Names.Shadowing
import Lox.Proofs.Renaming.Hygiene
import Lox.Proofs.Renaming.Rejections
import Lox.Proofs.Scoping.TopLevel
import Lox.Proofs.Scoping.Nearest
import Lox.Proofs.Names.Rules
import Lox.Proofs.Names.Tally
import Lox.Proofs.Names.Verdicts
import Lox.Proofs.Execution.Course
import Lox.Proofs.Receivers.Frames
import Lox.Proofs.Receivers.Store
import Lox.Proofs.Receivers.Reach
import Lox.Proofs.Receivers.Steps
import Lox.Proofs.Receivers.Bound
import Lox.Proofs.Receivers.Executions
import Lox.Proofs.Receivers.Sessions
import Lox.Proofs.Joining.Repeats
import Lox.Proofs.Joining.Rules
import Lox.Proofs.Joining.Programs
import Lox.Proofs.Joining.Scans
import Lox.Proofs.Joining.Completions
import Lox.Proofs.Joining.Drawing
import Lox.Proofs.Joining.Supplies
import Lox.Proofs.Joining.Walks
import Lox.Proofs.Joining.Steps
import Lox.Proofs.Joining.Courses
import Lox.Proofs.Joining.Histories
import Lox.Proofs.Joining.Preparing
import Lox.Proofs.Joining.Pieces
import Lox.Proofs.Joining.Wholes
import Lox.Proofs.Layout.Invariance
import Lox.Proofs.Prompt.Statements
import Lox.Proofs.Prompt.Readings
import Lox.Proofs.Prompt.Trailing
import Lox.Proofs.Execution.Output
import Lox.Proofs.Prompt.Printing
import Lox.Proofs.Tokens.Rendering
import Lox.Proofs.Tokens.LineEnds
import Lox.Proofs.Renaming.Freshness
import Lox.Proofs.Execution.Reports
import Lox.Proofs.Returns.Passing
import Lox.Proofs.Returns.Bodies
import Lox.Proofs.Returns.Calls
import Lox.Proofs.Returns.Sessions
import Lox.Proofs.Refusals.Rationing
import Lox.Proofs.Refusals.Runs
import Lox.Proofs.Refusals.Sessions
import Lox.Proofs.Recovery.Runs
import Lox.Proofs.Recovery.Rules
import Lox.Proofs.Recovery.Ends
import Lox.Proofs.Recovery.Places
import Lox.Proofs.Recovery.Segments
import Lox.Proofs.Recovery.Cuts
import Lox.Proofs.Recovery.Braces
import Lox.Proofs.Renaming.Numbers
import Lox.Proofs.WellFormed.Rules
import Lox.Proofs.WellFormed.Steps
import Lox.Proofs.WellFormed.Runs
import Lox.Proofs.WellFormed.Sessions
import Lox.Proofs.Renaming.Replacements
import Lox.Proofs.Exchange.Rules
import Lox.Proofs.Exchange.Programs
import Lox.Proofs.Exchange.Parts
import Lox.Proofs.Exchange.Loops
import Lox.Proofs.Exchange.Desugaring
import Lox.Proofs.Bytes.Answers
import Lox.Proofs.Joining.Resolutions
import Lox.Proofs.Classes.Sessions
import Lox.Proofs.Sharing.Writes
import Lox.Proofs.Annals.Events
import Lox.Proofs.Annals.Seclusion
import Lox.Proofs.Annals.Runs
import Lox.Proofs.Annals.Sessions
import Lox.Proofs.Annals.Receivers
import Lox.Proofs.Annals.Calls
import Lox.Proofs.Annals.Construction
import Lox.Proofs.Sharing.Distances
import Lox.Proofs.Bracketing.Unambiguous
import Lox.Lox
