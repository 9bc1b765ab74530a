import TreeWalk.HostCatalog
import TreeWalk.Main
import TreeWalk.Proofs.Grammar.ProgramSoundness
import TreeWalk.Proofs.Grammar.ExpressionCompleteness
import TreeWalk.Proofs.Grammar.StatementCompleteness
import TreeWalk.Proofs.Grammar.Acceptance
import TreeWalk.Proofs.Grammar.Trees
import TreeWalk.Proofs.Resolution.Table
import TreeWalk.Proofs.Store.Frames
import TreeWalk.Proofs.Resolution.Sites
import TreeWalk.Proofs.Machine.Activation
import TreeWalk.Proofs.Machine.Safe
import TreeWalk.Proofs.Machine.HopSoundness
import TreeWalk.Proofs.Program.Accepted
import TreeWalk.Proofs.Session.HopSoundness
import TreeWalk.Proofs.Likeness.Tree
import TreeWalk.Proofs.Likeness.Machine
import TreeWalk.Proofs.Likeness.Lockstep
import TreeWalk.Proofs.Likeness.Execution
import TreeWalk.Proofs.Likeness.Resolution
import TreeWalk.Proofs.Renaming.Tree
import TreeWalk.Proofs.Session.WriteSoundness
import TreeWalk.Proofs.Grammar.Operators
import TreeWalk.Proofs.Session.Coverage
import TreeWalk.Proofs.Renaming.Invariance
import TreeWalk.Proofs.Source.Cut
import TreeWalk.Proofs.Source.Scanning
import TreeWalk.Proofs.Grammar.Unparsing
import TreeWalk.Proofs.Grammar.Relabeling
import TreeWalk.Proofs.Grammar.Shift
import TreeWalk.Proofs.Resolution.Shift
import TreeWalk.Proofs.Source.Seam
import TreeWalk.Proofs.Likeness.Shift
import TreeWalk.Proofs.Program.Shift
import TreeWalk.Proofs.Session.Rejection
import TreeWalk.Proofs.Program.Joined
import TreeWalk.Proofs.Session.Joining
import TreeWalk.Proofs.Machine.Keeping
import TreeWalk.Proofs.Machine.Territory
import TreeWalk.Proofs.Machine.TopLevel
import TreeWalk.Proofs.Machine.Reach
import TreeWalk.Proofs.Session.Restoration
import TreeWalk.Proofs.Syntax.Position
import TreeWalk.Proofs.Resolution.Lexical
import TreeWalk.Proofs.Resolution.Capture
import TreeWalk.Proofs.Machine.NameWalk
import TreeWalk.Proofs.Machine.NameAgreement
import TreeWalk.Proofs.Session.NamesSuffice
import TreeWalk.Proofs.Grammar.Numbering
import TreeWalk.Proofs.Session.HopGrowth
import TreeWalk.Proofs.Grammar.Confinement
import TreeWalk.Proofs.Grammar.Recovery
import TreeWalk.Proofs.Grammar.Isolation
import TreeWalk.Proofs.Grammar.Wording
import TreeWalk.Proofs.Grammar.Resumption
import TreeWalk.Proofs.Machine.Printing
import TreeWalk.Proofs.Machine.FullSink
import TreeWalk.Proofs.Padding.Tree
import TreeWalk.Proofs.Padding.Resolution
import TreeWalk.Proofs.Padding.Machine
import TreeWalk.Proofs.Padding.Lockstep
import TreeWalk.Proofs.Padding.Execution
import TreeWalk.Proofs.Session.Wrapping
import TreeWalk.Proofs.Machine.Relating
import TreeWalk.Proofs.Grammar.Bracing
import TreeWalk.Proofs.Resolution.Faults
import TreeWalk.Proofs.Grammar.LineBlind
import TreeWalk.Proofs.Grammar.ReadOrder
import TreeWalk.Proofs.Grammar.FaultOrder
import TreeWalk.Proofs.Grammar.ReportOrder
import TreeWalk.Proofs.Indexed.Descent
import TreeWalk.Proofs.Indexed.Following
import TreeWalk.Proofs.Indexed.Expressions
import TreeWalk.Proofs.Indexed.Statements
import TreeWalk.Proofs.Indexed.Totality
import TreeWalk.Proofs.Resolution.Replacement
import TreeWalk.Proofs.Looping.Direct
import TreeWalk.Proofs.Looping.Resolution
import TreeWalk.Proofs.Looping.Execution
import TreeWalk.Proofs.Looping.Observation
import TreeWalk.Proofs.Looping.Running
import TreeWalk.Proofs.Looping.Meaning
import TreeWalk.Proofs.Store.Lookup
import TreeWalk.Proofs.Source.Rescanning
import TreeWalk.Proofs.Indexed.ByteScan
import TreeWalk.Proofs.Indexed.Encoding
import TreeWalk.Proofs.Indexed.Passing
import TreeWalk.Proofs.Indexed.ByteClasses
import TreeWalk.Proofs.Indexed.PieceScan
import TreeWalk.Proofs.Indexed.ItemScan
import TreeWalk.Proofs.Indexed.Images
import TreeWalk.Proofs.Indexed.CursorSafety
import TreeWalk.Proofs.Number.Nearest
import TreeWalk.Proofs.Number.Positional
import TreeWalk.Proofs.Number.Shortest
import TreeWalk.Proofs.Number.Sign
import TreeWalk.Proofs.Number.ReadBack
import TreeWalk.Proofs.Number.LiteralTexts
import TreeWalk.Proofs.Outline.Bracketed
import TreeWalk.Proofs.Outline.Words
import TreeWalk.Proofs.Outline.Faithfulness
