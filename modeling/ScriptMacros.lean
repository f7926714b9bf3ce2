import ScriptMacros.Proofs.Conservation
import ScriptMacros.Proofs.Run.Passes
import ScriptMacros.Proofs.Bracket
import ScriptMacros.Proofs.Pasting
import ScriptMacros.Proofs.Path
import ScriptMacros.Proofs.Outline
import ScriptMacros.Proofs.SinglePass
import ScriptMacros.Proofs.Run.Agreement
import ScriptMacros.Proofs.Run.Circular
import ScriptMacros.Proofs.Run.FunctionMacro
import ScriptMacros.Proofs.Run.Growth
import ScriptMacros.Proofs.Run.Inlining
import ScriptMacros.Proofs.Run.Nesting
import ScriptMacros.Proofs.Run.Output
import ScriptMacros.Proofs.Run.Following
import ScriptMacros.Proofs.Run.Emptying
import ScriptMacros.Proofs.Run.Limits
import ScriptMacros.Proofs.Run.DepthFirst
import ScriptMacros.Proofs.Run.Failing
import ScriptMacros.Proofs.Declaration
import ScriptMacros.Proofs.Run.Collecting
import ScriptMacros.Proofs.Run.Shape
import ScriptMacros.Proofs.Run.Unreported
import ScriptMacros.Proofs.Run.Provenance
import ScriptMacros.Proofs.Run.Executing
import ScriptMacros.Proofs.Run.Erasing
import ScriptMacros.Proofs.Run.Repeating
import ScriptMacros.Proofs.Run.Requesting
import ScriptMacros.Proofs.Encoding
import ScriptMacros.Proofs.FileTree
import ScriptMacros.Proofs.Run.Conserving
import ScriptMacros.Proofs.CommandLine.Outcome
import ScriptMacros.Proofs.Layering
import ScriptMacros.Proofs.Filling
import ScriptMacros.Proofs.Balance
import ScriptMacros.Proofs.Separation
import ScriptMacros.Proofs.Precedence
import ScriptMacros.Proofs.Sharing
import ScriptMacros.Proofs.Stripping
import ScriptMacros.Proofs.Collapsing
import ScriptMacros.Proofs.Binding
import ScriptMacros.Proofs.Writing
import ScriptMacros.Proofs.Matching
import ScriptMacros.Proofs.Directive
import ScriptMacros.Proofs.Joining
import ScriptMacros.Proofs.Run.Journal
