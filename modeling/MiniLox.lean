import MiniLox.Main
import MiniLox.Node.Printer
import MiniLox.Reference.Engine
import MiniLox.Reference.Transformer
import MiniLox.Proofs.Grammar.Steps
import MiniLox.Proofs.Grammar.Soundness
import MiniLox.Proofs.Grammar.Completeness
import MiniLox.Proofs.Action
import MiniLox.Proofs.Names
import MiniLox.Proofs.Scoping.Flattening
import MiniLox.Proofs.Environment
import MiniLox.Proofs.Evaluation
import MiniLox.Proofs.Scoping.Agreement
import MiniLox.Proofs.Scoping.Static
import MiniLox.Proofs.Lexing.Pieces
import MiniLox.Proofs.Frontend
import MiniLox.Proofs.Reference.Language
import MiniLox.Proofs.Reference.Derivations
import MiniLox.Proofs.Reference.Matching
import MiniLox.Proofs.Reference.Engine
import MiniLox.Proofs.Reference.Trees
import MiniLox.Proofs.Reference.Sentences
import MiniLox.Proofs.Reference.Scanning
import MiniLox.Proofs.Reference.Agreement
import MiniLox.Proofs.Grammar.Joining
import MiniLox.Proofs.Session.Later
import MiniLox.Proofs.Session.Joining
import MiniLox.Proofs.Session.Faults
import MiniLox.Proofs.Lexing.LongestMatch
import MiniLox.Proofs.Typing.Independence
import MiniLox.Proofs.CommandLine.Invocation
import MiniLox.Proofs.CommandLine.Status
import MiniLox.Proofs.Node.Codec
import MiniLox.Proofs.CommandLine.Paths
import MiniLox.Proofs.CommandLine.Stored
import MiniLox.Proofs.Text.Utf8
import MiniLox.Proofs.Numeric.Decimal
import MiniLox.Proofs.Numeric.Digits
import MiniLox.Proofs.Json.Numerals
import MiniLox.Proofs.Json.RoundTrip
import MiniLox.Proofs.Execution.Moments
import MiniLox.Proofs.Execution.Stuck
import MiniLox.Proofs.CommandLine.Trees
import MiniLox.Proofs.Scoping.Rebinding
import MiniLox.Proofs.Scoping.Stacks
import MiniLox.Proofs.Scoping.Discipline
import MiniLox.Proofs.Execution.Lines
import MiniLox.Proofs.Execution.Tracing
import MiniLox.Proofs.Execution.Shown
import MiniLox.Proofs.Numeric.Single
import MiniLox.Proofs.Session.Singles
import MiniLox.Proofs.Recovery.Partition
import MiniLox.Proofs.Recovery.EntryPoints
import MiniLox.Proofs.Recovery.Isolation
import MiniLox.Proofs.Recovery.Statements
import MiniLox.Proofs.Grammar.Contents
import MiniLox.Proofs.Node.Lossless
import MiniLox.Proofs.Node.Loading
import MiniLox.Proofs.Lexing.Layout
import MiniLox.Proofs.Recovery.Relabeling
import MiniLox.Proofs.Node.Equality
import MiniLox.Proofs.Layout
import MiniLox.Proofs.Numeric.Displayed
import MiniLox.Proofs.Session.Displayed
import MiniLox.Proofs.Grammar.Parts
import MiniLox.Proofs.Node.PrefixForm
import MiniLox.Proofs.Numeric.Nearest
import MiniLox.Proofs.Numeric.Twice
import MiniLox.Proofs.Numeric.Values
import MiniLox.Proofs.Numeric.Arithmetic
import MiniLox.Proofs.Numeric.Intervals
import MiniLox.Proofs.Numeric.Significant
import MiniLox.Proofs.Numeric.Shortest
