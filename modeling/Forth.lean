import Forth.Cell
import Forth.CommandLine
import Forth.CommandLine.Options
import Forth.Compile
import Forth.Control
import Forth.Definition
import Forth.Dictionary
import Forth.Error
import Forth.Frame
import Forth.Machine
import Forth.Main
import Forth.Memory
import Forth.Numeral
import Forth.Primitive
import Forth.Progress
import Forth.Proofs.Alike
import Forth.Proofs.Calls
import Forth.Proofs.DefinitionLine
import Forth.Proofs.Evaluation
import Forth.Proofs.FrameMachine
import Forth.Proofs.PartialCompile
import Forth.Proofs.Reachable
import Forth.Proofs.Composition
import Forth.Proofs.Respects
import Forth.Proofs.Runs
import Forth.Proofs.SubmissionOrder
import Forth.Proofs.Suspension
import Forth.Proofs.Vocabulary
import Forth.Random
import Forth.Scanner
import Forth.Session
import Forth.Session.Boot
import Forth.Session.Call
import Forth.Session.Interpret
import Forth.Session.Serve
import Forth.Stack
import Forth.Text.Blank
import Forth.Text.CodeRanges
import Forth.Text.Lines
import Forth.Text.LowerCase
import Forth.Text.LowerCase.Table
import Forth.Text.Quoted
import Forth.Text.Quoted.Table
import Forth.Token
import Forth.Proofs.DirectAndCompiled
import Forth.Proofs.Writing
import Forth.Proofs.BalancedBodies
import Forth.Proofs.Steps
import Forth.Proofs.Replies
import Forth.Proofs.HostCalls
import Forth.Proofs.LoopIndices
import Forth.Proofs.ReturnStack
import Forth.Proofs.Onward
import Forth.Proofs.HostCode
import Forth.Proofs.DictionaryGrowth
import Forth.Proofs.EarlyBinding
import Forth.Proofs.ReturnDepth
import Forth.Proofs.Gathering
import Forth.Proofs.Guarded
import Forth.Proofs.GuardedImage
import Forth.Proofs.RunTimeErrors
import Forth.Proofs.StackFrame
import Forth.Proofs.Invocation
import Forth.Proofs.Termination
import Forth.Proofs.ClosedText
import Forth.Proofs.LineBreaks
import Forth.Proofs.LetterCase
import Forth.Proofs.Respelled
import Forth.Proofs.RespelledRuns
import Forth.Proofs.CaseInsensitive
import Forth.Proofs.Layout
import Forth.Proofs.HostInvariants
import Forth.Proofs.Variables
import Forth.Proofs.Turns
import Forth.Proofs.FlooredDivision
import Forth.Proofs.NumeralGrammar
import Forth.Proofs.CountedLoops
import Forth.Proofs.LoopRanges
import Forth.Proofs.MemoryHistory
import Forth.Proofs.PrintedCells
import Forth.Proofs.StackEffects
import Forth.Proofs.Prelude
import Forth.Proofs.Serving
import Forth.Proofs.ServedLines
import Forth.Proofs.LoadedSources
import Forth.Proofs.Spaces
import Forth.Proofs.Scanning
