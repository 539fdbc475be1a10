import MiniLisp.Session
import MiniLisp.Token.Stream
import MiniLisp.Value.Equality
import MiniLisp.Proofs.Script.Semantics
import MiniLisp.Proofs.Script.Name
import MiniLisp.Proofs.Script.Steady
import MiniLisp.Proofs.Script.Translation
import MiniLisp.Proofs.Store
import MiniLisp.Proofs.Syntax
import MiniLisp.Proofs.Evaluation
import MiniLisp.Proofs.Script.World
import MiniLisp.Proofs.Script.Entry
import MiniLisp.Proofs.Script.Simulation
import MiniLisp.Proofs.Script.Correctness
import MiniLisp.Proofs.Equality
import MiniLisp.Proofs.Grammar
import MiniLisp.Proofs.Number.Rounding
import MiniLisp.Proofs.Number.Text
import MiniLisp.Proofs.Lexer
import MiniLisp.Proofs.RoundTrip
import MiniLisp.Proofs.Capture
import MiniLisp.Proofs.Runs
import MiniLisp.Proofs.CallDepth
import MiniLisp.Proofs.Reachability
import MiniLisp.Proofs.Isolation
import MiniLisp.Proofs.Script.Reader
import MiniLisp.Proofs.Script.Lexemes
import MiniLisp.Proofs.Script.Unambiguity
import MiniLisp.Proofs.Script.WellFormed
import MiniLisp.Proofs.Script.Readability
import MiniLisp.Proofs.Visibility
import MiniLisp.Proofs.Integrity
import MiniLisp.Proofs.Bindings
import MiniLisp.Proofs.Faults
import MiniLisp.Proofs.Tiling
import MiniLisp.Proofs.Script.References
import MiniLisp.Proofs.Script.Parameters
import MiniLisp.Proofs.BadLexeme
import MiniLisp.Proofs.EarliestError
import MiniLisp.Proofs.PrintedData
import MiniLisp.Proofs.Number.Rendering
import MiniLisp.Proofs.Sameness
import MiniLisp.Proofs.Number.Count
import MiniLisp.Proofs.Sequences
import MiniLisp.Proofs.Number.Readers
import MiniLisp.Proofs.Functions
import MiniLisp.Proofs.FrameBound
import MiniLisp.Proofs.Streams
import MiniLisp.Proofs.Script.Wrapper
