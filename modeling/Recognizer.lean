import Recognizer.Compile
import Recognizer.Dfa.Document
import Recognizer.Dfa.Named
import Recognizer.Dfa.Run
import Recognizer.Drawing
import Recognizer.Expr.Language
import Recognizer.Expr.Node
import Recognizer.Nfa.Document
import Recognizer.Nfa.Reach
import Recognizer.Report
import Recognizer.State.Registers
import Recognizer.Proofs.Fragment.Build
import Recognizer.Proofs.Fragment.Shape
import Recognizer.Proofs.Fragment.Language
import Recognizer.Proofs.Nfa.History
import Recognizer.Proofs.Fragment.Compiled
import Recognizer.Proofs.Nfa.Chart
import Recognizer.Proofs.Nfa.Exploration
import Recognizer.Proofs.Dfa.Trace
import Recognizer.Proofs.Nfa.Simulation
import Recognizer.Proofs.Recognition
import Recognizer.Proofs.Nfa.Content
import Recognizer.Proofs.Fallible
import Recognizer.Proofs.Positions
import Recognizer.Proofs.Grouping
import Recognizer.Proofs.OrderedMap
import Recognizer.Proofs.Document.Names
import Recognizer.Proofs.Dfa.Edits
import Recognizer.Proofs.Dfa.Lockstep
import Recognizer.Proofs.Dfa.Renumbering
import Recognizer.Proofs.Nfa.Powerset
import Recognizer.Proofs.Dfa.Listing
import Recognizer.Proofs.Nfa.Listing
import Recognizer.Proofs.Obtained
import Recognizer.Proofs.Dfa.Table
import Recognizer.Proofs.Nfa.Turns
import Recognizer.Proofs.Nfa.Numbering
import Recognizer.Proofs.Nfa.FirstWords
import Recognizer.Proofs.Nfa.Determinized
import Recognizer.Proofs.Dfa.ToNfa
import Recognizer.Proofs.Readings
import Recognizer.Proofs.Nfa.Stability
import Recognizer.Proofs.Expr.Nodes
import Recognizer.Proofs.Fragment.Failure
import Recognizer.Proofs.Expr.Decoding
import Recognizer.Proofs.Gaps
import Recognizer.Proofs.Json.Scalars
import Recognizer.Proofs.Json.ReadBack
import Recognizer.Proofs.Document.Texts
import Recognizer.Proofs.Dfa.History
import Recognizer.Proofs.Document.WellFormed
import Recognizer.Proofs.Nfa.Reading
import Recognizer.Proofs.Dfa.Parts
import Recognizer.Proofs.Dfa.Reading
import Recognizer.Proofs.Dfa.Naming
import Recognizer.Proofs.Nfa.Closure
import Recognizer.Proofs.Dfa.Composition
import Recognizer.Proofs.Fragment.Supply
import Recognizer.Proofs.Json.Canonical
import Recognizer.Proofs.Expr.Routes
import Recognizer.Proofs.Nfa.Order
import Recognizer.Proofs.Fragment.Size
import Recognizer.Proofs.Fragment.Regrouping
import Recognizer.Proofs.Text.Endings
import Recognizer.Proofs.Drawing
import Recognizer.Proofs.State.Registers
