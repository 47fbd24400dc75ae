import ContextFree.Text.Literal
import ContextFree.Symbol
import ContextFree.NameSet
import ContextFree.Registry
import ContextFree.Production.Basic
import ContextFree.Production.Explicit
import ContextFree.Fault
import ContextFree.Production.Display
import ContextFree.Production.Builder
import ContextFree.Symbol.Order
import ContextFree.Grammar
import ContextFree.Naming.Pool
import ContextFree.Naming.Allocator
import ContextFree.Naming.Event
import ContextFree.Naming.Run
import ContextFree.Conversion.Result
import ContextFree.Conversion.Plain
import ContextFree.Conversion.Measure
import ContextFree.Normalization
import ContextFree.Session
import ContextFree.Recognizer.Grammar
import ContextFree.Recognizer.Table
import ContextFree.Recognizer.Recognition
import ContextFree.Recognizer.Workbench
import ContextFree.Production.Nodes
import ContextFree.Production.Meaning
import ContextFree.Grammar.Language
import ContextFree.Conversion.Group
import ContextFree.Recognizer.Derivation
import ContextFree.Proofs.Conversion.Groups
import ContextFree.Proofs.Naming.Supply
import ContextFree.Proofs.Conversion.Helpers
import ContextFree.Proofs.Conversion.Visit
import ContextFree.Proofs.Conversion.Walk
import ContextFree.Proofs.Normalization.Pass
import ContextFree.Proofs.Normalization.NormalForm
import ContextFree.Proofs.Normalization.Language
import ContextFree.Proofs.Loops
import ContextFree.Proofs.Normalization.Success
import ContextFree.Proofs.Recognizer.Index
import ContextFree.Proofs.Recognizer.Cells
import ContextFree.Proofs.Conversion.Stops
import ContextFree.Proofs.Normalization.Checks
import ContextFree.Proofs.Session.Freshness
import ContextFree.Grammar.Decoding
import ContextFree.Proofs.Normalization.Decoding
import ContextFree.Proofs.Conversion.Recursion
import ContextFree.Proofs.Normalization.Termination
import ContextFree.Proofs.Conversion.Meaning
import ContextFree.Proofs.Normalization.Spelling
import ContextFree.Proofs.Normalization.FixedPoint
import ContextFree.Grammar.References
import ContextFree.Proofs.Normalization.Variables
import ContextFree.Proofs.Recognizer.Workbench
import ContextFree.Proofs.Recognizer.Shape
import ContextFree.Proofs.Recognizer.Monotone
import ContextFree.Proofs.Recognizer.Construction
import ContextFree.Proofs.Conversion.Parts
import ContextFree.Proofs.Conversion.Reuse
import ContextFree.Proofs.Conversion.Threading
import ContextFree.Proofs.Session.Exhaustion
import ContextFree.Proofs.Tracing.Blindness
import ContextFree.Proofs.Tracing.Chronicle
import ContextFree.Proofs.Recognizer.Positions
import ContextFree.Proofs.Recognizer.Layout
import ContextFree.Production.Calls
import ContextFree.Proofs.Production.Grouping
import ContextFree.Proofs.Production.Flatness
import ContextFree.Proofs.Production.Walks
import ContextFree.Proofs.Conversion.Absorbing
