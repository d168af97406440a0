import LetPoly.Context
import LetPoly.Expr.Document
import LetPoly.Expr.Printer
import LetPoly.Proofs.Collecting
import LetPoly.Proofs.Evolution
import LetPoly.Proofs.Unification
import LetPoly.Proofs.MostGeneral
import LetPoly.Proofs.Scope
import LetPoly.Proofs.Supply
import LetPoly.Proofs.Inference
import LetPoly.Proofs.Numbering
import LetPoly.Proofs.Query
import LetPoly.Proofs.WellFormed
import LetPoly.Proofs.Generalization
import LetPoly.Proofs.Soundness
import LetPoly.Proofs.Principality
import LetPoly.Proofs.Change
import LetPoly.Proofs.Operation
import LetPoly.Proofs.Session
import LetPoly.Proofs.Invariance
import LetPoly.Proofs.Fork
import LetPoly.Proofs.Binding
import LetPoly.Proofs.Balance
import LetPoly.Proofs.Pairing
import LetPoly.Proofs.Lockstep
import LetPoly.Proofs.Nesting
import LetPoly.Proofs.Independence
import LetPoly.Proofs.Frame
import LetPoly.Proofs.Levels
import LetPoly.Proofs.Occurrence
import LetPoly.Proofs.Twins
import LetPoly.Proofs.Equations
import LetPoly.Proofs.Failing
import LetPoly.Proofs.Symmetry
import LetPoly.Proofs.FirstFailure
import LetPoly.Proofs.Grammar
import LetPoly.Proofs.Decoding
import LetPoly.Proofs.Substitution
import LetPoly.Proofs.Merging
import LetPoly.Proofs.ClosedRuns
import LetPoly.Proofs.Expansion
import LetPoly.Proofs.Halting
import LetPoly.Proofs.Encoding
import LetPoly.Proofs.Aliasing
import LetPoly.Proofs.Reading
import LetPoly.Proofs.Naming
import LetPoly.Proofs.Printing
import LetPoly.Proofs.Replacement
import LetPoly.Proofs.Instantiation
import LetPoly.Proofs.Quantification
