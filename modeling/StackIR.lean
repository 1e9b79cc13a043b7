import StackIR.Dialect.Stack
import StackIR.Encoding.Stmt
import StackIR.Pass.Sequence
import StackIR.Pen
import StackIR.Printer
import StackIR.Proofs.Acceptance
import StackIR.Proofs.Collapse
import StackIR.Proofs.Erasure
import StackIR.Proofs.Escaping
import StackIR.Proofs.Faults
import StackIR.Proofs.Flat
import StackIR.Proofs.Frame
import StackIR.Proofs.Handing
import StackIR.Proofs.Hygiene
import StackIR.Proofs.Indentation
import StackIR.Proofs.Independence
import StackIR.Proofs.Inlining
import StackIR.Proofs.LeastFree
import StackIR.Proofs.Lexical
import StackIR.Proofs.Lifetime
import StackIR.Proofs.Locality
import StackIR.Proofs.Loosening
import StackIR.Proofs.NameFields
import StackIR.Proofs.Phrases
import StackIR.Proofs.Places
import StackIR.Proofs.Preservation
import StackIR.Proofs.Readability
import StackIR.Proofs.Renaming
import StackIR.Proofs.Scoping
import StackIR.Proofs.SpanComments
import StackIR.Proofs.Splicing
import StackIR.Proofs.Steps
import StackIR.Proofs.VerbatimNames
import StackIR.Proofs.Verification
import StackIR.Splice
