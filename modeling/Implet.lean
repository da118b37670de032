import Implet.Main
import Implet.Scope.Step
import Implet.Proofs.TypeSafety
import Implet.Proofs.Redeclaration
import Implet.Proofs.LexicalScoping
import Implet.Proofs.Principal
import Implet.Proofs.ScopeAgreement
import Implet.Proofs.Frames
import Implet.Proofs.NoTrace
import Implet.Proofs.Isolation
import Implet.Proofs.Precision
import Implet.Proofs.Batch
import Implet.Proofs.Parsing
import Implet.Proofs.RoundTrip
import Implet.Proofs.ErrorPosition
import Implet.Proofs.Nesting
import Implet.Proofs.CheckLikeness
import Implet.Proofs.RunLikeness
import Implet.Proofs.Fitting
import Implet.Proofs.ReadLikeness
import Implet.Proofs.Layout
import Implet.Proofs.LineEnds
import Implet.Proofs.Gathering
import Implet.Proofs.Operations
import Implet.Proofs.Resolving
import Implet.Proofs.Conflicts
import Implet.Proofs.Expecting
import Implet.Proofs.Expectations
import Implet.Proofs.Spacing
import Implet.Proofs.ErrorExpectation
import Implet.Proofs.OrderedChoice
import Implet.Proofs.Termination
import Implet.Proofs.Assigned
import Implet.Proofs.Unrolling
import Implet.Proofs.ShadowStacks
import Implet.Proofs.Accounting
import Implet.Proofs.Replacing
import Implet.Proofs.LiteralRange
import Implet.Proofs.Rechecking
import Implet.Proofs.Outlines
import Implet.Proofs.Arithmetic
import Implet.Proofs.Blanking
import Implet.Proofs.StaleFrames
import Implet.Proofs.Freshness
