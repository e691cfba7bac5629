import SmallLisp.Editor.Workspace
import SmallLisp.Main
import SmallLisp.Proofs.Arising
import SmallLisp.Proofs.Command.Program
import SmallLisp.Proofs.Containment
import SmallLisp.Proofs.Editor.Callees
import SmallLisp.Proofs.Editor.Hovering
import SmallLisp.Proofs.Editor.Reporting
import SmallLisp.Proofs.Equality
import SmallLisp.Proofs.Evaluation.Adequacy
import SmallLisp.Proofs.Evaluation.Commuting
import SmallLisp.Proofs.Evaluation.Later
import SmallLisp.Proofs.Evaluation.ParameterRenaming
import SmallLisp.Proofs.Evaluation.ReadFootprint
import SmallLisp.Proofs.Naming
import SmallLisp.Proofs.Prelude.Lists
import SmallLisp.Proofs.Primitive.Division
import SmallLisp.Proofs.Primitive.Order
import SmallLisp.Proofs.Reading.Acceptance
import SmallLisp.Proofs.Reading.Conservation
import SmallLisp.Proofs.Reading.Continuation
import SmallLisp.Proofs.Reading.RoundTrip
import SmallLisp.Proofs.Scoping
import SmallLisp.Proofs.Server.Framing
import SmallLisp.Proofs.Server.Interleaving
import SmallLisp.Proofs.Session.History
import SmallLisp.Proofs.Shell.Feeding
import SmallLisp.Proofs.Tracing
