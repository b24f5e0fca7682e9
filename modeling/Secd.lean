import Secd.Code.Expr
import Secd.Code.Fragment
import Secd.Code.Stmt
import Secd.Compile
import Secd.Error
import Secd.Instr
import Secd.Link
import Secd.Link.Expansion
import Secd.Link.Layout
import Secd.Link.Site
import Secd.Listing
import Secd.Listing.Binary
import Secd.Listing.Text
import Secd.Object
import Secd.Object.Constants
import Secd.Object.Generate
import Secd.Options
import Secd.Primitive
import Secd.Proofs.Acceptance
import Secd.Proofs.AddressResolution
import Secd.Proofs.Annotations
import Secd.Proofs.Arena
import Secd.Proofs.ArityCheck
import Secd.Proofs.ArmNames
import Secd.Proofs.Assembly
import Secd.Proofs.AssemblyText
import Secd.Proofs.BlockNames
import Secd.Proofs.CallingConvention
import Secd.Proofs.Code
import Secd.Proofs.Comments
import Secd.Proofs.Conditionals
import Secd.Proofs.ConstantCalls
import Secd.Proofs.Contexts
import Secd.Proofs.ControlFlow
import Secd.Proofs.Correctness
import Secd.Proofs.DeclarationOrder
import Secd.Proofs.Emission
import Secd.Proofs.Equivariance
import Secd.Proofs.Evaluation
import Secd.Proofs.Expansion
import Secd.Proofs.Fragments
import Secd.Proofs.Generation
import Secd.Proofs.Image
import Secd.Proofs.Inlining
import Secd.Proofs.Layout
import Secd.Proofs.Linking
import Secd.Proofs.Lockstep
import Secd.Proofs.Machine
import Secd.Proofs.Occurrences
import Secd.Proofs.Parameters
import Secd.Proofs.Passes
import Secd.Proofs.Renaming
import Secd.Proofs.Resolution
import Secd.Proofs.Results
import Secd.Proofs.RoundTrip
import Secd.Proofs.ShiftedLayout
import Secd.Proofs.Simulation
import Secd.Proofs.Source
import Secd.Proofs.StackCode
import Secd.Proofs.Substitution
import Secd.Proofs.SupportedLanguage
import Secd.Proofs.SurfaceForms
import Secd.Proofs.Traversal
import Secd.Proofs.UnrelatedDeclarations
import Secd.Proofs.UnusedFunctions
import Secd.Proofs.Variants
import Secd.Scope
import Secd.Syntax
import Secd.Wire
