import DecafLang.Span
import DecafLang.Ty
import DecafLang.Diagnostic
import DecafLang.Table
import DecafLang.Chain
import DecafLang.Precedence
import DecafLang.Syntax.Operator
import DecafLang.Syntax.Basic
import DecafLang.Syntax.Parts
import DecafLang.Syntax.Numbering
import DecafLang.Syntax.Handwritten
import DecafLang.Notes
import DecafLang.Scope.Basic
import DecafLang.Scope.Forest
import DecafLang.Scope.Visit
import DecafLang.Scope.Listing
import DecafLang.Hierarchy.Basic
import DecafLang.Hierarchy.Subtyping
import DecafLang.Layout
import DecafLang.Check.Declarations
import DecafLang.Check.Uses
import DecafLang.Check.Members
import DecafLang.Check.Types
import DecafLang.Code.Location
import DecafLang.Code.Instr
import DecafLang.Code.Builtin
import DecafLang.Code.Emit
import DecafLang.Code.Draft
import DecafLang.Lowering.Basic
import DecafLang.Lowering.Values
import DecafLang.Lowering.Expr
import DecafLang.Lowering.Stmt
import DecafLang.Lowering.Program
import DecafLang.Mips.Line
import DecafLang.Mips.Assembly
import DecafLang.Analysis
import DecafLang.Compilation
import DecafLang.Session
import DecafLang.Proofs.Machine
import DecafLang.Proofs.Frames
import DecafLang.Proofs.Values
import DecafLang.Proofs.Order
import DecafLang.Proofs.Numbers
import DecafLang.Proofs.Names
import DecafLang.Proofs.Chains
import DecafLang.Proofs.Flow
import DecafLang.Proofs.ScalarStatements
import DecafLang.Proofs.Pieces
import DecafLang.Proofs.Bodies
import DecafLang.Proofs.Checked
import DecafLang.Proofs.Faithful
import DecafLang.Proofs.Numbering
import DecafLang.Proofs.Written
import DecafLang.Proofs.Rules
import DecafLang.Proofs.Typing
import DecafLang.Proofs.Places
import DecafLang.Proofs.Acyclic
import DecafLang.Proofs.Inherited
import DecafLang.Proofs.Lineage
import DecafLang.Proofs.Lexical
import DecafLang.Proofs.Ancestry
import DecafLang.Proofs.Registry
import DecafLang.Proofs.Accounts
import DecafLang.Proofs.Labels
import DecafLang.Proofs.Spelling
import DecafLang.Proofs.Processor
import DecafLang.Proofs.Overriding
import DecafLang.Proofs.Layouts
import DecafLang.Proofs.Dispatch
import DecafLang.Proofs.Alike
import DecafLang.Proofs.Reordering
import DecafLang.Proofs.Sound
import DecafLang.Proofs.CheckedExpressions
import DecafLang.Proofs.Progress
import DecafLang.Proofs.Sites
import DecafLang.Proofs.Calls
import DecafLang.Proofs.Forests
import DecafLang.Proofs.Coded
import DecafLang.Proofs.RequiredValues
import DecafLang.Proofs.MissingValues
import DecafLang.Proofs.FrameAllocation
import DecafLang.Proofs.Ways
import DecafLang.Proofs.DefiniteAssignment
import DecafLang.Proofs.StatementAllocation
import DecafLang.Proofs.Chunks
import DecafLang.Proofs.Storage
import DecafLang.Proofs.Fields
import DecafLang.Proofs.References
import DecafLang.Proofs.Sweeps
import DecafLang.Proofs.Cycles
import DecafLang.Proofs.Census
import DecafLang.Proofs.Placement
import DecafLang.Proofs.Nesting
import DecafLang.Proofs.Reentry
import DecafLang.Proofs.Ownership
import DecafLang.Proofs.Repetition
import DecafLang.Proofs.Heirs
import DecafLang.Proofs.Arrays
import DecafLang.Proofs.Targets
import DecafLang.Proofs.Subtyping
import DecafLang.Proofs.Temporaries
import DecafLang.Proofs.Jumps
import DecafLang.Proofs.Doubles
import DecafLang.Proofs.TypeReports
import DecafLang.Proofs.Silence
import DecafLang.Proofs.Visits
import DecafLang.Proofs.Mismatches
import DecafLang.Proofs.Access
import DecafLang.Proofs.Interfaces
import DecafLang.Proofs.Climbs
import DecafLang.Proofs.Built
