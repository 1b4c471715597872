import ArrayLang.Assembly
import ArrayLang.Code.Colour
import ArrayLang.Code.Instr
import ArrayLang.Code.Listing
import ArrayLang.Code.Module
import ArrayLang.Code.Pattern
import ArrayLang.Code.Validity
import ArrayLang.Command.Flags
import ArrayLang.Command.Log
import ArrayLang.Command.Run
import ArrayLang.Document.Comment
import ArrayLang.Document.Cursor
import ArrayLang.Document.Node
import ArrayLang.Document.Queue
import ArrayLang.Document.Record
import ArrayLang.Document.Resolve
import ArrayLang.Document.Scalar
import ArrayLang.Document.Scan
import ArrayLang.Document.Tag
import ArrayLang.Document.Token
import ArrayLang.Document.Value
import ArrayLang.Emit.Array
import ArrayLang.Emit.Basic
import ArrayLang.Emit.Error
import ArrayLang.Emit.Expr
import ArrayLang.Emit.Stmt
import ArrayLang.Host.Console
import ArrayLang.Host.Input
import ArrayLang.Host.Interface
import ArrayLang.Layout
import ArrayLang.Machine.Exec
import ArrayLang.Machine.Memory
import ArrayLang.Machine.Run
import ArrayLang.Machine.State
import ArrayLang.Main
import ArrayLang.NormalForm.Basic
import ArrayLang.Proofs.Assembly.IndexErrors
import ArrayLang.Proofs.Assembly.Safety
import ArrayLang.Proofs.Assembly.Stages
import ArrayLang.Proofs.Assembly.Success
import ArrayLang.Proofs.Assembly.Tiers
import ArrayLang.Proofs.Code.Branches
import ArrayLang.Proofs.Code.Colour
import ArrayLang.Proofs.Code.Listing
import ArrayLang.Proofs.Code.Regions
import ArrayLang.Proofs.Code.Typed
import ArrayLang.Proofs.Emit.Arrays
import ArrayLang.Proofs.Emit.Checks
import ArrayLang.Proofs.Emit.Correct
import ArrayLang.Proofs.Emit.Emitted
import ArrayLang.Proofs.Emit.Exprs
import ArrayLang.Proofs.Emit.Follows
import ArrayLang.Proofs.Emit.Headers
import ArrayLang.Proofs.Emit.Initialisers
import ArrayLang.Proofs.Emit.Labels
import ArrayLang.Proofs.Emit.Stmts
import ArrayLang.Proofs.Emit.Tiers
import ArrayLang.Proofs.Emit.Typed
import ArrayLang.Proofs.Heap.Assembled
import ArrayLang.Proofs.Heap.Extents
import ArrayLang.Proofs.Heap.Fresh
import ArrayLang.Proofs.Heap.Frontier
import ArrayLang.Proofs.Heap.Making
import ArrayLang.Proofs.Heap.Programs
import ArrayLang.Proofs.Heap.Room
import ArrayLang.Proofs.Heap.Sound
import ArrayLang.Proofs.Heap.Traps
import ArrayLang.Proofs.Heap.Typed
import ArrayLang.Proofs.Host.Input
import ArrayLang.Proofs.Host.Linked
import ArrayLang.Proofs.Machine.Cancellation
import ArrayLang.Proofs.Machine.Frame
import ArrayLang.Proofs.Machine.Observe
import ArrayLang.Proofs.Machine.Reaches
import ArrayLang.Proofs.Machine.Safety
import ArrayLang.Proofs.Machine.Stores
import ArrayLang.Proofs.Machine.Valid
import ArrayLang.Proofs.Machine.Words
import ArrayLang.Proofs.NormalForm.Correct
import ArrayLang.Proofs.NormalForm.Covered
import ArrayLang.Proofs.NormalForm.Definite
import ArrayLang.Proofs.NormalForm.Meaning
import ArrayLang.Proofs.NormalForm.Meets
import ArrayLang.Proofs.NormalForm.Output
import ArrayLang.Proofs.NormalForm.Places
import ArrayLang.Proofs.NormalForm.Preserved
import ArrayLang.Proofs.NormalForm.Shape
import ArrayLang.Proofs.NormalForm.Stable
import ArrayLang.Proofs.NormalForm.Temporaries
import ArrayLang.Proofs.NormalForm.Unmade
import ArrayLang.Proofs.Reference.Alike
import ArrayLang.Proofs.Reference.Eval
import ArrayLang.Proofs.Reference.Fuel
import ArrayLang.Proofs.Reference.Leads
import ArrayLang.Proofs.Reference.Passes
import ArrayLang.Proofs.Reference.Steps
import ArrayLang.Proofs.Reference.Tracks
import ArrayLang.Proofs.Reference.World
import ArrayLang.Proofs.Source.Forms
import ArrayLang.Proofs.Source.RoundTrip
import ArrayLang.Proofs.Source.Surplus
import ArrayLang.Proofs.Source.Syntax
import ArrayLang.Proofs.Termination.Assembled
import ArrayLang.Proofs.Termination.Iterations
import ArrayLang.Proofs.Text.Bytes
import ArrayLang.Proofs.Text.Decimal
import ArrayLang.Proofs.Typing.Checked
import ArrayLang.Proofs.Typing.Decided
import ArrayLang.Proofs.Typing.Derivation
import ArrayLang.Proofs.Typing.Rules
import ArrayLang.Proofs.Typing.Tiers
import ArrayLang.Settings
import ArrayLang.Source.Named
import ArrayLang.Source.Operator
import ArrayLang.Source.Program
import ArrayLang.Source.Reading
import ArrayLang.Source.Type
import ArrayLang.Text.Base64
import ArrayLang.Text.Blank
import ArrayLang.Text.Integer
import ArrayLang.Text.Printable
import ArrayLang.Text.Quoted
import ArrayLang.Text.Real
import ArrayLang.Text.Timestamp
import ArrayLang.Text.Utf8
import ArrayLang.Text.Version
import ArrayLang.Typing.Check
import ArrayLang.Typing.Error
