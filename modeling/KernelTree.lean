import KernelTree.Expr.Parse
import KernelTree.Statement.Print
import KernelTree.Loop.Tile
import KernelTree.Access.Flatten
import KernelTree.Proofs.Expr.Complete
import KernelTree.Proofs.Expr.Resolve
import KernelTree.Proofs.Loop.Trace
import KernelTree.Proofs.Expr.Brackets
import KernelTree.Proofs.Expr.Operands
import KernelTree.Proofs.Expr.Shape
import KernelTree.Proofs.Expr.Alternation
import KernelTree.Proofs.Expr.Infix
import KernelTree.Proofs.Expr.Enclosed
import KernelTree.Proofs.Expr.Fold
import KernelTree.Proofs.Expr.RoundTrip
import KernelTree.Proofs.Access.Index
import KernelTree.Proofs.Expr.Closed
import KernelTree.Proofs.Pass.Generated
import KernelTree.Proofs.Pass.BottomUp
import KernelTree.Proofs.Pass.Walk
import KernelTree.Proofs.Statement.Nest
import KernelTree.Proofs.Loop.Scopes
import KernelTree.Proofs.Access.Leftover
import KernelTree.Proofs.Loop.Counting
import KernelTree.Proofs.Loop.Retile
import KernelTree.Proofs.Loop.Canonical
import KernelTree.Proofs.Expr.CastGroup
import KernelTree.Proofs.Pass.Folding
import KernelTree.Proofs.Pass.Replace
import KernelTree.Proofs.Loop.Uses
import KernelTree.Proofs.Loop.Nesting
import KernelTree.Proofs.Value.Width
import KernelTree.Proofs.Access.Order
import KernelTree.Proofs.Expr.Tokens
import KernelTree.Proofs.SymbolTable.Lookup
import KernelTree.Proofs.Expr.Places
import KernelTree.Proofs.Token.Offsets
import KernelTree.Proofs.Expr.Arguments
import KernelTree.Proofs.Expr.Barriers
