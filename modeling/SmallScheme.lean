import SmallScheme.Console.Completion
import SmallScheme.Console.Highlight
import SmallScheme.Console.Session
import SmallScheme.Console.Settings
import SmallScheme.Main
import SmallScheme.Proofs.RoundTrip
import SmallScheme.Proofs.Separation
import SmallScheme.Proofs.Primitive.Effect
import SmallScheme.Proofs.Isolation
import SmallScheme.Proofs.Session
import SmallScheme.Report
import SmallScheme.Store.Equality
import SmallScheme.Proofs.Machine.Frames
import SmallScheme.Proofs.Console.Brackets
import SmallScheme.Proofs.Reader.Dots
import SmallScheme.Proofs.Reader.Spans
import SmallScheme.Proofs.Report
import SmallScheme.Proofs.Renaming
import SmallScheme.Proofs.Store.Depth
import SmallScheme.Proofs.World
import SmallScheme.Proofs.World.Read
import SmallScheme.Proofs.World.Primitive
import SmallScheme.Proofs.World.Evaluate
import SmallScheme.Proofs.Sharing
import SmallScheme.Proofs.Confinement
import SmallScheme.Proofs.Reader.Lexis
import SmallScheme.Proofs.Reader.Lookahead
import SmallScheme.Proofs.Acyclic
import SmallScheme.Proofs.Hiding
import SmallScheme.Proofs.Hiding.Evaluate
import SmallScheme.Proofs.Hiding.World
import SmallScheme.Proofs.World.Growth
import SmallScheme.Proofs.Naming.Calls
import SmallScheme.Proofs.Naming
import SmallScheme.Proofs.Reader.Prefix
import SmallScheme.Proofs.Reader.Readings
import SmallScheme.Proofs.Store.History
import SmallScheme.Proofs.Console.Hosts
import SmallScheme.Proofs.Reader.Lines
import SmallScheme.Proofs.Reader.Slices
import SmallScheme.Proofs.Store.Pursuit
import SmallScheme.Proofs.Store.Equality
import SmallScheme.Proofs.Store.Printing
import SmallScheme.Proofs.Primitive.Expression
import SmallScheme.Proofs.Primitive.Comparison
import SmallScheme.Proofs.Primitive.Mutation
import SmallScheme.Proofs.Binding
import SmallScheme.Proofs.Malformed
import SmallScheme.Proofs.Assignment
import SmallScheme.Proofs.Console.Nesting
import SmallScheme.Proofs.Console.Colours
import SmallScheme.Proofs.Machine.Levels
import SmallScheme.Proofs.Store.Forms
import SmallScheme.Proofs.World.Alike
import SmallScheme.Proofs.Junction
import SmallScheme.Proofs.Console.Completions
import SmallScheme.Proofs.Console.Swallowing
import SmallScheme.Proofs.Reader.Fold
import SmallScheme.Proofs.Reader.Advances
import SmallScheme.Proofs.Reader.Numeral
