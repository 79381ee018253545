import Decompiler.Arena
import Decompiler.Batch
import Decompiler.DebugTable.Attribute
import Decompiler.DebugTable.Basic
import Decompiler.Decimal.Shortest
import Decompiler.Expr
import Decompiler.Graph.Basic
import Decompiler.Graph.Conditions
import Decompiler.Graph.Edges
import Decompiler.Graph.Exprs
import Decompiler.Graph.Text
import Decompiler.Graph.Tree
import Decompiler.Leaders
import Decompiler.Local
import Decompiler.Loops.FallThrough
import Decompiler.Loops.For
import Decompiler.Loops.ForEach
import Decompiler.Loops.Leaves
import Decompiler.Loops.Recognition
import Decompiler.Loops.While
import Decompiler.Method
import Decompiler.Monitors
import Decompiler.NamePool
import Decompiler.Offsets
import Decompiler.Options
import Decompiler.Parameters
import Decompiler.Passes
import Decompiler.Registry
import Decompiler.Stat
import Decompiler.Table
import Decompiler.Text.Extending
import Decompiler.Text.Number
import Decompiler.Text.Quoted
import Decompiler.Text.Unprintable
import Decompiler.Ty.Basic
import Decompiler.Ty.Descriptor
import Decompiler.Ty.Order
import Decompiler.Variables.DebugEntries
import Decompiler.Variables.Declare
import Decompiler.Variables.Merge
import Decompiler.Variables.Plan
import Decompiler.Variables.Scopes
import Decompiler.Variables.Unify
import Decompiler.Variables.Uses
import Decompiler.Proofs.Checked
import Decompiler.Proofs.Offsets
import Decompiler.Proofs.Graph.Frame
import Decompiler.Proofs.Graph.Forest
import Decompiler.Proofs.Graph.Surgery
import Decompiler.Proofs.Graph.ExprTrees
import Decompiler.Proofs.Graph.Erased
import Decompiler.Proofs.Loops.Matching
import Decompiler.Proofs.Loops.Slots
import Decompiler.Proofs.Loops.Pruning
import Decompiler.Proofs.Graph.WellFormed
import Decompiler.Proofs.Graph.Trees
import Decompiler.Proofs.Loops.Phases
import Decompiler.Proofs.Loops.Visits
import Decompiler.Proofs.Loops.Fixpoint
import Decompiler.Proofs.Monitors
import Decompiler.Proofs.Loops.Conservation
import Decompiler.Proofs.Loops.Permutation
import Decompiler.Proofs.Leaders
import Decompiler.Proofs.Variables.Orderly
import Decompiler.Proofs.Variables.Reading
import Decompiler.Proofs.Variables.Declared
import Decompiler.Proofs.Variables.Declaring
import Decompiler.Proofs.Variables.Unifying
import Decompiler.Proofs.Variables.Searching
import Decompiler.Proofs.Variables.Settling
import Decompiler.Proofs.Graph.EdgeLists
import Decompiler.Proofs.Graph.Sides
import Decompiler.Proofs.Loops.EdgeLists
import Decompiler.Proofs.Variables.Candidates
import Decompiler.Proofs.Variables.Copies
import Decompiler.Proofs.Variables.Definitions
import Decompiler.Proofs.Loops.Trees
import Decompiler.Proofs.Loops.Removals
import Decompiler.Proofs.Loops.Parts
import Decompiler.Proofs.Loops.Dangling
import Decompiler.Proofs.Loops.ArrayLoops
import Decompiler.Proofs.Loops.CollectionLoops
import Decompiler.Proofs.Variables.Elimination
import Decompiler.Proofs.Graph.Intact
import Decompiler.Proofs.Graph.Totality
import Decompiler.Proofs.Loops.Lookups
import Decompiler.Proofs.Loops.Totality
import Decompiler.Proofs.Loops.Progress
import Decompiler.Proofs.Loops.References
import Decompiler.Proofs.Loops.Orphans
import Decompiler.Proofs.Loops.Polarity
import Decompiler.Proofs.Variables.Rounds
import Decompiler.Proofs.Variables.Offsets
import Decompiler.Proofs.Types
import Decompiler.Proofs.Variables.Refusals
import Decompiler.Proofs.Variables.Finality
import Decompiler.Proofs.Graph.Labels
import Decompiler.Proofs.Loops.Lowering
import Decompiler.Proofs.Loops.Steps
import Decompiler.Proofs.Variables.Changes
import Decompiler.Proofs.Variables.Effects
import Decompiler.Proofs.Variables.Homes
import Decompiler.Proofs.Variables.Printing
import Decompiler.Proofs.Variables.Firsts
import Decompiler.Proofs.Variables.Entries
import Decompiler.Proofs.DebugTable.Format
import Decompiler.Proofs.DebugTable.Lookups
import Decompiler.Proofs.DebugTable.Signatures
import Decompiler.Proofs.TypeOrder
import Decompiler.Proofs.FlatLeaders
import Decompiler.Proofs.NamePool
import Decompiler.Proofs.Variables.Names
import Decompiler.Proofs.FieldDescriptors
import Decompiler.Proofs.Variables.DebugNames
import Decompiler.Proofs.Graph.StackWalks
