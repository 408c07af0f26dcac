import DalvikDecompiler.Bytecode.Format
import DalvikDecompiler.Bytecode.ListingFormat
import DalvikDecompiler.Chains.DeadCode
import DalvikDecompiler.Chains.Declaration
import DalvikDecompiler.Chains.Propagation
import DalvikDecompiler.Chains.Typing
import DalvikDecompiler.Chains.Web
import DalvikDecompiler.Decompiled.Class
import DalvikDecompiler.Digraph.Interval
import DalvikDecompiler.Emission.Method
import DalvikDecompiler.FlowGraph.Cleanup
import DalvikDecompiler.FlowGraph.Drawing
import DalvikDecompiler.FlowGraph.Edit
import DalvikDecompiler.FlowGraph.OfMethod
import DalvikDecompiler.Java.Format
import DalvikDecompiler.Java.Naming
import DalvikDecompiler.Java.Source
import DalvikDecompiler.Json.Parser
import DalvikDecompiler.Proofs.Digraph.Dominance
import DalvikDecompiler.Report.Stages
import DalvikDecompiler.Proofs.FlowGraph.Trace
import DalvikDecompiler.Proofs.Chains.Reaching
import DalvikDecompiler.Proofs.Chains.Links
import DalvikDecompiler.Proofs.FlowGraph.Rewriting
import DalvikDecompiler.Proofs.Chains.Tracking
import DalvikDecompiler.Proofs.Chains.DeadCode
import DalvikDecompiler.Proofs.Symbolic.Substitution
import DalvikDecompiler.Proofs.FlowGraph.Undisturbed
import DalvikDecompiler.Proofs.Chains.Moves
import DalvikDecompiler.Proofs.Chains.Webs
import DalvikDecompiler.Proofs.Chains.Renaming
import DalvikDecompiler.Proofs.Chains.Splitting
import DalvikDecompiler.Proofs.Allocation
import DalvikDecompiler.Proofs.Symbolic.Lifting
import DalvikDecompiler.Proofs.FlowGraph.Numbering
import DalvikDecompiler.Proofs.FlowGraph.Construction
import DalvikDecompiler.Proofs.Decompiled.Maintenance
import DalvikDecompiler.Proofs.Chains.Handlers
import DalvikDecompiler.Proofs.Chains.Observations
import DalvikDecompiler.Proofs.Chains.Effects
import DalvikDecompiler.Proofs.Decompiled.Effects
import DalvikDecompiler.Proofs.Emission.Dispatch
import DalvikDecompiler.Proofs.Emission.Jumps
import DalvikDecompiler.Proofs.Emission.Layout
import DalvikDecompiler.Proofs.Emission.Surroundings
import DalvikDecompiler.Proofs.Emission.LoopMirroring
import DalvikDecompiler.Proofs.Emission.LayoutMirroring
import DalvikDecompiler.Proofs.Emission.Loops
import DalvikDecompiler.Proofs.Emission.FallThrough
import DalvikDecompiler.Proofs.Emission.Mirroring
import DalvikDecompiler.Proofs.Emission.Rendering
import DalvikDecompiler.Proofs.Emission.Course
import DalvikDecompiler.Proofs.Emission.Coupling
import DalvikDecompiler.Proofs.Emission.Positions
import DalvikDecompiler.Proofs.Emission.Branches
import DalvikDecompiler.Proofs.Emission.Faithful
import DalvikDecompiler.Proofs.Emission.Labels
import DalvikDecompiler.Proofs.Emission.WalkLayout
import DalvikDecompiler.Proofs.FlowGraph.Topological
import DalvikDecompiler.Proofs.FlowGraph.Trips
import DalvikDecompiler.Proofs.Java.Labels
import DalvikDecompiler.Proofs.Java.Outcomes
import DalvikDecompiler.Proofs.FlowGraph.Edges
import DalvikDecompiler.Proofs.FlowGraph.Wiring
import DalvikDecompiler.Proofs.FlowGraph.Cleanup
import DalvikDecompiler.Proofs.FlowGraph.Protection
import DalvikDecompiler.Proofs.FlowGraph.Paths
import DalvikDecompiler.Proofs.FlowGraph.CleanPaths
import DalvikDecompiler.Proofs.Symbolic.Results
import DalvikDecompiler.Proofs.FlowGraph.LiftingOrder
import DalvikDecompiler.Proofs.Emission.Declarations
import DalvikDecompiler.Proofs.Emission.Homes
import DalvikDecompiler.Proofs.Emission.Scoping
import DalvikDecompiler.Proofs.Emission.WalkScoping
import DalvikDecompiler.Proofs.Emission.Visits
import DalvikDecompiler.Proofs.Emission.WalkVisits
import DalvikDecompiler.Proofs.Digraph.NaturalLoops
import DalvikDecompiler.Proofs.FlowGraph.LoopBodies
import DalvikDecompiler.Proofs.Emission.BodyScoping
import DalvikDecompiler.Proofs.FlowGraph.Guided
import DalvikDecompiler.Proofs.FlowGraph.Merging
import DalvikDecompiler.Proofs.FlowGraph.Conditions
import DalvikDecompiler.Proofs.FlowGraph.Decisions
import DalvikDecompiler.Proofs.FlowGraph.Marking
import DalvikDecompiler.Proofs.FlowGraph.MergedDominance
import DalvikDecompiler.Proofs.FlowGraph.StructuredDominance
import DalvikDecompiler.Proofs.FlowGraph.Regions
import DalvikDecompiler.Proofs.FlowGraph.Ordinary
import DalvikDecompiler.Proofs.FlowGraph.ProtectedDominance
import DalvikDecompiler.Proofs.FlowGraph.Linking
import DalvikDecompiler.Proofs.Emission.Conditions
import DalvikDecompiler.Proofs.Decompiled.Dominance
import DalvikDecompiler.Proofs.FlowGraph.Editing
import DalvikDecompiler.Proofs.FlowGraph.BlockEdges
import DalvikDecompiler.Proofs.FlowGraph.Blocks
import DalvikDecompiler.Proofs.FlowGraph.Kinds
import DalvikDecompiler.Proofs.Bytecode.Layout
import DalvikDecompiler.Proofs.Bytecode.Assembly
import DalvikDecompiler.Proofs.Bytecode.Assembled
import DalvikDecompiler.Proofs.Text
import DalvikDecompiler.Proofs.Json.Parsing
import DalvikDecompiler.Proofs.Bytecode.Spellings
import DalvikDecompiler.Proofs.Bytecode.RoundTrip
import DalvikDecompiler.Proofs.Chains.Amending
import DalvikDecompiler.Proofs.FlowGraph.References
import DalvikDecompiler.Proofs.FlowGraph.StructuredReferences
import DalvikDecompiler.Proofs.Decompiled.References
import DalvikDecompiler.Proofs.FlowGraph.Places
import DalvikDecompiler.Proofs.FlowGraph.StructuredPlaces
import DalvikDecompiler.Proofs.Decompiled.Places
import DalvikDecompiler.Proofs.Decompiled.Termination
import DalvikDecompiler.Proofs.Chains.Parts
import DalvikDecompiler.Proofs.Java.RoundTrip
import DalvikDecompiler.Proofs.Chains.Propagated
import DalvikDecompiler.Proofs.Chains.Rounds
import DalvikDecompiler.Proofs.Digraph.DepthFirst
import DalvikDecompiler.Proofs.Digraph.SingleEntry
import DalvikDecompiler.Proofs.Java.Literals
import DalvikDecompiler.Proofs.Descriptor
import DalvikDecompiler.Proofs.Chains.Typing
import DalvikDecompiler.Proofs.Symbolic.Names
import DalvikDecompiler.Proofs.Decompiled.Names
import DalvikDecompiler.Proofs.Chains.Occupied
import DalvikDecompiler.Proofs.Chains.Declarations
import DalvikDecompiler.Proofs.Decompiled.Declarations
import DalvikDecompiler.Proofs.FlowGraph.SwitchTables
import DalvikDecompiler.Proofs.Java.Lines
import DalvikDecompiler.Proofs.Emission.Grouping
import DalvikDecompiler.Proofs.Symbolic.Words
import DalvikDecompiler.Proofs.FlowGraph.Words
import DalvikDecompiler.Proofs.Chains.Words
import DalvikDecompiler.Proofs.Emission.Words
import DalvikDecompiler.Proofs.Decompiled.ClassText
import DalvikDecompiler.Proofs.Symbolic.EvaluationOrder
import DalvikDecompiler.Proofs.Chains.Upkeep
import DalvikDecompiler.Proofs.Emission.Iterations
import DalvikDecompiler.Proofs.FlowGraph.Exhaustion
import DalvikDecompiler.Proofs.Java.Integers
import DalvikDecompiler.Proofs.Emission.Updates
