import AndInverter.Aig.Capacity
import AndInverter.Aig.Counters
import AndInverter.Aig.Creation
import AndInverter.Aig.History
import AndInverter.Aig.Isomorphism
import AndInverter.Aig.Trimming
import AndInverter.Aiger.Capacity
import AndInverter.Aiger.Cursor
import AndInverter.Aiger.File
import AndInverter.Aiger.Grammar
import AndInverter.DepthView.Calls
import AndInverter.DepthView.LongestPath
import AndInverter.DepthView.Marking
import AndInverter.Dot
import AndInverter.Dot.Picture
import AndInverter.Network.Disjunctions
import AndInverter.Network.Table
import AndInverter.Rewriting
import AndInverter.Simulation
import AndInverter.Simulation.Hexadecimal
import AndInverter.Traversal.Calls
import AndInverter.Traversal.Stack
import AndInverter.Proofs.Aig.Edits
import AndInverter.Proofs.Aig.Changes
import AndInverter.Proofs.Substitution.Worklist
import AndInverter.Proofs.Aig.Bookkeeping
import AndInverter.Proofs.Aig.Ports
import AndInverter.Proofs.Aig.Histories
import AndInverter.Proofs.Substitution.Soundness
import AndInverter.Proofs.Traversal.Topological
import AndInverter.Proofs.Aig.Hashing
import AndInverter.Proofs.Substitution.Completion
import AndInverter.Proofs.Substitution.Operands
import AndInverter.Proofs.Substitution.Folding
import AndInverter.Proofs.Aig.Evaluation
import AndInverter.Proofs.Rewriting.Extension
import AndInverter.Proofs.Simulation.Lanes
import AndInverter.Proofs.Rewriting.Preservation
import AndInverter.Proofs.Substitution.Termination
import AndInverter.Proofs.DepthView.Levels
import AndInverter.Proofs.DepthView.Building
import AndInverter.Proofs.Rewriting.Heights
import AndInverter.Proofs.Rewriting.Search
import AndInverter.Proofs.Substitution.Levels
import AndInverter.Proofs.Rewriting.Depth
import AndInverter.Proofs.Rewriting.Weights
import AndInverter.Proofs.Rewriting.Termination
import AndInverter.Proofs.Aig.Checking
import AndInverter.Proofs.Aiger.Delta
import AndInverter.Proofs.Aiger.Parsing
import AndInverter.Proofs.Aig.Intact
import AndInverter.Proofs.Aiger.Building
import AndInverter.Proofs.Aiger.Ordering
import AndInverter.Proofs.Aiger.Acceptance
import AndInverter.Proofs.Aiger.Denotation
import AndInverter.Aiger.Encoding
import AndInverter.Proofs.Aiger.Encoding
import AndInverter.Proofs.Aiger.Formats
import AndInverter.Proofs.Aig.Isomorphism
import AndInverter.Proofs.Aiger.Numbering
import AndInverter.Proofs.Aiger.Rebuilding
import AndInverter.Proofs.Aiger.RoundTrip
import AndInverter.Proofs.Aig.Handles
import AndInverter.Proofs.Rewriting.Fixpoints
import AndInverter.Proofs.Rewriting.Limits
import AndInverter.Proofs.Simulation.TruthTables
import AndInverter.Proofs.Simulation.Exhaustion
import AndInverter.Proofs.Aiger.Groups
import AndInverter.Proofs.Traversal.Stack
import AndInverter.Proofs.Rewriting.Gains
import AndInverter.Proofs.Rewriting.Independence
import AndInverter.Proofs.DepthView.Refreshing
import AndInverter.Proofs.DepthView.CriticalPaths
import AndInverter.Proofs.DepthView.Growth
import AndInverter.Proofs.Aig.Cleanup
import AndInverter.Proofs.Rewriting.Garbage
import AndInverter.Proofs.Aig.Verdicts
import AndInverter.Proofs.Aig.Capacity
import AndInverter.Proofs.DepthView.Capacity
import AndInverter.Proofs.Aiger.Capacity
import AndInverter.Proofs.Aiger.Safety
import AndInverter.Proofs.Traversal.DepthFirst
import AndInverter.Proofs.Traversal.Blocks
import AndInverter.Proofs.Traversal.Exploration
import AndInverter.Proofs.Traversal.Preorder
import AndInverter.Proofs.Aig.Creation
import AndInverter.Proofs.Simulation.Patterns
import AndInverter.Proofs.Aiger.Cursor
import AndInverter.Proofs.Simulation.Hexadecimal
import AndInverter.Proofs.Dot.Pictures
