import Lisplet.Main
import Lisplet.Proofs.RoundTrip
import Lisplet.Proofs.Simulation.Survival
import Lisplet.Proofs.Simulation.Agreement
import Lisplet.Proofs.Simulation.Construction
import Lisplet.Proofs.Heap.Spine
import Lisplet.Proofs.Simulation.Appearance
import Lisplet.Proofs.Simulation.Binding
import Lisplet.Proofs.Simulation.Calling
import Lisplet.Proofs.Simulation.Evaluation
import Lisplet.Proofs.Simulation.Reading
import Lisplet.Proofs.Simulation.Graph
import Lisplet.Proofs.Transparency
import Lisplet.Proofs.Machine.Refinement
import Lisplet.Proofs.Machine.Workshop
import Lisplet.Proofs.Reading.Grammar
import Lisplet.Proofs.Termination
import Lisplet.Proofs.Limit
import Lisplet.Proofs.Errors
import Lisplet.Proofs.Command.Stuck
import Lisplet.Proofs.Command.Delivery
import Lisplet.Proofs.Nesting
import Lisplet.Proofs.Bindings
import Lisplet.Proofs.Machine.WellFormed
import Lisplet.Proofs.Machine.Failure
import Lisplet.Proofs.Machine.Refusal
import Lisplet.Proofs.Composition
import Lisplet.Proofs.Interleaving
import Lisplet.Proofs.Symbols
import Lisplet.Proofs.Machine.Confinement
import Lisplet.Proofs.Machine.Stack
import Lisplet.Proofs.Command.Watching
import Lisplet.Proofs.Reading.Advancing
import Lisplet.Proofs.Improper
import Lisplet.Proofs.Shorthand
import Lisplet.Proofs.Heap.Equality
import Lisplet.Proofs.Heap.Listing
import Lisplet.Proofs.Search
import Lisplet.Proofs.Heap.Footprint
import Lisplet.Proofs.Atomicity
import Lisplet.Proofs.Filling
import Lisplet.Proofs.Extension
import Lisplet.Proofs.Arithmetic
import Lisplet.Proofs.Machine.Syntax
import Lisplet.Proofs.Reading.Blame
import Lisplet.Proofs.Heap.Keys
import Lisplet.Proofs.Report
