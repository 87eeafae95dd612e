import GraphQL.Execution.Executor
import GraphQL.Execution.Trace
import GraphQL.Leaf.Rules
import GraphQL.Resolver.Plan
import GraphQL.Response.Encoding
import GraphQL.Schema.Builtin
import GraphQL.Schema.Reading
import GraphQL.Schema.Rules
import GraphQL.Proofs.Runs
import GraphQL.Proofs.Collapse
import GraphQL.Proofs.Commuting
import GraphQL.Proofs.Gathered
import GraphQL.Proofs.Ownership
import GraphQL.Proofs.Delays
import GraphQL.Proofs.Results
import GraphQL.Proofs.Promises
import GraphQL.Proofs.Simulation
import GraphQL.Proofs.Acyclic
import GraphQL.Proofs.Halting
import GraphQL.Proofs.Refinement
import GraphQL.Proofs.Discipline
import GraphQL.Proofs.Chronicle
import GraphQL.Proofs.Issues
import GraphQL.Proofs.Nulls
import GraphQL.Proofs.Plain
import GraphQL.Proofs.Accounting
import GraphQL.Proofs.Scheduling
import GraphQL.Proofs.Timing
import GraphQL.Proofs.Echoes
import GraphQL.Proofs.Inlining
import GraphQL.Proofs.Expansion
import GraphQL.Proofs.Pruning
import GraphQL.Proofs.Conformance
import GraphQL.Proofs.Soundness
import GraphQL.Proofs.Occurrence
import GraphQL.Proofs.PathOrder
import GraphQL.Proofs.Lockstep
import GraphQL.Proofs.Compilation
import GraphQL.Proofs.Veils
import GraphQL.Proofs.Delivery
import GraphQL.Proofs.Authorization
import GraphQL.Proofs.Serial
import GraphQL.Proofs.Permits
import GraphQL.Proofs.Concealment
import GraphQL.Proofs.Defaults
import GraphQL.Proofs.Termination
import GraphQL.Proofs.Visibility
import GraphQL.Proofs.Correspondence
import GraphQL.Proofs.Literals
import GraphQL.Proofs.Substitution
import GraphQL.Proofs.References
import GraphQL.Proofs.Binding
import GraphQL.Proofs.Flattening
import GraphQL.Proofs.Calling
import GraphQL.Proofs.Merging
import GraphQL.Proofs.Descriptions
import GraphQL.Proofs.Validity
import GraphQL.Proofs.Exploration
import GraphQL.Proofs.Permanence
import GraphQL.Proofs.Joining
import GraphQL.Proofs.Gaps
import GraphQL.Proofs.Agreement
import GraphQL.Proofs.Possibilities
import GraphQL.Proofs.Outputs
import GraphQL.Proofs.Restatement
import GraphQL.Proofs.RoundTrip
import GraphQL.Proofs.Arrival
