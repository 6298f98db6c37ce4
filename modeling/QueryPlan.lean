import QueryPlan.Builder
import QueryPlan.Cluster.Basic
import QueryPlan.Cluster.Edit
import QueryPlan.Cluster.Explain
import QueryPlan.Cluster.Graph
import QueryPlan.Cluster.Rebuild
import QueryPlan.Cluster.Walk
import QueryPlan.Collation
import QueryPlan.ColumnSet
import QueryPlan.Config.Basic
import QueryPlan.Config.Reader
import QueryPlan.DataType
import QueryPlan.Decimal.Rounding
import QueryPlan.Decimal.Shortest
import QueryPlan.Decimal.Spelling
import QueryPlan.Decimal.Text
import QueryPlan.Double
import QueryPlan.Error
import QueryPlan.Execution.Aggregate
import QueryPlan.Execution.Interpreter
import QueryPlan.Execution.Join
import QueryPlan.Execution.Operator
import QueryPlan.Execution.Run
import QueryPlan.Execution.SetOperation
import QueryPlan.Execution.Stream
import QueryPlan.Expr.Basic
import QueryPlan.Expr.Conjunction
import QueryPlan.Expr.Eval
import QueryPlan.Expr.Monotonicity
import QueryPlan.Expr.References
import QueryPlan.Interchange.Basic
import QueryPlan.Interchange.Expr
import QueryPlan.Interchange.Planner
import QueryPlan.Interchange.Relation
import QueryPlan.Json.Basic
import QueryPlan.Json.Number
import QueryPlan.Json.Printer
import QueryPlan.Json.Reader
import QueryPlan.Lattice.Basic
import QueryPlan.Lattice.Draft
import QueryPlan.Lattice.StarMatch
import QueryPlan.Metadata.Asking
import QueryPlan.Metadata.Collations
import QueryPlan.Metadata.Distinct
import QueryPlan.Metadata.Estimate
import QueryPlan.Metadata.Explain
import QueryPlan.Metadata.Lineage
import QueryPlan.Metadata.Methods
import QueryPlan.Metadata.Query
import QueryPlan.Metadata.RowCount
import QueryPlan.Metadata.Uniqueness
import QueryPlan.Operator.Aggregate
import QueryPlan.Operator.Attributes
import QueryPlan.Operator.Basic
import QueryPlan.Operator.Join
import QueryPlan.Operator.Kind
import QueryPlan.Operator.Schema
import QueryPlan.OrderedSet
import QueryPlan.Planner.Heuristic
import QueryPlan.Planner.Registry
import QueryPlan.RowType
import QueryPlan.Rule.Basic
import QueryPlan.Rule.Filter
import QueryPlan.Rule.Pattern
import QueryPlan.Rule.Projection
import QueryPlan.Table
import QueryPlan.Text.Blank
import QueryPlan.Text.Grid
import QueryPlan.Text.Width
import QueryPlan.Traits
import QueryPlan.Value
import QueryPlan.View.Materialization
import QueryPlan.View.Unify
import QueryPlan.View.Use
import QueryPlan.Proofs.Session.Extension
import QueryPlan.Proofs.Session.Growth
import QueryPlan.Proofs.Session.Walks
import QueryPlan.Proofs.Session.Congruence
import QueryPlan.Proofs.Session.Structure
import QueryPlan.Proofs.Session.Replacement
import QueryPlan.Proofs.Planner.Registration
import QueryPlan.Proofs.Planner.Iteration
import QueryPlan.Proofs.Planner.HashConsing
import QueryPlan.Proofs.Planner.Requests
import QueryPlan.Proofs.Expr.Typing
import QueryPlan.Proofs.Operator.Typing
import QueryPlan.Proofs.Session.Typing
import QueryPlan.Proofs.Rule.Typing
import QueryPlan.Proofs.Rule.Shapes
import QueryPlan.Proofs.Planner.Progress
import QueryPlan.Proofs.Planner.Weight
import QueryPlan.Proofs.Planner.Termination
import QueryPlan.Proofs.Execution.Streams
import QueryPlan.Proofs.Execution.NodeRuns
import QueryPlan.Proofs.Execution.Memory
import QueryPlan.Proofs.Execution.Delivery
import QueryPlan.Proofs.Execution.Stripping
import QueryPlan.Proofs.Expr.Conjunction
import QueryPlan.Proofs.Execution.Width
import QueryPlan.Proofs.Execution.JoinRows
import QueryPlan.Proofs.Execution.Meaning
import QueryPlan.Proofs.Rule.Equivalence
import QueryPlan.Proofs.Rule.Offers
import QueryPlan.Proofs.Execution.JoinLaws
import QueryPlan.Proofs.Rule.Adjacent
import QueryPlan.Proofs.Rule.Joined
import QueryPlan.Proofs.Rule.Pulled
import QueryPlan.Proofs.Rule.Merging
import QueryPlan.Proofs.Planner.Soundness
import QueryPlan.Proofs.Expr.Equality
import QueryPlan.Proofs.Expr.Strictness
import QueryPlan.Proofs.Execution.Proper
import QueryPlan.Proofs.Matching
import QueryPlan.Proofs.View.Normalization
import QueryPlan.Proofs.View.Unification
import QueryPlan.Proofs.View.Substitution
import QueryPlan.Proofs.View.RoundTrip
import QueryPlan.Proofs.Execution.Grouping
import QueryPlan.Proofs.Execution.Totals
import QueryPlan.Proofs.Execution.Regrouping
import QueryPlan.Proofs.Execution.Overflow
import QueryPlan.Proofs.Execution.Fusion
import QueryPlan.Proofs.View.RollUp
import QueryPlan.Proofs.Execution.Ordering
import QueryPlan.Proofs.Expr.Alike
import QueryPlan.Proofs.Metadata.Relation
import QueryPlan.Proofs.Metadata.Settled
import QueryPlan.Proofs.Metadata.Answers
import QueryPlan.Proofs.Metadata.History
import QueryPlan.Proofs.Metadata.Collations
import QueryPlan.Proofs.Metadata.Orders
import QueryPlan.Proofs.Expr.Equated
import QueryPlan.Proofs.Metadata.MergeJoin
import QueryPlan.Proofs.Expr.Movement
import QueryPlan.Proofs.Metadata.Movement
import QueryPlan.Proofs.Lattice.Star
import QueryPlan.Proofs.Lattice.Layout
import QueryPlan.Proofs.Lattice.Matched
import QueryPlan.Proofs.Lattice.Joins
import QueryPlan.Proofs.Lattice.Rewriting
import QueryPlan.Proofs.Lattice.Typing
import QueryPlan.Proofs.Lattice.Exhaustion
import QueryPlan.Proofs.Metadata.Containment
import QueryPlan.Proofs.Metadata.Distinct
import QueryPlan.Proofs.Metadata.Acyclicity
import QueryPlan.Proofs.Metadata.Tracing
import QueryPlan.Proofs.Metadata.Numbering
import QueryPlan.Proofs.Metadata.Origins
import QueryPlan.Proofs.Text
import QueryPlan.Proofs.Decimal.Dyadic
import QueryPlan.Proofs.Decimal.Reading
import QueryPlan.Proofs.Decimal.Shortest
import QueryPlan.Proofs.Expr.Readability
import QueryPlan.Proofs.Operator.Kind
import QueryPlan.Proofs.Operator.Readability
import QueryPlan.Proofs.Operator.Agreement
import QueryPlan.Proofs.Session.Identity
import QueryPlan.Proofs.Execution.Executable
import QueryPlan.Proofs.Execution.Reading
import QueryPlan.Proofs.Execution.Conformity
import QueryPlan.Proofs.Execution.Nullability
import QueryPlan.Proofs.Execution.Kinds
import QueryPlan.Proofs.Session.Building
import QueryPlan.Proofs.Session.Evolution
import QueryPlan.Proofs.Session.Copies
import QueryPlan.Proofs.Execution.Exchange
import QueryPlan.Proofs.View.ReadGraph
import QueryPlan.Proofs.View.Applicable
import QueryPlan.Proofs.Lattice.Trees
import QueryPlan.Proofs.Lattice.Listing
import QueryPlan.Proofs.Lattice.LeftDeep
import QueryPlan.Proofs.Execution.Sorting
import QueryPlan.Proofs.Execution.Comparison
import QueryPlan.Proofs.Execution.Multiplicities
import QueryPlan.Proofs.Execution.JoinSymmetry
import QueryPlan.Proofs.Execution.Sharing
import QueryPlan.Proofs.Decimal.Integers
import QueryPlan.Proofs.Metadata.Uniqueness
import QueryPlan.Proofs.Metadata.Vacuity
import QueryPlan.Proofs.Metadata.Returned
import QueryPlan.Proofs.Expr.Parts
import QueryPlan.Proofs.Expr.Casts
import QueryPlan.Proofs.Expr.Faults
import QueryPlan.Proofs.Decimal.Magnitude
import QueryPlan.Proofs.Expr.Discernment
import QueryPlan.Proofs.Session.Separation
import QueryPlan.Proofs.Session.Levels
import QueryPlan.Proofs.Session.Frontier
import QueryPlan.Proofs.Satisfaction
import QueryPlan.Proofs.Expr.References
import QueryPlan.Proofs.Expr.ThreeValued
