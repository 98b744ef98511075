import ResponseShape.Compilation
import ResponseShape.Config.Basic
import ResponseShape.Config.Reader
import ResponseShape.Definition.Build
import ResponseShape.Definition.Gathered
import ResponseShape.Definition.Placement
import ResponseShape.Definition.Selections
import ResponseShape.Definition.Shape
import ResponseShape.Document.Basic
import ResponseShape.Document.Deferral
import ResponseShape.Document.Merging
import ResponseShape.Document.Spreads
import ResponseShape.Document.Subscription
import ResponseShape.Document.Typing
import ResponseShape.Document.Validity
import ResponseShape.Entity.Location
import ResponseShape.Entity.Place
import ResponseShape.Entity.Table
import ResponseShape.Error
import ResponseShape.Inclusion.Alternatives
import ResponseShape.Inclusion.ConditionGroup
import ResponseShape.Inclusion.InclusionResult
import ResponseShape.Merging.Merge
import ResponseShape.Merging.Strategy
import ResponseShape.Merging.ViewCache
import ResponseShape.Merging.Visibility
import ResponseShape.Merging.VisibleSelections
import ResponseShape.Ordered
import ResponseShape.Schema.Assembly
import ResponseShape.Schema.Basic
import ResponseShape.Schema.BuiltIn
import ResponseShape.Schema.Implementation
import ResponseShape.Schema.InputTyping
import ResponseShape.Schema.References
import ResponseShape.Schema.Subtyping
import ResponseShape.Schema.Validity
import ResponseShape.Scope.Narrowing
import ResponseShape.Scope.Scope
import ResponseShape.Selection.FieldSummary
import ResponseShape.Selection.Occurrence
import ResponseShape.Selection.SelectionTree
import ResponseShape.Text.WhiteSpace
import ResponseShape.Workspace
import ResponseShape.Written.Decimal
import ResponseShape.Written.Definition
import ResponseShape.Written.Reader
import ResponseShape.Written.StringLiteral
import ResponseShape.Written.Token
import ResponseShape.Written.TypeReference
import ResponseShape.Written.Value
import ResponseShape.Proofs.Inclusion.Assignment
import ResponseShape.Proofs.Inclusion.Directives
import ResponseShape.Proofs.Inclusion.Disjunction
import ResponseShape.Proofs.Ordered
import ResponseShape.Proofs.Outcomes
import ResponseShape.Proofs.Schema.Ascent
import ResponseShape.Proofs.Schema.PossibleObjects
import ResponseShape.Proofs.Schema.Subtyping
import ResponseShape.Proofs.Schema.Supertypes
import ResponseShape.Proofs.Scope.Reachable
import ResponseShape.Proofs.Scope.Implication
import ResponseShape.Proofs.Scope.Satisfaction
import ResponseShape.Proofs.Scope.Within
import ResponseShape.Proofs.Scope.Equality
import ResponseShape.Proofs.Scope.Failures
import ResponseShape.Proofs.Document.Equality
import ResponseShape.Proofs.Execution.CollectedFields
import ResponseShape.Proofs.Document.Making
import ResponseShape.Proofs.Document.Meeting
import ResponseShape.Proofs.Definition.Gathering
import ResponseShape.Proofs.Definition.Depiction
import ResponseShape.Proofs.Definition.Reading
import ResponseShape.Proofs.Entity.Registration
import ResponseShape.Proofs.Definition.Construction
import ResponseShape.Proofs.Definition.Placing
import ResponseShape.Proofs.Definition.Resemblance
import ResponseShape.Proofs.Definition.Taking
import ResponseShape.Proofs.Definition.SelectsFor
import ResponseShape.Proofs.Definition.Inlining
import ResponseShape.Proofs.Definition.Limits
import ResponseShape.Proofs.Definition.Failures
import ResponseShape.Proofs.Workspace.Invariant
import ResponseShape.Proofs.Workspace.Building
import ResponseShape.Proofs.Workspace.Reachable
import ResponseShape.Proofs.Workspace.Built
import ResponseShape.Proofs.Workspace.Mounting
import ResponseShape.Proofs.Merging.Additions
import ResponseShape.Proofs.Merging.Sources
import ResponseShape.Proofs.Merging.Union
import ResponseShape.Proofs.Merging.Selected
import ResponseShape.Proofs.Merging.Aliases
import ResponseShape.Proofs.Merging.Narrower
import ResponseShape.Proofs.Merging.Conformance
import ResponseShape.Proofs.Walk.Visits
import ResponseShape.Proofs.Definition.Distinctness
import ResponseShape.Proofs.Walk.Coverage
import ResponseShape.Proofs.Walk.Completeness
import ResponseShape.Proofs.Walk.Ways
import ResponseShape.Proofs.Walk.Selectable
import ResponseShape.Proofs.Walk.Soundness
import ResponseShape.Proofs.Walk.Standing
import ResponseShape.Proofs.Walk.Differing
import ResponseShape.Proofs.Walk.Occurring
import ResponseShape.Proofs.Workspace.Selecting
import ResponseShape.Proofs.Merging.Inlining
import ResponseShape.Proofs.Merging.SideBySide
import ResponseShape.Proofs.Merging.SoleContributors
import ResponseShape.Proofs.Merging.Alike
import ResponseShape.Proofs.Workspace.Abiding
import ResponseShape.Proofs.Workspace.Agreement
import ResponseShape.Proofs.Workspace.Settled
import ResponseShape.Proofs.Definition.Drafting
import ResponseShape.Proofs.Workspace.Settling
import ResponseShape.Proofs.Workspace.Descent
import ResponseShape.Proofs.Workspace.Views
import ResponseShape.Proofs.Workspace.Histories
import ResponseShape.Proofs.Entity.Alignment
import ResponseShape.Proofs.Workspace.Alignment
import ResponseShape.Proofs.Workspace.Upkeep
import ResponseShape.Proofs.Workspace.Persistence
import ResponseShape.Proofs.Merging.Caching
import ResponseShape.Proofs.Workspace.Requests
import ResponseShape.Proofs.Workspace.Identity
import ResponseShape.Proofs.Workspace.Conflicts
import ResponseShape.Proofs.Merging.Conflicts
import ResponseShape.Proofs.Merging.Alignment
import ResponseShape.Proofs.Workspace.Integrity
import ResponseShape.Proofs.Definition.Boundaries
import ResponseShape.Proofs.Definition.Composition
import ResponseShape.Proofs.Workspace.Boundaries
import ResponseShape.Proofs.Definition.Spreading
import ResponseShape.Proofs.Workspace.Steps
import ResponseShape.Proofs.Document.SelfContained
import ResponseShape.Proofs.Workspace.Nesting
import ResponseShape.Proofs.Merging.Success
import ResponseShape.Proofs.Merging.Strategies
import ResponseShape.Proofs.Workspace.Chains
import ResponseShape.Proofs.Scope.Decisions
import ResponseShape.Proofs.Inclusion.Reduction
import ResponseShape.Proofs.Definition.Reduction
import ResponseShape.Proofs.Merging.Reduction
import ResponseShape.Proofs.Workspace.Satisfiability
import ResponseShape.Proofs.Workspace.Crossing
import ResponseShape.Proofs.Scope.Meet
import ResponseShape.Proofs.Scope.Agreement
import ResponseShape.Proofs.Definition.Rebasing
import ResponseShape.Proofs.Inclusion.Canonical
import ResponseShape.Proofs.Inclusion.Absorption
import ResponseShape.Proofs.Inclusion.Decisive
import ResponseShape.Proofs.Definition.References
import ResponseShape.Proofs.Workspace.Limits
import ResponseShape.Proofs.Merging.Steps
import ResponseShape.Proofs.Workspace.Accessors
import ResponseShape.Proofs.Workspace.Hashing
import ResponseShape.Proofs.Entity.NamedTypes
import ResponseShape.Proofs.Merging.NamedTypes
import ResponseShape.Proofs.Definition.ReferencedTypes
import ResponseShape.Proofs.Workspace.Roots
import ResponseShape.Proofs.Workspace.ReferencedTypes
