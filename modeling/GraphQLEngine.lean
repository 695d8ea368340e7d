import GraphQLEngine.Document.Reading
import GraphQLEngine.Execution.Run
import GraphQLEngine.Json.Parser
import GraphQLEngine.Json.Printer
import GraphQLEngine.Response.Wire
import GraphQLEngine.Schema.Draft
import GraphQLEngine.Proofs.Account
import GraphQLEngine.Proofs.Collection
import GraphQLEngine.Proofs.Completion
import GraphQLEngine.Proofs.NullPropagation
import GraphQLEngine.Proofs.Registration
import GraphQLEngine.Proofs.BuiltSchema
import GraphQLEngine.Proofs.Conformance
import GraphQLEngine.Proofs.Eventual
import GraphQLEngine.Proofs.Turns
import GraphQLEngine.Proofs.Progress
import GraphQLEngine.Proofs.Delays
import GraphQLEngine.Proofs.ScheduleIndependence
import GraphQLEngine.Proofs.SerialMutation
import GraphQLEngine.Proofs.Positions
import GraphQLEngine.Proofs.ErrorOrder
import GraphQLEngine.Proofs.Course
import GraphQLEngine.Proofs.Unfolding
import GraphQLEngine.Proofs.RunCourse
import GraphQLEngine.Proofs.Nesting
import GraphQLEngine.Proofs.Spreads
import GraphQLEngine.Proofs.Depth
import GraphQLEngine.Proofs.DepthIndependence
import GraphQLEngine.Proofs.CriticalPath
import GraphQLEngine.Proofs.Termination
import GraphQLEngine.Proofs.Refusals
import GraphQLEngine.Proofs.InputValues
import GraphQLEngine.Proofs.Relevance
import GraphQLEngine.Proofs.Invocations
import GraphQLEngine.Proofs.Inlining
import GraphQLEngine.Proofs.Repetition
import GraphQLEngine.Proofs.InlinedFields
import GraphQLEngine.Proofs.Counterparts
import GraphQLEngine.Proofs.InlinedExecution
import GraphQLEngine.Proofs.Determinacy
import GraphQLEngine.Proofs.SelectionSets
import GraphQLEngine.Proofs.Pruning
import GraphQLEngine.Proofs.PrunedExecution
import GraphQLEngine.Proofs.NameSyntax
import GraphQLEngine.Proofs.DraftViolations
import GraphQLEngine.Proofs.References
import GraphQLEngine.Proofs.ErrorSources
import GraphQLEngine.Proofs.InternalFaults
import GraphQLEngine.Proofs.InputPositions
import GraphQLEngine.Proofs.VariableValues
import GraphQLEngine.Proofs.Traversal
import GraphQLEngine.Proofs.CollectionSteps
import GraphQLEngine.Proofs.ArgumentBinding
import GraphQLEngine.Proofs.LiteralSubstitution
import GraphQLEngine.Proofs.InputRetraction
import GraphQLEngine.Proofs.PossibleTypes
import GraphQLEngine.Proofs.AbstractTypes
import GraphQLEngine.Proofs.TypeConditions
import GraphQLEngine.Proofs.SingleRound
import GraphQLEngine.Proofs.Projection
import GraphQLEngine.Proofs.Locations
import GraphQLEngine.Proofs.TokenOrder
import GraphQLEngine.Proofs.SyntaxTrees
import GraphQLEngine.Proofs.TokenRuns
import GraphQLEngine.Proofs.WrittenNodes
import GraphQLEngine.Proofs.Parsing
import GraphQLEngine.Proofs.NodeLocations
import GraphQLEngine.Proofs.TypeNotation
import GraphQLEngine.Proofs.DocumentNames
import GraphQLEngine.Proofs.TokenNames
import GraphQLEngine.Proofs.ValidNames
import GraphQLEngine.Proofs.WireFormat
