import LexicalScope.Options.Json
import LexicalScope.Proofs.AnalysisFailure
import LexicalScope.Proofs.ArgumentsVisibility
import LexicalScope.Proofs.AssociationList
import LexicalScope.Proofs.BuilderCalls
import LexicalScope.Proofs.CheckedQueries
import LexicalScope.Proofs.ClassTrace
import LexicalScope.Proofs.Classification
import LexicalScope.Proofs.Composition
import LexicalScope.Proofs.Confinement
import LexicalScope.Proofs.DeclaredIndex
import LexicalScope.Proofs.DirectiveGrammar
import LexicalScope.Proofs.DirectiveMerging
import LexicalScope.Proofs.Equivariance
import LexicalScope.Proofs.GlobalPrecedence
import LexicalScope.Proofs.GlobalReferences
import LexicalScope.Proofs.Hoisting
import LexicalScope.Proofs.ImplicitGlobals
import LexicalScope.Proofs.Initializers
import LexicalScope.Proofs.InlineSettings
import LexicalScope.Proofs.InternedNames
import LexicalScope.Proofs.MapContainers
import LexicalScope.Proofs.MapOperations
import LexicalScope.Proofs.NameIndependence
import LexicalScope.Proofs.NameLookup
import LexicalScope.Proofs.NameScopes
import LexicalScope.Proofs.OptionsRoundTrip
import LexicalScope.Proofs.PatternPartition
import LexicalScope.Proofs.ReferenceLists
import LexicalScope.Proofs.ScopeLookup
import LexicalScope.Proofs.ScopeTree
import LexicalScope.Proofs.Sessions
import LexicalScope.Proofs.Spelling
import LexicalScope.Proofs.StackDiscipline
import LexicalScope.Proofs.Standing
import LexicalScope.Proofs.StepOrigins
import LexicalScope.Proofs.Strictness
import LexicalScope.Proofs.Tainting
import LexicalScope.Proofs.ThisMarks
import LexicalScope.Proofs.VariableTables
import LexicalScope.Proofs.Visitor
import LexicalScope.Proofs.VisitorMoves
import LexicalScope.Proofs.VisitorOutline
import LexicalScope.Proofs.VisitorProgram
import LexicalScope.Proofs.VisitorStages
import LexicalScope.Proofs.WriteMetadata
import LexicalScope.Session
import LexicalScope.Syntax.Build
import LexicalScope.Syntax.Record
