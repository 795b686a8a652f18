import Provenance.Algebra.Instruction
import Provenance.Algebra.Program
import Provenance.Answer.Dot
import Provenance.Answer.Structured
import Provenance.CommandLine.FileTree
import Provenance.CommandLine.Run
import Provenance.Document
import Provenance.FilePath
import Provenance.Main
import Provenance.Proofs.Agreement
import Provenance.Proofs.Allocations
import Provenance.Proofs.BaseElements
import Provenance.Proofs.BaseRelations
import Provenance.Proofs.BaseTraversals
import Provenance.Proofs.CheckedKinds
import Provenance.Proofs.CollapsedEdges
import Provenance.Proofs.CollectionTexts
import Provenance.Proofs.Collections
import Provenance.Proofs.CompletedInstructions
import Provenance.Proofs.CompoundAssignments
import Provenance.Proofs.ConsistentStores
import Provenance.Proofs.Conversations
import Provenance.Proofs.DanglingNames
import Provenance.Proofs.Database
import Provenance.Proofs.DirectEvaluation
import Provenance.Proofs.Discoveries
import Provenance.Proofs.DisplacedTexts
import Provenance.Proofs.EvaluatedQueries
import Provenance.Proofs.ExportedGraphs
import Provenance.Proofs.FailedResolutions
import Provenance.Proofs.Following
import Provenance.Proofs.Frames
import Provenance.Proofs.FreshNames
import Provenance.Proofs.Handles
import Provenance.Proofs.IndexedPositions
import Provenance.Proofs.JoinedQueries
import Provenance.Proofs.JoinedTexts
import Provenance.Proofs.KeptValues
import Provenance.Proofs.LeadingKeywords
import Provenance.Proofs.Lineages
import Provenance.Proofs.LiteralStatements
import Provenance.Proofs.LiteralTexts
import Provenance.Proofs.LoadedDocuments
import Provenance.Proofs.LongerTexts
import Provenance.Proofs.MetadataExpressions
import Provenance.Proofs.Mismatches
import Provenance.Proofs.NewlyReached
import Provenance.Proofs.Operations
import Provenance.Proofs.OrderedMap
import Provenance.Proofs.PrintedChains
import Provenance.Proofs.PrintedExpressions
import Provenance.Proofs.PrintedQueries
import Provenance.Proofs.PrintedTokens
import Provenance.Proofs.Printing
import Provenance.Proofs.ProlongedSweeps
import Provenance.Proofs.ProlongedTraversals
import Provenance.Proofs.ReachedTables
import Provenance.Proofs.ReadDocuments
import Provenance.Proofs.Readings
import Provenance.Proofs.Refills
import Provenance.Proofs.RenamedInstructions
import Provenance.Proofs.Resumption
import Provenance.Proofs.Rounds
import Provenance.Proofs.ScratchLifetimes
import Provenance.Proofs.SelectedElements
import Provenance.Proofs.Selections
import Provenance.Proofs.SetOperations
import Provenance.Proofs.ShapedQueries
import Provenance.Proofs.SharedTables
import Provenance.Proofs.ShortestPaths
import Provenance.Proofs.SingleAssignment
import Provenance.Proofs.SpannedQueries
import Provenance.Proofs.SpannedTexts
import Provenance.Proofs.Stages
import Provenance.Proofs.StartingOver
import Provenance.Proofs.StatementTexts
import Provenance.Proofs.StoredBindings
import Provenance.Proofs.Subgraphs
import Provenance.Proofs.Sweepers
import Provenance.Proofs.TimelySweeps
import Provenance.Proofs.TwoLevels
import Provenance.Proofs.Walks
import Provenance.Proofs.Workspaces
import Provenance.Query.Grammar
import Provenance.Scratch
import Provenance.Session
import Provenance.Storage
import Provenance.Store.Memory
import Provenance.Store.Rehearsal
import Provenance.Text.Pieces
import Provenance.Text.Quoted
import Provenance.Proofs.DotTexts
import Provenance.Proofs.PlainTexts
