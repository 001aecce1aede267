import PklAnalysis.Analysis.Completion
import PklAnalysis.Analysis.Diagnostics
import PklAnalysis.Analysis.ImportEdit
import PklAnalysis.Analysis.Overrides
import PklAnalysis.BaseModule
import PklAnalysis.Binary64.Basic
import PklAnalysis.Binary64.Decimal
import PklAnalysis.Commands
import PklAnalysis.Config
import PklAnalysis.Declaration
import PklAnalysis.Dict
import PklAnalysis.Files
import PklAnalysis.Invocation
import PklAnalysis.Json.Basic
import PklAnalysis.Json.Printer
import PklAnalysis.Json.Reader
import PklAnalysis.Json.Record
import PklAnalysis.Lattice.Base
import PklAnalysis.Lattice.Env
import PklAnalysis.Lattice.Members
import PklAnalysis.Lattice.Order
import PklAnalysis.Lattice.Subtyping
import PklAnalysis.Lattice.Table
import PklAnalysis.Lattice.Ty
import PklAnalysis.Main
import PklAnalysis.Modules.DependencyGraph
import PklAnalysis.Modules.Lookup
import PklAnalysis.Modules.Manifest
import PklAnalysis.Modules.Package
import PklAnalysis.Modules.Projects
import PklAnalysis.Modules.Snapshot
import PklAnalysis.Modules.Store
import PklAnalysis.Modules.Uri
import PklAnalysis.Path
import PklAnalysis.Proofs.Analysis.ImportOrder
import PklAnalysis.Proofs.Analysis.ImportUse
import PklAnalysis.Proofs.Analysis.TidiedReferences
import PklAnalysis.Proofs.Analysis.TidyImports
import PklAnalysis.Proofs.Lattice.ClassExtensions
import PklAnalysis.Proofs.Lattice.CommonSubtypeRules
import PklAnalysis.Proofs.Lattice.CommonSubtypes
import PklAnalysis.Proofs.Lattice.EndlessTypes
import PklAnalysis.Proofs.Lattice.FirmAnswers
import PklAnalysis.Proofs.Lattice.Hierarchies
import PklAnalysis.Proofs.Lattice.JoinedTypes
import PklAnalysis.Proofs.Lattice.KindedTypes
import PklAnalysis.Proofs.Lattice.LosingPrecision
import PklAnalysis.Proofs.Lattice.MappedTypes
import PklAnalysis.Proofs.Lattice.MemberLookup
import PklAnalysis.Proofs.Lattice.MirroredSteps
import PklAnalysis.Proofs.Lattice.NamedTypes
import PklAnalysis.Proofs.Lattice.NearNormal
import PklAnalysis.Proofs.Lattice.NormalTypes
import PklAnalysis.Proofs.Lattice.Precision
import PklAnalysis.Proofs.Lattice.RankedAliases
import PklAnalysis.Proofs.Lattice.ReachedAliases
import PklAnalysis.Proofs.Lattice.RelationState
import PklAnalysis.Proofs.Lattice.Renumbering
import PklAnalysis.Proofs.Lattice.SubstitutedUnions
import PklAnalysis.Proofs.Lattice.SubtypingDecides
import PklAnalysis.Proofs.Lattice.SubtypingRules
import PklAnalysis.Proofs.Lattice.SuperclassPaths
import PklAnalysis.Proofs.Lattice.SuperclassWalks
import PklAnalysis.Proofs.Lattice.Superclasses
import PklAnalysis.Proofs.Lattice.SymmetricMeets
import PklAnalysis.Proofs.Lattice.TakingApart
import PklAnalysis.Proofs.Lattice.Transitivity
import PklAnalysis.Proofs.Lattice.TransparentAliases
import PklAnalysis.Proofs.Lattice.Unfolding
import PklAnalysis.Proofs.Lattice.UnionLaws
import PklAnalysis.Proofs.Lattice.UnknownRoots
import PklAnalysis.Proofs.Lattice.UpperBounds
import PklAnalysis.Proofs.Lattice.VaguerMeets
import PklAnalysis.Proofs.Lattice.VaguerSubtypes
import PklAnalysis.Proofs.Modules.ArisingStores
import PklAnalysis.Proofs.Modules.BareStore
import PklAnalysis.Proofs.Modules.Confinement
import PklAnalysis.Proofs.Modules.DependencyClosure
import PklAnalysis.Proofs.Modules.DependencyCycles
import PklAnalysis.Proofs.Modules.DependencyOrder
import PklAnalysis.Proofs.Modules.DependencySpellings
import PklAnalysis.Proofs.Modules.DepthFirstSearch
import PklAnalysis.Proofs.Modules.Directories
import PklAnalysis.Proofs.Modules.FailedLookups
import PklAnalysis.Proofs.Modules.JoinedPaths
import PklAnalysis.Proofs.Modules.NearestProjects
import PklAnalysis.Proofs.Modules.PathSteps
import PklAnalysis.Proofs.Modules.PinnedVersions
import PklAnalysis.Proofs.Modules.PlainStores
import PklAnalysis.Proofs.Modules.ProperStores
import PklAnalysis.Proofs.Modules.SearchOrder
import PklAnalysis.Proofs.Modules.Spellings
import PklAnalysis.Proofs.Modules.StableIdentities
import PklAnalysis.Proofs.Modules.VersionTexts
import PklAnalysis.Proofs.Resolution.Adoption
import PklAnalysis.Proofs.Resolution.Answers
import PklAnalysis.Proofs.Resolution.BaseClasses
import PklAnalysis.Proofs.Resolution.BrokenReferences
import PklAnalysis.Proofs.Resolution.ChangingStores
import PklAnalysis.Proofs.Resolution.ClimbedChains
import PklAnalysis.Proofs.Resolution.Completions
import PklAnalysis.Proofs.Resolution.DeeperLookups
import PklAnalysis.Proofs.Resolution.EndingLookups
import PklAnalysis.Proofs.Resolution.EndingQuestions
import PklAnalysis.Proofs.Resolution.Faithful
import PklAnalysis.Proofs.Resolution.FaithfulChains
import PklAnalysis.Proofs.Resolution.FaithfulInference
import PklAnalysis.Proofs.Resolution.FaithfulQueries
import PklAnalysis.Proofs.Resolution.FaithfulQuestions
import PklAnalysis.Proofs.Resolution.FaithfulReceivers
import PklAnalysis.Proofs.Resolution.FaithfulScopes
import PklAnalysis.Proofs.Resolution.Findings
import PklAnalysis.Proofs.Resolution.FoundedLookups
import PklAnalysis.Proofs.Resolution.Grounding
import PklAnalysis.Proofs.Resolution.InferredTypes
import PklAnalysis.Proofs.Resolution.InheritanceCycles
import PklAnalysis.Proofs.Resolution.InheritedAnnotations
import PklAnalysis.Proofs.Resolution.LastingAnswers
import PklAnalysis.Proofs.Resolution.LexicalBindings
import PklAnalysis.Proofs.Resolution.LocalMembers
import PklAnalysis.Proofs.Resolution.Lookups
import PklAnalysis.Proofs.Resolution.Memoization
import PklAnalysis.Proofs.Resolution.ModuleAncestors
import PklAnalysis.Proofs.Resolution.NamedDeclarations
import PklAnalysis.Proofs.Resolution.NamedTypesAgree
import PklAnalysis.Proofs.Resolution.NeatQueries
import PklAnalysis.Proofs.Resolution.NeatScopes
import PklAnalysis.Proofs.Resolution.OneVersion
import PklAnalysis.Proofs.Resolution.OpenAncestors
import PklAnalysis.Proofs.Resolution.OverriddenMembers
import PklAnalysis.Proofs.Resolution.ReportedReferences
import PklAnalysis.Proofs.Resolution.Steady
import PklAnalysis.Proofs.Resolution.SteadyAncestors
import PklAnalysis.Proofs.Resolution.SteadyClasses
import PklAnalysis.Proofs.Resolution.SteadyInference
import PklAnalysis.Proofs.Resolution.SteadyModules
import PklAnalysis.Proofs.Resolution.SteadyQuestions
import PklAnalysis.Proofs.Resolution.SteadyRelations
import PklAnalysis.Proofs.Resolution.SteadyScopes
import PklAnalysis.Proofs.Resolution.StoredRelations
import PklAnalysis.Proofs.Resolution.TracedQuestions
import PklAnalysis.Proofs.Resolution.TypeMismatches
import PklAnalysis.Proofs.Resolution.UnionReceivers
import PklAnalysis.Proofs.Resolution.WidenedAncestors
import PklAnalysis.Proofs.Resolution.WidenedInference
import PklAnalysis.Proofs.Resolution.WidenedReceivers
import PklAnalysis.Proofs.Resolution.WidenedReferences
import PklAnalysis.Proofs.Resolution.WidenedScopes
import PklAnalysis.Proofs.Resolution.WidenedTypes
import PklAnalysis.Proofs.Resolution.Widening
import PklAnalysis.Proofs.Resolution.Worlds
import PklAnalysis.Proofs.Source.Accepted
import PklAnalysis.Proofs.Source.Insertions
import PklAnalysis.Proofs.Source.Layout
import PklAnalysis.Proofs.Source.Leaves
import PklAnalysis.Proofs.Source.OffsetQueries
import PklAnalysis.Proofs.Source.Outlines
import PklAnalysis.Proofs.Source.PlacedDeclarations
import PklAnalysis.Proofs.Source.PreOrder
import PklAnalysis.Proofs.Source.ReplacedImports
import PklAnalysis.Proofs.Source.Rereading
import PklAnalysis.Proofs.Source.SoughtNames
import PklAnalysis.Proofs.Source.SyntheticPositions
import PklAnalysis.Proofs.Source.Unplaced
import PklAnalysis.Proofs.Source.WidenedTrees
import PklAnalysis.Proofs.Text.Cuts
import PklAnalysis.Proofs.TypeExpr.Completeness
import PklAnalysis.Proofs.TypeExpr.Grammar
import PklAnalysis.Proofs.TypeExpr.Misreading
import PklAnalysis.Proofs.TypeExpr.RoundTrip
import PklAnalysis.Proofs.TypeExpr.Soundness
import PklAnalysis.Resolution.Classes
import PklAnalysis.Resolution.Declared
import PklAnalysis.Resolution.Inference
import PklAnalysis.Resolution.Receivers
import PklAnalysis.Resolution.Scope
import PklAnalysis.Resolution.Session
import PklAnalysis.Resolution.TypeNames
import PklAnalysis.Source.Basic
import PklAnalysis.Source.Json
import PklAnalysis.Source.Outline
import PklAnalysis.Span
import PklAnalysis.Text.CharClass
import PklAnalysis.Text.Cut
import PklAnalysis.Text.Digit
import PklAnalysis.Text.Quoted
import PklAnalysis.Toml.Basic
import PklAnalysis.Toml.Moments
import PklAnalysis.Toml.Numbers
import PklAnalysis.Toml.Reader
import PklAnalysis.Toml.Strings
import PklAnalysis.Toml.Table
import PklAnalysis.Tree.Basic
import PklAnalysis.Tree.Outline
import PklAnalysis.TypeExpr.Basic
import PklAnalysis.TypeExpr.Printer
import PklAnalysis.TypeExpr.Reader
import PklAnalysis.Version
import PklAnalysis.Workspace
