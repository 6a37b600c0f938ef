import VortexRdf.PartitionPoint
import VortexRdf.Search
import VortexRdf.Buffers
import VortexRdf.Sinks
import VortexRdf.Packed
import VortexRdf.Node
import VortexRdf.NodeValues
import VortexRdf.NodeReads
import VortexRdf.Probe
import VortexRdf.ColumnChunks
import VortexRdf.AscendingLists
import VortexRdf.Masks
import VortexRdf.RowSelection
import VortexRdf.SelectionAlgebra
import VortexRdf.Oxrdf
import VortexRdf.Swar
import VortexRdf.Terms
import VortexRdf.LiteralText
import VortexRdf.TermRoundTrip
import VortexRdf.DictionaryReads
import VortexRdf.Programs
import VortexRdf.CodeRows
import VortexRdf.RowDecoders
import VortexRdf.LineDecoder
import VortexRdf.DecoderAgreement
import VortexRdf.EquiJoins
import VortexRdf.Joins
import VortexRdf.JoinGroups
import VortexRdf.JoinPaths
import VortexRdf.SortedRuns
import VortexRdf.Gather
import VortexRdf.Patterns
import VortexRdf.TailKeys
import VortexRdf.TailMatch
import VortexRdf.Lexicographic
import VortexRdf.TermSearch
import VortexRdf.ResidentLookups
import VortexRdf.LiteralViews
import VortexRdf.Numbers
import VortexRdf.WindowCache
import VortexRdf.Predicates
import VortexRdf.CodeFilters
import VortexRdf.Windows
import VortexRdf.WindowLookups
import VortexRdf.WindowBatches
import VortexRdf.Builds
import VortexRdf.RunMerges
import VortexRdf.InternedBuilds
import VortexRdf.Rebuilds
import VortexRdf.Compactions
import VortexRdf.CanonicalSpellings
import VortexRdf.Records
import VortexRdf.SpillRuns
import VortexRdf.TypedColumns
import VortexRdf.ResidualAnswers
import VortexRdf.IndexChildren
import VortexRdf.GraphChecks
import VortexRdf.IndexAnswers
import VortexRdf.Keeps
import VortexRdf.PointReads
import VortexRdf.ServedAnswers
import VortexRdf.Resolution
import VortexRdf.RunEnds
import VortexRdf.Tallies
import VortexRdf.TermLookups
import VortexRdf.ValueCounts
import VortexRdf.WindowWalks
import VortexRdf.ZoneAnswers
import VortexRdf.ZoneBuilders
import VortexRdf.KeepPaths
import VortexRdf.TermParts
import VortexRdf.EntryRuns
import VortexRdf.StreamBuilds
import VortexRdf.FilePlanReads
import VortexRdf.FilePlanRuns
import VortexRdf.CacheRuns
import VortexRdf.FileFilterEvals
import VortexRdf.FileFilterFolds
import VortexRdf.Spills
import VortexRdf.SplitAnswers
import VortexRdf.UniqueIds
import VortexRdf.JsonValues
import VortexRdf.LazyRuns
import VortexRdf.Rosters
import VortexRdf.SubjectRuns
import VortexRdf.DecimalDigits
import VortexRdf.NumberConstants
import VortexRdf.NumberForms
import VortexRdf.FileSystems
import VortexRdf.PendingStores
import VortexRdf.Replacements
import VortexRdf.RegexClasses
import VortexRdf.RegexDialects
import VortexRdf.RegexExpansions
import VortexRdf.RegexLeaves
import VortexRdf.RegexTranslations
import VortexRdf.GrowingPieces
import VortexRdf.ColumnCodes
import VortexRdf.ResidentZones
import VortexRdf.QuadStreamRuns
import VortexRdf.PackedReads
import VortexRdf.PayloadRuns
import VortexRdf.LazyRows
import VortexRdf.ViewAnswers
import VortexRdf.ViewReads
