import Triliteral.Command.Run
import Triliteral.Engine.Request
import Triliteral.Files.Disk
import Triliteral.Files.Memory
import Triliteral.Main
import Triliteral.RootTree.Walk
import Triliteral.Proofs.RootOrder
import Triliteral.Proofs.TreeEntries
import Triliteral.Proofs.TreeWalk
import Triliteral.Proofs.TreeBalance
import Triliteral.Proofs.RegistryOrder
import Triliteral.Proofs.EngineUpdates
import Triliteral.Proofs.EngineInvariants
import Triliteral.Proofs.SessionAgreement
import Triliteral.Proofs.TomlStrings
import Triliteral.Proofs.TomlValues
import Triliteral.Proofs.TomlDocuments
import Triliteral.Proofs.InstantText
import Triliteral.Proofs.TomlTables
import Triliteral.Proofs.SnapshotFile
import Triliteral.Proofs.HistoryGrowth
import Triliteral.Proofs.TreeDerivations
import Triliteral.Proofs.UsageAccounting
import Triliteral.Proofs.CleanRestoration
import Triliteral.Engine.InPlace
import Triliteral.Proofs.InPlaceRuns
import Triliteral.Proofs.Refusals
import Triliteral.Proofs.CommandReplies
import Triliteral.Proofs.ProcessSessions
import Triliteral.Proofs.LeastAnalysis
import Triliteral.Proofs.CommandEffects
import Triliteral.Proofs.ProgramRuns
import Triliteral.Proofs.StoredRoots
import Triliteral.Proofs.FirstOccurrences
import Triliteral.Proofs.UsableRecords
import Triliteral.Proofs.RestorationOutcome
import Triliteral.Proofs.CanonicalSnapshots
import Triliteral.Proofs.ChangedPlaceholders
import Triliteral.Engine.Shared
import Triliteral.Proofs.Interleavings
import Triliteral.Proofs.EngineViews
import Triliteral.Proofs.BareEngines
import Triliteral.Proofs.UnreadHistory
import Triliteral.Proofs.PatternSubstitution
import Triliteral.Proofs.LocalEdits
import Triliteral.Proofs.SchemeEdits
import Triliteral.Proofs.SchemeInvariants
import Triliteral.Proofs.JustifiedDerivations
import Triliteral.Proofs.CommutingRequests
import Triliteral.Proofs.PatternNormalForm
import Triliteral.Proofs.InvertiblePatterns
import Triliteral.Proofs.TreeFrames
import Triliteral.Proofs.TreeHeights
import Triliteral.Proofs.LogarithmicHeight
import Triliteral.Proofs.SortedInsertions
import Triliteral.Proofs.GeneratedWords
import Triliteral.Proofs.PlainEngines
import Triliteral.Proofs.RespelledSchemes
import Triliteral.Proofs.ConsecutiveLoads
import Triliteral.Proofs.BulkLoads
import Triliteral.Proofs.RootsFileLayouts
import Triliteral.Storage.Held
import Triliteral.Proofs.AtomicStorage
import Triliteral.Proofs.SchemeRanking
import Triliteral.Proofs.TracelessFailures
import Triliteral.Proofs.PathExpansion
import Triliteral.Proofs.SettingsText
import Triliteral.Proofs.TreeDrawings
import Triliteral.Proofs.ArenaWalk
import Triliteral.Proofs.PlaceholderText
import Triliteral.Proofs.InsertionAscent
