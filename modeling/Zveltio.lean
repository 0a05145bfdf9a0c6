import Zveltio.Runs
import Zveltio.RowTable
import Zveltio.Fields
import Zveltio.Crdt
import Zveltio.LocalStore
import Zveltio.StoreCalls
import Zveltio.StoreDocuments
import Zveltio.StoreClock
import Zveltio.SyncManager
import Zveltio.SyncOrder
import Zveltio.FieldMerge
import Zveltio.SyncPush
import Zveltio.SyncPushOrder
import Zveltio.Keyset
import Zveltio.SyncPull
import Zveltio.SyncPullRows
import Zveltio.SyncPullDeletes
import Zveltio.Kleene
import Zveltio.RowRules
import Zveltio.RowRulePolicy
import Zveltio.RowRuleAgreement
import Zveltio.Binary64
import Zveltio.RowRuleDoor
import Zveltio.SqlLexer
import Zveltio.SqlTokens
import Zveltio.SqlNumbers
import Zveltio.SqlPieces
import Zveltio.SqlLiterals
import Zveltio.SqlRuns
import Zveltio.SqlSeams
import Zveltio.ParamInlining
import Zveltio.SqlStrip
import Zveltio.GodCache
import Zveltio.PolicyMemo
import Zveltio.PolicyFastPath
import Zveltio.PolicyTable
import Zveltio.PolicyReceive
import Zveltio.PolicyRebuild
import Zveltio.Tables
import Zveltio.SchemaJson
import Zveltio.SchemaFiles
import Zveltio.SchemaPlan
import Zveltio.SchemaApply
import Zveltio.SchemaShape
import Zveltio.SchemaMigrations
import Zveltio.SchemaPromises
import Zveltio.SchemaKept
import Zveltio.SchemaText
import Zveltio.SchemaAgreement
import Zveltio.SchemaEmptyPlan
import Zveltio.SqlTables
import Zveltio.SqlStatements
import Zveltio.SqlScan
import Zveltio.SqlPositions
import Zveltio.ExtensionMigrations
import Zveltio.GhostRun
import Zveltio.GhostSwap
import Zveltio.GhostKeys
import Zveltio.GhostCleanup
import Zveltio.Turns
import Zveltio.IpText
import Zveltio.UrlValidator
import Zveltio.UrlBlocklist
import Zveltio.Savepoints
import Zveltio.SavepointBlock
import Zveltio.RoleWindows
import Zveltio.Parties
import Zveltio.Listing
import Zveltio.ReadWindows
import Zveltio.QueryCache
import Zveltio.CollectionGrants
import Zveltio.ColumnRules
import Zveltio.WorkerRegistry
import Zveltio.WorkerTxn
import Zveltio.WorkerRequest
import Zveltio.WorkerScopes
import Zveltio.FlowBranches
import Zveltio.Sweeps
import Zveltio.JobRunner
import Zveltio.ParentChains
import Zveltio.TenantTree
import Zveltio.WebhookQueue
import Zveltio.WebhookOutcomes
import Zveltio.TablePrefixes
import Zveltio.IpBuckets
import Zveltio.MemoryLimit
import Zveltio.MigrationText
import Zveltio.ArrayLiteral
import Zveltio.FlowScheduler
import Zveltio.SchemaBranches
import Zveltio.FieldMetadata
import Zveltio.Protections
import Zveltio.BranchProtections
import Zveltio.SlidingWindow
import Zveltio.OrSet
import Zveltio.LwwJoin
import Zveltio.Cron
import Zveltio.Calendar
import Zveltio.OrderedSearch
import Zveltio.CronRuns
import Zveltio.ValidationRules
import Zveltio.QueryFilters
import Zveltio.ElectricShape
import Zveltio.LikePatterns
import Zveltio.Doubles
import Zveltio.JsValues
import Zveltio.JsonText
import Zveltio.JsonReading
import Zveltio.Codecs
import Zveltio.TextCoding
import Zveltio.CanonicalJson
import Zveltio.IsoDates
import Zveltio.Framing
import Zveltio.TaggedValues
import Zveltio.ExtensionFrames
import Zveltio.Keyrings
import Zveltio.FieldCrypto
import Zveltio.SafeFetch
import Zveltio.Egress
import Zveltio.FetchLines
import Zveltio.StepUp
import Zveltio.StepUpClose
import Zveltio.StepUpBudget
import Zveltio.CallLimiter
import Zveltio.InOrder
import Zveltio.Sockets
import Zveltio.RealtimeDoors
import Zveltio.SocketTurns
import Zveltio.AdvisoryLock
import Zveltio.DefinitionCache
import Zveltio.JunctionNames
import Zveltio.Junctions
import Zveltio.TenantReach
import Zveltio.SocketBan
import Zveltio.AfterCommit
