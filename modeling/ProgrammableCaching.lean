import ProgrammableCaching.Library.UnorderedMap
import ProgrammableCaching.Library.LastWriter
import ProgrammableCaching.Library.Replicas
import ProgrammableCaching.Library.Directory
import ProgrammableCaching.Library.Runs
import ProgrammableCaching.Library.Pools
import ProgrammableCaching.Library.Linearizability
import ProgrammableCaching.Library.Contracts
import ProgrammableCaching.Library.Lockstep
import ProgrammableCaching.Library.Reports
import ProgrammableCaching.Library.Replays
import ProgrammableCaching.Library.Serializability
import ProgrammableCaching.Library.Fields
import ProgrammableCaching.Library.Traces
import ProgrammableCaching.Library.Indexes
import ProgrammableCaching.Library.KeptWrites
import ProgrammableCaching.Handler
import ProgrammableCaching.Proto
import ProgrammableCaching.StorageInterface
import ProgrammableCaching.StorageBackends
import ProgrammableCaching.StorageManager
import ProgrammableCaching.StorageMaster
import ProgrammableCaching.RuleInstallation
import ProgrammableCaching.MasterRuns
import ProgrammableCaching.PeerIndexes
import ProgrammableCaching.MasterView
import ProgrammableCaching.MasterThreads
import ProgrammableCaching.ConcurrentMaster
import ProgrammableCaching.SerializableMaster
import ProgrammableCaching.OrderIndependence
import ProgrammableCaching.RuleDb
import ProgrammableCaching.StorageClient
import ProgrammableCaching.RuleHistory
import ProgrammableCaching.ClientCalls
import ProgrammableCaching.PutExecution
import ProgrammableCaching.RuleSafety
import ProgrammableCaching.World
import ProgrammableCaching.RuleExecution
import ProgrammableCaching.Threads
import ProgrammableCaching.ConcurrentRules
import ProgrammableCaching.System
import ProgrammableCaching.Coherence
import ProgrammableCaching.RepeatedReads
import ProgrammableCaching.ReadYourWrites
import ProgrammableCaching.ViewAgreement
import ProgrammableCaching.ConcurrentClients
import ProgrammableCaching.HomedKeys
import ProgrammableCaching.Faults
import ProgrammableCaching.RuleThreads
import ProgrammableCaching.RuleDistribution
import ProgrammableCaching.Restarts
import ProgrammableCaching.CopyFailures
import ProgrammableCaching.SilentFailure
import ProgrammableCaching.PeerIdentity
import ProgrammableCaching.FaultyThreads
import ProgrammableCaching.StorageIndependence
import ProgrammableCaching.ClientContracts
import ProgrammableCaching.Provenance
import ProgrammableCaching.Footprints
import ProgrammableCaching.ServerlessSystemView
import ProgrammableCaching.Scheduler
import ProgrammableCaching.Schedulability
import ProgrammableCaching.Capacity
import ProgrammableCaching.ViewParsing
import ProgrammableCaching.ParsableViews
import ProgrammableCaching.PeerNames
import ProgrammableCaching.SchedulableEngines
import ProgrammableCaching.ParsedViews
import ProgrammableCaching.ViewRuns
import ProgrammableCaching.ReplyOrder
import ProgrammableCaching.HostPairing
import ProgrammableCaching.PersistentLookups
import ProgrammableCaching.Maestro
import ProgrammableCaching.Schedule
import ProgrammableCaching.WorkConservation
import ProgrammableCaching.SchedulerThreads
import ProgrammableCaching.Dispatch
