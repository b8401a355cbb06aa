import LazyLayers.Pattern
import LazyLayers.Runs
import LazyLayers.OperationScript
import LazyLayers.LuaReference
import LazyLayers.OperationRuns
import LazyLayers.OperationLeases
import LazyLayers.OperationReplay
import LazyLayers.OperationKeys
import LazyLayers.OperationStore
import LazyLayers.OperationReplies
import LazyLayers.OperationRecords
import LazyLayers.OperationGate
import LazyLayers.OperationErrors
import LazyLayers.LeaseController
import LazyLayers.JsString
import LazyLayers.RedisKeys
import LazyLayers.RedisLease
import LazyLayers.RedisFencing
import LazyLayers.Async
import LazyLayers.JsMap
import LazyLayers.MemoryStore
import LazyLayers.MemoryWrites
import LazyLayers.PromotionTtl
import LazyLayers.HybridState
import LazyLayers.HybridPrograms
import LazyLayers.HybridDiscipline
import LazyLayers.HybridMethods
import LazyLayers.HybridFrames
import LazyLayers.HybridGuards
import LazyLayers.HybridRuns
import LazyLayers.HybridEntries
import LazyLayers.HybridBarriers
import LazyLayers.HybridPublication
import LazyLayers.HybridStages
import LazyLayers.HybridFlights
import LazyLayers.HybridShared
import LazyLayers.HybridGenerations
import LazyLayers.Wildcards
import LazyLayers.PatternSpec
import LazyLayers.Utf8
import LazyLayers.MessagePack
import LazyLayers.MessagePackScan
import LazyLayers.Json
import LazyLayers.JsonScan
import LazyLayers.SerializerPolicy
import LazyLayers.JsonGrammar
import LazyLayers.EventEncoding
import LazyLayers.Sha256
import LazyLayers.OperationIdentity
import LazyLayers.Codecs
import LazyLayers.Serializer
import LazyLayers.PortableSerializer
import LazyLayers.RecordRoundTrip
import LazyLayers.RecordAgreement
import LazyLayers.RedisGlob
import LazyLayers.RedisKeyspace
import LazyLayers.RedisPatternDeletion
import LazyLayers.RedisPatternFencing
import LazyLayers.RedisNamespaces
import LazyLayers.RedisIndex
import LazyLayers.EventDelivery
import LazyLayers.CircuitBreaker
import LazyLayers.RetryQueue
import LazyLayers.Tally
import LazyLayers.HandlerQueue
import LazyLayers.RabbitDeliveries
import LazyLayers.RedisSubscription
import LazyLayers.RedisDeliveries
import LazyLayers.Doubles
import LazyLayers.NumberConversion
import LazyLayers.EventCodec
import LazyLayers.MemoryLedger
import LazyLayers.MemoryMap
import LazyLayers.MemoryPressure
import LazyLayers.SlotGate
import LazyLayers.L2OperationGate
import LazyLayers.OriginLoadGate
import LazyLayers.LockOwnership
import LazyLayers.ChargedMap
import LazyLayers.LruCache
import LazyLayers.LruMap
import LazyLayers.MemoryClients
import LazyLayers.HybridLedgers
import LazyLayers.WorkerCache
import LazyLayers.WorkerFencing
import LazyLayers.SafeUtf8
import LazyLayers.RetryBacklog
import LazyLayers.PublishBreaker
import LazyLayers.PressureTarget
import LazyLayers.SharedBudget
import LazyLayers.Joins
import LazyLayers.LegacyEventIds
import LazyLayers.RedisEnumeration
import LazyLayers.RedisInspection
import LazyLayers.WildcardHeads
import LazyLayers.WorkerPatterns
import LazyLayers.HybridReferences
import LazyLayers.HybridInvalidation
import LazyLayers.HybridProvenance
import LazyLayers.HybridSingleFlight
import LazyLayers.RelyGuarantee
import LazyLayers.LeaseFleet
import LazyLayers.LockFleet
import LazyLayers.Binary64
import LazyLayers.KvWire
import LazyLayers.KvStore
