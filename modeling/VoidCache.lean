import VoidCache.Lib.Cyclic
import VoidCache.Lib.Cell
import VoidCache.Lib.Linked
import VoidCache.Lib.Machine
import VoidCache.Lib.SlotSum
import VoidCache.Lib.Treiber
import VoidCache.Lib.Seqlock
import VoidCache.Lib.Bytes
import VoidCache.Lib.CText
import VoidCache.Lib.Crc
import VoidCache.Lib.BitString
import VoidCache.Lib.Sha256
import VoidCache.Lib.Scan
import VoidCache.Lib.Calls
import VoidCache.Lib.Answers
import VoidCache.Lib.WordOps
import VoidCache.Lib.Serial
import VoidCache.Lib.Protocol
import VoidCache.Lib.TestAndSet
import VoidCache.Hash
import VoidCache.HashReads
import VoidCache.HashCoverage
import VoidCache.Slab
import VoidCache.SlabConcurrent
import VoidCache.Entry
import VoidCache.Ownership
import VoidCache.Shard.Basic
import VoidCache.Shard.Find
import VoidCache.Shard.Insert
import VoidCache.Shard.Evict
import VoidCache.Shard.FastPath
import VoidCache.Wal
import VoidCache.Cache.Basic
import VoidCache.Cache.Locked
import VoidCache.Cache.Build
import VoidCache.Cache.Invariant
import VoidCache.Cache.Ops
import VoidCache.Cache.Create
import VoidCache.Cache.Runs
import VoidCache.Cache.SlabUse
import VoidCache.Cache.Uniqueness
import VoidCache.Cache.LastWrite
import VoidCache.Cache.Occupancy
import VoidCache.Cache.ReadYourWrites
import VoidCache.Cache.Recovery
import VoidCache.Cache.View
import VoidCache.Cache.SlabBlocks
import VoidCache.Cache.LogOrder
import VoidCache.Cache.TwoStepGet
import VoidCache.Cache.Accounting
import VoidCache.Cache.WriteSections
import VoidCache.Cache.FastGet
import VoidCache.Cache.ProbeDist
import VoidCache.Net.Parse
import VoidCache.Net.Grammar
import VoidCache.Net.Arguments
import VoidCache.Net.Encode
import VoidCache.Net.Buffer
import VoidCache.Net.Grow
import VoidCache.Net.Reply
import VoidCache.Net.Auth
import VoidCache.Net.Digest
import VoidCache.Net.Host
import VoidCache.Net.Conn
import VoidCache.Net.Handlers
import VoidCache.Net.Behaviour
import VoidCache.Net.OneReply
import VoidCache.Net.Server
import VoidCache.Net.Worker
import VoidCache.Net.Access
import VoidCache.Net.Version
import VoidCache.Net.Store
import VoidCache.Net.Keys
import VoidCache.Net.Scan
import VoidCache.Net.Wire
import VoidCache.Net.KeyMap
import VoidCache.Net.Atomicity
import VoidCache.Net.SetNx
import VoidCache.Net.WriteReply
import VoidCache.Net.Counter
import VoidCache.Net.Decoders
import VoidCache.Net.Typed
import VoidCache.Net.Expiry
import VoidCache.Lib.Words
import VoidCache.Net.AclFile
import VoidCache.Cli.Typed
import VoidCache.Lib.Peek
import VoidCache.Net.Login
import VoidCache.Cli.Lines
import VoidCache.Cli.Reply
import VoidCache.Cluster.Slots
import VoidCache.Cluster.SlotCrc
import VoidCache.Cluster.Socket
import VoidCache.Cluster.Topology
import VoidCache.Cluster.ReadToEnd
import VoidCache.Cluster.TopologyStores
import VoidCache.Cluster.Client
import VoidCache.Cluster.Command
import VoidCache.Cluster.Routing
import VoidCache.Cluster.InStep
import VoidCache.Cluster.RoutingTable
import VoidCache.Cluster.Refresh
import VoidCache.Cluster.Redirect
import VoidCache.Lib.EdgeTriggered
import VoidCache.Lib.Inevitable
import VoidCache.Net.EventLoop
import VoidCache.Net.Settles
import VoidCache.Net.LoopRefines
import VoidCache.Net.Capacity
import VoidCache.Lib.Evaluates
import VoidCache.Net.Queries
import VoidCache.Net.KvServer
import VoidCache.Lib.Reads
import VoidCache.Cli.Waiting
import VoidCache.Cli.Tokenize
import VoidCache.Cli.Dialogue
import VoidCache.Lib.Contract
import VoidCache.Net.ConnPool
import VoidCache.Net.ConnHolds
import VoidCache.Net.Workers
