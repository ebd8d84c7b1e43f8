import DistributedSystems.Library.Behavior
import DistributedSystems.Library.Grouping
import DistributedSystems.Library.Handover
import DistributedSystems.Library.Majority
import DistributedSystems.Library.TermLog
import DistributedSystems.Library.Overlay
import DistributedSystems.Library.Balancing
import DistributedSystems.Library.Linearizability
import DistributedSystems.Library.Service
import DistributedSystems.Library.Nodes
import DistributedSystems.Library.Slice
import DistributedSystems.Raft.Basic
import DistributedSystems.Raft.Handlers
import DistributedSystems.Raft.Cluster
import DistributedSystems.Raft.Memory
import DistributedSystems.Raft.Server
import DistributedSystems.Raft.Theorems.Handlers
import DistributedSystems.Raft.Theorems.Quorum
import DistributedSystems.Raft.Theorems.Election
import DistributedSystems.Raft.Theorems.ApplyStream
import DistributedSystems.Raft.Theorems.CompactedLog
import DistributedSystems.Raft.Theorems.Provenance
import DistributedSystems.Raft.Theorems.Refinement
import DistributedSystems.Raft.Theorems.Simulation
import DistributedSystems.Raft.Theorems.Replication
import DistributedSystems.Raft.Theorems.Safety
import DistributedSystems.Raft.Theorems.Uncompacted
import DistributedSystems.Raft.Theorems.ApplyOrder
import DistributedSystems.Raft.Theorems.Server
import DistributedSystems.Raft.Theorems.Compaction
import DistributedSystems.Raft.Theorems.Reconciliation
import DistributedSystems.Raft.Theorems.Reordering
import DistributedSystems.Raft.Theorems.Bookkeeping
import DistributedSystems.Raft.Theorems.Memory
import DistributedSystems.Raft.Theorems.Live
import DistributedSystems.Demux.Basic
import DistributedSystems.Demux.Theorems.Calls
import DistributedSystems.Labrpc.Network
import DistributedSystems.Labrpc.Theorems.Network
import DistributedSystems.Tester.Group
import DistributedSystems.Tester.Theorems.Group
import DistributedSystems.Raft.Daemon
import DistributedSystems.Raft.Theorems.Daemon
import DistributedSystems.Raft.Test
import DistributedSystems.Raft.Theorems.Test
import DistributedSystems.KvSrv
import DistributedSystems.Clerk.Basic
import DistributedSystems.Clerk.Get
import DistributedSystems.Clerk.Theorems.Call
import DistributedSystems.Clerk.Theorems.Put
import DistributedSystems.Clerk.Theorems.Get
import DistributedSystems.KvTest.Basic
import DistributedSystems.KvTest.Theorems.Linearizability
import DistributedSystems.Lock.Basic
import DistributedSystems.Lock.Theorems.Exclusion
import DistributedSystems.Lock.Theorems.Release
import DistributedSystems.KvRaft
import DistributedSystems.Rsm.Basic
import DistributedSystems.Rsm.Replicated
import DistributedSystems.Rsm.Theorems.Submit
import DistributedSystems.Rsm.Theorems.Replay
import DistributedSystems.Rsm.Theorems.Replicated
import DistributedSystems.KvRaft.Servers
import DistributedSystems.KvRaft.Stack
import DistributedSystems.KvRaft.Theorems.Servers
import DistributedSystems.KvRaft.Theorems.Stack
import DistributedSystems.Shardcfg.Basic
import DistributedSystems.Shardcfg.Theorems.Rebalance
import DistributedSystems.Shardcfg.Theorems.Membership
import DistributedSystems.ShardKv.Group
import DistributedSystems.ShardKv.Controller
import DistributedSystems.ShardKv.Lease
import DistributedSystems.ShardKv.Service
import DistributedSystems.ShardKv.Theorems.Group
import DistributedSystems.ShardKv.Theorems.Controller
import DistributedSystems.ShardKv.Theorems.Chain
import DistributedSystems.ShardKv.Theorems.Handover
import DistributedSystems.ShardKv.Theorems.Ownership
import DistributedSystems.ShardKv.Theorems.Migration
import DistributedSystems.ShardKv.Theorems.Service
import DistributedSystems.ShardKv.Theorems.Recovery
import DistributedSystems.ShardKv.Theorems.Fencing
import DistributedSystems.ShardKv.Theorems.Lease
import DistributedSystems.Mr.Coordinator
import DistributedSystems.Mr.Theorems.Coordinator
import DistributedSystems.Mr.Theorems.Queues
import DistributedSystems.Mr.Theorems.Requeue
import DistributedSystems.Mr.Worker
import DistributedSystems.Mr.MapReduce
import DistributedSystems.Mr.Theorems.Text
import DistributedSystems.Mr.Theorems.RoundTrip
import DistributedSystems.Mr.Theorems.Worker
import DistributedSystems.Mr.Theorems.Sequential
import DistributedSystems.Mr.Theorems.Counts
import DistributedSystems.Mr.Theorems.MapReduce
import DistributedSystems.Mr.Theorems.Progress
