import Redis.Aof.Check
import Redis.Aof.Flush
import Redis.Bitops.Bitop
import Redis.Bitops.Bitpos
import Redis.Blocked.Conserve
import Redis.Blocked.Queued
import Redis.Bus.Epoch
import Redis.Bus.Graph
import Redis.Bus.Slots
import Redis.Bus.Vote
import Redis.Cluster.Election
import Redis.Commands.Sort
import Redis.Db.Carry
import Redis.Effects.Replay
import Redis.Eviction
import Redis.Expire.Exact
import Redis.Fdset
import Redis.Hyperloglog.Elements
import Redis.Hyperloglog.Sums
import Redis.Hyperloglog.Tolerant
import Redis.Input.Inline
import Redis.Input.Runs
import Redis.Intset.Runs
import Redis.Keyscan
import Redis.Keyspace.Hashslot
import Redis.Keyspace.Random
import Redis.Multi.Tables
import Redis.Output.Counter
import Redis.Propagate.Blocks
import Redis.Pubsub.Publish
import Redis.Rdb.Roundtrip
import Redis.Replication.Offset
import Redis.Replication.Transfer
import Redis.Replication.Wait
import Redis.Sentinel.Election
import Redis.Sentinel.Vote
import Redis.Sets.Smove
import Redis.Skiplist.Slots
import Redis.Trib.Replicas
import Redis.Trib.Reshard
import Redis.Zipmap.Refine
import Redis.Zsetops.Command
