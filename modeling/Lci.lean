import Lci.Lib.Matcher
import Lci.Hash.Refine
import Lci.Hash.Rows
import Lci.Proto.TagMatch
import Lci.Lib.Network
import Lci.Lib.Rounds
import Lci.Coll.Sched
import Lci.Coll.Engine
import Lci.Coll.Refine
import Lci.Coll.Plan
import Lci.Coll.Allreduce
import Lci.Coll.Barrier
import Lci.Server.Serve
import Lci.Server.Api
import Lci.Server.Verbs
import Lci.Server.Frame
import Lci.Server.Psm2
import Lci.Coll.Bcast
import Lci.Server.Layout
import Lci.Server.SendQueue
import Lci.Server.Demux
import Lci.Server.Keys
import Lci.Lib.Ring
import Lci.Pool.Steal
import Lci.Pool.Local
import Lci.Server.Backpressure
import Lci.Server.CompQ
import Lci.Server.Outcome
import Lci.Coll.Outstanding
import Lci.Lib.Ledger
import Lci.Server.Places
import Lci.Server.Handover
import Lci.Server.Calls
import Lci.Server.Conserve
import Lci.Server.Registered
import Lci.Lib.Merge
import Lci.Server.LongPut
import Lci.Server.Connect
import Lci.Server.Partition
import Lci.Server.PoolTag
import Lci.Server.Extent
import Lci.Coll.Progress
import Lci.Coll.InPlace
import Lci.Coll.Link
import Lci.Server.Landing
import Lci.Lib.History
import Lci.Server.Rendezvous
import Lci.Server.Effect
import Lci.Server.Job
import Lci.Server.Parties
import Lci.Server.Delivery
import Lci.Server.Arrivals
import Lci.Server.Completions
import Lci.Lib.Gf2
import Lci.Proto.Crc
import Lci.Lib.Stdio
import Lci.Server.Address
import Lci.Pool.Lcrq
import Lci.Server.Records
import Lci.Server.ExactlyOnce
