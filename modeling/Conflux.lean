import Conflux.Main
import Conflux.StatusApi
import Conflux.Proofs.Json.Equality
import Conflux.Proofs.Merge
import Conflux.Proofs.Holdings
import Conflux.Proofs.Leaf
import Conflux.Proofs.Aggregator.Run
import Conflux.Proofs.Aggregator.Blocks
import Conflux.Proofs.Aggregator.Gate
import Conflux.Proofs.Aggregator.Order
import Conflux.Proofs.Aggregator.Alert
import Conflux.Proofs.Crew
import Conflux.Proofs.Crew.Wakeup
import Conflux.Proofs.Commit
import Conflux.Proofs.Fragment
import Conflux.Proofs.Assembly
import Conflux.Proofs.Extent
import Conflux.Proofs.Assembler
import Conflux.Proofs.Assembler.Arrivals
import Conflux.Proofs.Assembler.Reassembly
import Conflux.Proofs.Assembler.Delivery
import Conflux.Proofs.Assembler.Provenance
import Conflux.Proofs.Assembler.Suppression
import Conflux.Proofs.Assembler.Records
import Conflux.Proofs.RecentKeys
import Conflux.Proofs.Lineage
import Conflux.Proofs.Message
import Conflux.Proofs.Pipeline.Run
import Conflux.Proofs.Pipeline.Origins
import Conflux.Proofs.Pipeline.Snapshot
import Conflux.Proofs.Pipeline.LogEnd
import Conflux.Proofs.Reach
import Conflux.Proofs.Pipeline.Ascent
import Conflux.Proofs.Json.ReadBack
import Conflux.Proofs.Files
import Conflux.Proofs.Files.Replacement
import Conflux.Proofs.OffsetStore
import Conflux.Proofs.Assembler.Family
import Conflux.Proofs.Pipeline.History
import Conflux.Proofs.Pipeline.Restart
import Conflux.Proofs.Aggregator.Sources
import Conflux.Proofs.Pipeline.Routing
import Conflux.Proofs.Aggregator.Totals
import Conflux.Proofs.Pipeline.Station
import Conflux.Proofs.Rehearsal
import Conflux.Proofs.Pipeline.Ledger
import Conflux.Proofs.Content
import Conflux.Proofs.Json.Compact
import Conflux.Proofs.Json.Exact
import Conflux.Proofs.Post
import Conflux.Proofs.Wrapping
import Conflux.Proofs.Assembler.Quiet
import Conflux.Proofs.Pipeline.Newest
import Conflux.Proofs.Requirement
import Conflux.Proofs.Trials
import Conflux.Proofs.Aggregator.Budget
import Conflux.Proofs.Aggregator.Drain
import Conflux.Proofs.Decoding
import Conflux.Proofs.Outbox
import Conflux.Proofs.Version.Text
import Conflux.Proofs.Assembler.Containment
import Conflux.Proofs.Commit.Canonical
import Conflux.Proofs.Fragment.Datagram
import Conflux.Proofs.Fragment.Cutting
import Conflux.Proofs.Registry.Grounded
import Conflux.Proofs.Heap
import Conflux.Proofs.ReadyQueue.Heaped
import Conflux.Proofs.Sink
import Conflux.Proofs.Sink.Places
import Conflux.Proofs.Config.Layers
