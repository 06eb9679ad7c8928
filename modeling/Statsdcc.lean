import Statsdcc.Lib.Transition
import Statsdcc.Lib.Progress
import Statsdcc.Lib.Refinement
import Statsdcc.Lib.Handoff
import Statsdcc.Lib.Custody
import Statsdcc.Lib.Heap
import Statsdcc.Lib.Lifetime
import Statsdcc.Lib.UnorderedMap
import Statsdcc.Lib.Update
import Statsdcc.Lib.CyclicSuccessor
import Statsdcc.Lib.StableSort
import Statsdcc.Lib.OrderStatistics
import Statsdcc.Lib.SizeT
import Statsdcc.Lib.Bytes
import Statsdcc.Lib.Segments
import Statsdcc.Lib.Decimal
import Statsdcc.Lib.Double
import Statsdcc.Lib.Binary64
import Statsdcc.Lib.Scanf
import Statsdcc.Lib.LexicalCast
import Statsdcc.Lib.Printed
import Statsdcc.Lib.Json
import Statsdcc.Lib.JsonWrite
import Statsdcc.Config
import Statsdcc.Ledger
import Statsdcc.Ledger.Line
import Statsdcc.Ledger.Entries
import Statsdcc.Ledger.WellFormed
import Statsdcc.Ledger.Grammar
import Statsdcc.Ledger.Processed
import Statsdcc.Ledger.Percentiles
import Statsdcc.Ledger.Subscripts
import Statsdcc.Ledger.Statistics
import Statsdcc.Ledger.Rates
import Statsdcc.Ledger.Tally
import Statsdcc.Ledger.Balance
import Statsdcc.Ledger.Blanks
import Statsdcc.Consumer
import Statsdcc.Sharding
import Statsdcc.Worker
import Statsdcc.Worker.Lines
import Statsdcc.Destruction
import Statsdcc.Aggregator
import Statsdcc.Accounting
import Statsdcc.Worker.Published
import Statsdcc.Interrupts
import Statsdcc.HttpServer
import Statsdcc.HttpServer.Proc
import Statsdcc.Clock
import Statsdcc.Flushable
import Statsdcc.FlushOrder
import Statsdcc.Delivery
import Statsdcc.Totals
import Statsdcc.Drain
import Statsdcc.Disjoint
import Statsdcc.Gauges
import Statsdcc.Hashring
import Statsdcc.Hashring.Search
import Statsdcc.Hashring.Routing
import Statsdcc.Hashring.Enumeration
import Statsdcc.Hashring.Continuum
import Statsdcc.Hashring.Labels
import Statsdcc.Config.Load
import Statsdcc.Config.Shards
import Statsdcc.Config.ToJson
import Statsdcc.Config.RoundTrip
import Statsdcc.Config.RoundTrip.Aggregator
import Statsdcc.Config.RoundTrip.Proxy
import Statsdcc.Startup
import Statsdcc.Shutdown
import Statsdcc.BackendContainer
import Statsdcc.Carbon
import Statsdcc.Carbon.Paths
import Statsdcc.Report
import Statsdcc.Carbon.Records
import Statsdcc.Carbon.Counts
import Statsdcc.StreamIo
import Statsdcc.Connection
import Statsdcc.Connection.Returns
import Statsdcc.Sockets
import Statsdcc.Stdout
import Statsdcc.UdpServer
import Statsdcc.UdpServer.Lines
import Statsdcc.UdpServer.Loop
import Statsdcc.TcpServer
import Statsdcc.TcpServer.Lines
import Statsdcc.TcpServer.Bounds
import Statsdcc.Repeater
import Statsdcc.Repeater.Gauges
import Statsdcc.Proxy
import Statsdcc.Strings
import Statsdcc.Strings.Erased
import Statsdcc.Cluster
import Statsdcc.Cluster.Amounts
