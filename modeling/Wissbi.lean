import Wissbi.Runs
import Wissbi.ThreadPool
import Wissbi.Framing
import Wissbi.FiniteMaps
import Wissbi.FileTree
import Wissbi.FileEntries
import Wissbi.Descriptors
import Wissbi.Buffers
import Wissbi.Streams
import Wissbi.TcpPolicy
import Wissbi.TcpFraming
import Wissbi.TcpRoundTrip
import Wissbi.LinePolicy
import Wissbi.LengthPolicy
import Wissbi.LengthFrames
import Wissbi.SysvMqPolicy
import Wissbi.Util
import Wissbi.Logger
import Wissbi.SubEntries
import Wissbi.Registration
import Wissbi.Rendezvous
import Wissbi.QueueKeys
import Wissbi.TeePolicy
import Wissbi.TeeRefinement
import Wissbi.BlockingPuts
import Wissbi.MsgFilter
import Wissbi.FilterTrace
import Wissbi.LineFormat
import Wissbi.LogCollector
import Wissbi.GetBounds
import Wissbi.ProducerFilter
import Wissbi.PublisherMachine
import Wissbi.ProducerRefinement
import Wissbi.PublisherSteps
import Wissbi.PublisherWait
import Wissbi.PublisherConservation
import Wissbi.PublisherPending
import Wissbi.StringPolicy
import Wissbi.StringHistory
import Wissbi.MetricReporter
import Wissbi.MetricCollector
import Wissbi.MetricCounts
import Wissbi.LogTransformer
import Wissbi.LogColumnizer
import Wissbi.FilterDaemons
import Wissbi.RunMachine
import Wissbi.RunSteps
import Wissbi.ReportHands
import Wissbi.ConcurrentReports
import Wissbi.FinalReport
import Wissbi.DropReports
import Wissbi.MetaDaemon
import Wissbi.ReaperPass
import Wissbi.Heartbeats
import Wissbi.MetricPending
import Wissbi.ConnectorMachine
import Wissbi.ConnectorInvariants
import Wissbi.ConnectorLockout
import Wissbi.ConnectorPass
import Wissbi.QueueObjects
import Wissbi.QueueOwners
import Wissbi.QueueTeardown
import Wissbi.SocketOwners
import Wissbi.QueueTopics
import Wissbi.Discovery
import Wissbi.FlowDump
import Wissbi.DirListing
import Wissbi.BranchIsolation
import Wissbi.PoisonMessages
import Wissbi.Count
import Wissbi.Interleavings
import Wissbi.LoggerThreads
import Wissbi.DeliveryMachine
import Wissbi.Delivery
import Wissbi.DeliveryProgress
import Wissbi.RecordMachine
import Wissbi.RecordWindow
import Wissbi.RecordExit
