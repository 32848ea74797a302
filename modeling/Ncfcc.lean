import Ncfcc.Library.Run
import Ncfcc.Library.TimedSet
import Ncfcc.Library.Scheduler
import Ncfcc.Library.KeyedList
import Ncfcc.Library.Iteration
import Ncfcc.Name
import Ncfcc.Nfd.CityHash
import Ncfcc.Library.Chains
import Ncfcc.Nfd.Table.NameTree
import Ncfcc.Nfd.Table.NameTreeTable
import Ncfcc.Nfd.Table.NameTreeInvariant
import Ncfcc.Nfd.Table.LongestPrefixMatch
import Ncfcc.Nfd.Table.NameTreeEnumeration
import Ncfcc.Utils.Trie
import Ncfcc.Utils.TrieWithPolicy
import Ncfcc.Cs.ContentStore
import Ncfcc.Cs.Policies
import Ncfcc.Cs.Lookup
import Ncfcc.Cs.ContentStoreImpl
import Ncfcc.Cs.PolicyContainers
import Ncfcc.Cs.AddOutcomes
import Ncfcc.Cs.LifetimeStats
import Ncfcc.Cs.Freshness
import Ncfcc.Library.Paths
import Ncfcc.Helper.GlobalRouting
import Ncfcc.Helper.CalculateRoutes
import Ncfcc.Helper.AllPossibleRoutes
import Ncfcc.Helper.Alternatives
import Ncfcc.Nfd.Rib.Rib
import Ncfcc.Nfd.Rib.FibUpdater
import Ncfcc.Nfd.Rib.FibCommands
import Ncfcc.Nfd.Rib.Retries
import Ncfcc.Nfd.Rib.UpdateQueue
import Ncfcc.Nfd.Rib.RibTree
import Ncfcc.Nfd.Rib.Assertions
import Ncfcc.Nfd.Rib.Inheritance
import Ncfcc.Nfd.Rib.Traversal
import Ncfcc.Nfd.Rib.Effect
import Ncfcc.Nfd.Rib.RouteCosts
import Ncfcc.Nfd.Rib.Ancestors
import Ncfcc.Nfd.Rib.Consistency
import Ncfcc.Nfd.Rib.Registration
import Ncfcc.Nfd.Rib.Unregistration
import Ncfcc.Nfd.Rib.UpdateRun
import Ncfcc.Nfd.Rib.CaptureCount
import Ncfcc.Nfd.Rib.InheritedRecords
import Ncfcc.Nfd.Rib.InheritedRoutes
import Ncfcc.Nfd.Rib.FaceMap
import Ncfcc.Nfd.Rib.Expiration
import Ncfcc.Nfd.Table.FibEntry
import Ncfcc.Apps.Simulator
import Ncfcc.Apps.RttEstimator
import Ncfcc.Apps.Consumer
import Ncfcc.Apps.WindowConsumer
import Ncfcc.Apps.InFlight
import Ncfcc.Apps.SendEvents
import Ncfcc.Apps.Retransmission
import Ncfcc.Apps.SendWindow
import Ncfcc.Apps.Transmissions
import Ncfcc.Apps.DelayTraces
import Ncfcc.Apps.ConsumerBatches
import Ncfcc.Apps.KarnRule
import Ncfcc.Apps.BatchBudget
import Ncfcc.Apps.CongestionWindow
import Ncfcc.Nfd.Table.DeadNonceList
import Ncfcc.Nfd.Table.NonceRetention
import Ncfcc.Nfd.Table.DeadNonceTimers
import Ncfcc.Nfd.Table.PitEntry
import Ncfcc.Nfd.Fw.Forwarder
import Ncfcc.Nfd.Fw.PitTimers
import Ncfcc.Nfd.Fw.Changes
import Ncfcc.Nfd.Fw.Scope
import Ncfcc.Nfd.Fw.LoopDetection
import Ncfcc.Library.Octets
import Ncfcc.Encoding.Tlv
import Ncfcc.Nfd.Face.Ndnlp
import Ncfcc.Nfd.Face.Fragments
import Ncfcc.Library.Gathering
import Ncfcc.Nfd.Face.Reassembly
import Ncfcc.Nfd.Face.Delivery
import Ncfcc.Nfd.Table.InterestMatch
import Ncfcc.Nfd.Table.PitSearch
import Ncfcc.Nfd.Table.Tables
import Ncfcc.Nfd.Table.NameTreeAttachments
import Ncfcc.Nfd.Table.TableMoves
import Ncfcc.Nfd.Table.EntryNumbers
import Ncfcc.Nfd.Table.EntryCounts
import Ncfcc.Nfd.Table.Leaves
import Ncfcc.Nfd.Table.NextHops
import Ncfcc.Nfd.Table.DataMatches
import Ncfcc.Nfd.Table.NameTreeSubtree
import Ncfcc.Library.LongestPrefix
import Ncfcc.Nfd.Table.StrategyChoice
import Ncfcc.Nfd.Table.StrategyChanges
import Ncfcc.Nfd.Table.Cs
import Ncfcc.Nfd.Table.PriorityFifo
import Ncfcc.Nfd.Table.CsQueues
import Ncfcc.Apps.AppFace
import Ncfcc.Nfd.Fw.PickInterest
import Ncfcc.Nfd.Fw.DataDelivery
import Ncfcc.Nfd.Fw.PitLookup
import Ncfcc.Library.OrderedSearch
import Ncfcc.Nfd.Table.CsOrder
import Ncfcc.Nfd.Table.CsSearch
import Ncfcc.Nfd.Table.MeasurementsTimers
import Ncfcc.Nfd.Table.MeasurementsLifetimes
import Ncfcc.Nfd.Fw.NccStrategy
import Ncfcc.Nfd.Fw.NccTimers
import Ncfcc.Nfd.Table.EntryFrames
import Ncfcc.Nfd.Fw.AccessMeasurements
import Ncfcc.Library.TextInput
import Ncfcc.Utils.Topology.AnnotatedTopologyReader
import Ncfcc.Utils.Topology.SavedTopology
import Ncfcc.Model.NetDeviceFace
import Ncfcc.Model.HopCount
import Ncfcc.Nfd.Fw.BestRouteStrategy2
import Ncfcc.Nfd.Fw.NccMeasurements
import Ncfcc.Nfd.Fw.NccBounds
import Ncfcc.Nfd.Rib.PendingRemoval
import Ncfcc.Nfd.Rib.UpdatedRoutes
import Ncfcc.Nfd.Face.PacketGrammar
import Ncfcc.Nfd.Face.SlicerArithmetic
import Ncfcc.Nfd.Face.PartialMessages
import Ncfcc.Library.Ranked
import Ncfcc.Nfd.Table.Lru
import Ncfcc.Cs.HandedNodes
import Ncfcc.Cs.Victims
import Ncfcc.Library.AdjacencyList
import Ncfcc.Library.Components
import Ncfcc.Utils.Topology.RocketfuelMapReader
import Ncfcc.Utils.Topology.RocketfuelComponents
import Ncfcc.Utils.Topology.RocketfuelRanks
import Ncfcc.Utils.Topology.RocketfuelBackbone
import Ncfcc.Utils.Topology.RocketfuelTopology
import Ncfcc.Utils.PrefixMatchIf
import Ncfcc.Utils.TrieIterator
import Ncfcc.Cs.Enumeration
import Ncfcc.Utils.TrieClearIf
import Ncfcc.Library.TextStream
import Ncfcc.Utils.Batches
import Ncfcc.Library.Duplicates
import Ncfcc.Utils.Topology.RocketfuelWeightsReader
import Ncfcc.Utils.Topology.DuplicateLinks
import Ncfcc.Utils.Topology.LinkAttributes
import Ncfcc.Library.Emission
import Ncfcc.Nfd.Table.NameTreeVisits
import Ncfcc.Library.DepthFirst
import Ncfcc.Helper.InstallRouters
import Ncfcc.Library.CString
import Ncfcc.Library.MatchOffsets
import Ncfcc.Utils.Topology.MapsLine
import Ncfcc.Utils.Topology.LineFields
import Ncfcc.Utils.Topology.MapAdditions
import Ncfcc.Utils.Topology.ListedNeighbours
import Ncfcc.Apps.EstimatorRuns
import Ncfcc.Library.Shares
import Ncfcc.Apps.ConsumerZipfMandelbrot
import Ncfcc.Library.Marks
import Ncfcc.NdnCxx.Component
import Ncfcc.NdnCxx.StringHelper
import Ncfcc.NdnCxx.NameUri
import Ncfcc.NdnCxx.Exclude
import Ncfcc.NdnCxx.ExcludeWire
import Ncfcc.NdnCxx.Successor
import Ncfcc.Nfd.Table.NameSuccessor
import Ncfcc.Library.Framing
import Ncfcc.Nfd.Face.StreamFace
import Ncfcc.Library.TaskOrder
import Ncfcc.NdnCxx.Face
import Ncfcc.NdnCxx.NamingConventions
import Ncfcc.Nfd.Core.SegmentPublisher
import Ncfcc.NdnCxx.SegmentFetcher
import Ncfcc.NdnCxx.InMemoryStorage
import Ncfcc.NdnCxx.InMemoryQueue
import Ncfcc.Encoding.Record
import Ncfcc.NdnCxx.InterestWire
import Ncfcc.NdnCxx.DataWire
