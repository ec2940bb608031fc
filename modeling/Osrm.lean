import Osrm.Lib.Blocks
import Osrm.Lib.Walk
import Osrm.Lib.Elimination
import Osrm.Lib.KeyedQueue
import Osrm.Lib.LabelSetting
import Osrm.Lib.Overlay
import Osrm.Util.Typedefs
import Osrm.Util.DynamicGraph
import Osrm.Contractor.ContractorGraph
import Osrm.Contractor.ContractNode
import Osrm.Contractor.GraphContractor
import Osrm.Contractor.Distances
import Osrm.Contractor.Search
import Osrm.Engine.Ch.RoutingBase
import Osrm.Engine.Ch.Search
import Osrm.Contractor.Shortcuts
import Osrm.Engine.Ch.Unpack
import Osrm.Engine.LiveDataStore
import Osrm.Engine.TrafficAggregator
import Osrm.Engine.LiveTraffic
import Osrm.Engine.AggregationThreads
import Osrm.Engine.PhantomNode
import Osrm.Partitioner.MultiLevelPartition
import Osrm.Partitioner.MultiLevelGraph
import Osrm.Partitioner.CellStorage
import Osrm.Customizer.CellCustomizer
import Osrm.Customizer.CellDistances
import Osrm.Engine.Mld.RoutingBase
import Osrm.Engine.Mld.Overlay
import Osrm.Engine.Mld.Search
import Osrm.Engine.Mld.Unpack
import Osrm.Engine.Mld.Route
import Osrm.Util.Permutation
import Osrm.Util.DynamicGraphArray
import Osrm.Util.QueryHeap
import Osrm.Util.IndexedQueue
import Osrm.Protozero.Varint
import Osrm.Protozero.Pbf
import Osrm.Engine.TrafficProtobuf
import Osrm.Util.DynamicGraphBlocks
import Osrm.Util.DynamicGraphLayout
import Osrm.Util.Multigraph
import Osrm.Engine.GeospatialQuery
import Osrm.Engine.AnnotatePath
import Osrm.Engine.RouteWeight
import Osrm.Contractor.GraphContractorAdaptors
import Osrm.Engine.Ch.Route
import Osrm.Engine.LiveRoutes
import Osrm.Engine.PolylineCompressor
import Osrm.Engine.Base64
import Osrm.Engine.Hint
import Osrm.Engine.InternalRouteResult
import Osrm.Engine.HiddenMarkovModel
import Osrm.Engine.MapMatching
import Osrm.Engine.MatchParametersTidy
import Osrm.Engine.MatchPlugin
import Osrm.Extractor.CompressedEdgeContainer
import Osrm.Extractor.GraphCompressor
import Osrm.Lib.Chain
import Osrm.Extractor.CompressedChains
import Osrm.Extractor.SignalPenalties
import Osrm.Engine.TripBruteForce
import Osrm.Engine.TripPlugin
import Osrm.Lib.JsonGrammar
import Osrm.Util.JsonRenderer
import Osrm.Util.OpeningHours
import Osrm.Lib.BitFields
import Osrm.Lib.Swar
import Osrm.Util.PackedVector
import Osrm.Util.GroupBlocks
import Osrm.Util.IndexedData
import Osrm.Updater.SegmentUpdate
import Osrm.Updater.Updater
import Osrm.Updater.Outcome
import Osrm.Updater.ConditionalTurns
import Osrm.Updater.Consistency
import Osrm.Lib.PackedTree
import Osrm.Util.StaticRTree
import Osrm.Util.StaticRTreeLevels
import Osrm.Util.StaticRTreeSearch
import Osrm.Lib.UnitFlow
import Osrm.Partitioner.DinicMaxFlow
import Osrm.Partitioner.DinicLevels
import Osrm.Partitioner.DinicPaths
import Osrm.Partitioner.DinicMinCut
import Osrm.Partitioner.InertialFlow
import Osrm.Partitioner.PackedPartition
import Osrm.Engine.Mld.QueryLevel
import Osrm.Lib.BestFirst
import Osrm.Util.StaticRTreeNearest
import Osrm.Engine.TrafficUpdater
import Osrm.Updater.CSVFilesParser
import Osrm.Storage.SharedMonitor
import Osrm.Extractor.ConnectivityChecksum
