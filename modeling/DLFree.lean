import DLFree.TransitionRun
import DLFree.ChannelDependency
import DLFree.MsgInfo
import DLFree.ConnectRun
import DLFree.Frames
import DLFree.Links
import DLFree.Network
import DLFree.Handshake
import DLFree.DijkstraOptimal
import DLFree.Delivery
import DLFree.Planner
import DLFree.PlannerForests
import DLFree.GxpGateway
import DLFree.GxpConnMat
import DLFree.Reassembly
import DLFree.Framing
import DLFree.HandlerLoop
import DLFree.RouterPriority
import DLFree.RouterBfsTrees
import DLFree.Topology
import DLFree.XmlParser
import DLFree.XmlGenerator
import DLFree.ExceptEnds
import DLFree.PlannerEntries
import DLFree.TopologyOverlay
import DLFree.RtableStat
import DLFree.SimulatorStats
import DLFree.SimulatorRefine
import DLFree.RtExchange
import DLFree.UnionSetDepth
import DLFree.LocalQueue
import DLFree.VectorBuf
import DLFree.VectorSort
import DLFree.LinkedCells
import DLFree.HashMap
import DLFree.CellRing
import DLFree.LinkedList
import DLFree.ForwardProgress
import DLFree.ForwardDelivery
import DLFree.GxpNetwork
import DLFree.ExchangeForward
import DLFree.ExchangeReturns
import DLFree.MessageDelivery
import DLFree.AppCollective
import DLFree.AppRun
import DLFree.AppReturns
