import DzIpc.Common.QueueOrder
import DzIpc.Common.QueueWait
import DzIpc.Control.Directory
import DzIpc.Control.Generations
import DzIpc.Control.Occupancy
import DzIpc.Control.PeerCount
import DzIpc.Control.PeerSlots
import DzIpc.Control.SegmentNames
import DzIpc.Flat.Builder
import DzIpc.Flat.BuilderChunks
import DzIpc.Flat.BuilderLost
import DzIpc.Flat.CopyBound
import DzIpc.Flat.PyDecoder
import DzIpc.Flat.PyView
import DzIpc.Flat.RoundTrip
import DzIpc.LibIpc.Connections
import DzIpc.LibIpc.CountSem
import DzIpc.LibIpc.IdPoolCells
import DzIpc.LibIpc.MultiRingPops
import DzIpc.LibIpc.RecvThread
import DzIpc.LibIpc.RecvWhole
import DzIpc.LibIpc.RingFull
import DzIpc.LibIpc.RobustMutexOwner
import DzIpc.LibIpc.RwLock
import DzIpc.LibIpc.SendCall
import DzIpc.LibIpc.SenderFlag
import DzIpc.LibIpc.SharedObject
import DzIpc.LibIpc.Sniffer
import DzIpc.LibIpc.UnicastManyOrder
import DzIpc.LibIpc.UnicastRing
import DzIpc.LibIpc.WaitFor
import DzIpc.LibIpc.Waiters
import DzIpc.Logger.Logged
import DzIpc.MsgFiles.BuildOrder
import DzIpc.MsgFiles.DefaultMessage
import DzIpc.PubSub.FastPath
import DzIpc.PubSub.Loans
import DzIpc.PubSub.PathOrder
import DzIpc.Publish.AllOrNothing
import DzIpc.SerCli.Handshake
import DzIpc.SerCli.HandshakeFrames
import DzIpc.SerCli.PathSwitch
import DzIpc.SerCli.RpcReplies
import DzIpc.TopicCat.Echo
import DzIpc.TopicCat.Screens
import DzIpc.Udp.Crc32cPaths
import DzIpc.Udp.Delivery
import DzIpc.Udp.FrameHistory
import DzIpc.Udp.GivingUp
import DzIpc.Udp.Placement
import DzIpc.Udp.RateRecovery
import DzIpc.Udp.SniffComplete
import DzIpc.Wire.Accept
import DzIpc.Wire.Deframe
import DzIpc.Wire.GenericRoundTrip
import DzIpc.Wire.GenericSafety
import DzIpc.Wire.PagedWriter
import DzIpc.Wire.RoundTrip
import DzIpc.Wire.Safety
