import CcnLite.Core.Fib
import CcnLite.Core.Nonces
import CcnLite.Core.Propagate
import CcnLite.Fwd.Agree
import CcnLite.Fwd.Isolation
import CcnLite.Fwd.Named
import CcnLite.Fwd.Unique
import CcnLite.Fwd.Formed
import CcnLite.Fwd.Aggregate
import CcnLite.Fwd.HopLimit
import CcnLite.Fwd.Faces
import CcnLite.Fwd.Progress
import CcnLite.Pkt.CcnbConfined
import CcnLite.Pkt.CcntlvConfined
import CcnLite.Pkt.NdntlvConfined
import CcnLite.Pkt.NdntlvName
import CcnLite.Core.EditHeap
import CcnLite.Core.Array
import CcnLite.Core.Evict
import CcnLite.Core.ByName
import CcnLite.Core.SockUnion
import CcnLite.Core.Uri
import CcnLite.Pkt.Reencode
import CcnLite.Pkt.CcntlvRoundtrip
import CcnLite.Pkt.CcnbRoundtrip
import CcnLite.Pkt.Builder
import CcnLite.Pkt.CcntlvSpace
import CcnLite.Pkt.CcnbCut
import CcnLite.Pkt.CcnbSpace
import CcnLite.Rpc.Tiling
import CcnLite.Rpc.Stable
import CcnLite.Rpc.Command
import CcnLite.Rpc.Roundtrip
import CcnLite.Rpc.Return
import CcnLite.Frag.Ndntlv
import CcnLite.Frag.Transparent
import CcnLite.Fwd.Frames
import CcnLite.Fwd.Deadlines
import CcnLite.Fwd.Interfaces
import CcnLite.Fwd.Peers
import CcnLite.Utils.Produce
import CcnLite.Utils.Covered
import CcnLite.Utils.HmacSpace
import CcnLite.Utils.Rfc2104
import CcnLite.Mgmt.Prefixreg
import CcnLite.Sched.EventQueue
import CcnLite.Sched.Outlive
import CcnLite.Sched.Outq
import CcnLite.Sched.Rate
import CcnLite.Sched.Ring
import CcnLite.Fwd.Balance
import CcnLite.Fwd.Answers
import CcnLite.Utils.Sha256
import CcnLite.Fwd.Network
import CcnLite.Fwd.Route
import CcnLite.Rpc.Builtin
import CcnLite.Rpc.Unsent
import CcnLite.Rpc.Answer
