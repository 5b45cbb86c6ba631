import QeoCore.SfrrOrder
import QeoCore.SfrrAck
import QeoCore.RxMsg
import QeoCore.SfrwCursor
import QeoCore.SfrwHeartbeat
import QeoCore.PolicyLeak
import QeoCore.PolicyRollback
import QeoCore.AccessConnect
import QeoCore.CryptoCounter
import QeoCore.CryptoAccept
import QeoCore.DirectoryRun
import QeoCore.Qos
import QeoCore.SqlFilter
import QeoCore.TimerRun
import QeoCore.GuardLease
import QeoCore.CacheAcks
import QeoCore.CacheGet
import QeoCore.CacheLifespan
import QeoCore.CacheOwner
import QeoCore.FragRun
import QeoCore.NackFrag
import QeoCore.SfrrGaps
import QeoCore.SfrwAcks
import QeoCore.SfrwGaps
import QeoCore.Handles
import QeoCore.Nmatch
import QeoCore.ForwardDests
import QeoCore.FwdClient
import QeoCore.FwdServer
import QeoCore.ForwardLearn
import QeoCore.InfoReply
import QeoCore.PeerEnd
import QeoCore.Spdp
