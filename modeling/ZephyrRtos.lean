import ZephyrRtos.Coap.Append
import ZephyrRtos.EventObj.Runs
import ZephyrRtos.Fcb.Runs
import ZephyrRtos.HashMap.OaLpRuns
import ZephyrRtos.HashMap.ScRuns
import ZephyrRtos.Json.Integers
import ZephyrRtos.Msgq.Runs
import ZephyrRtos.Mutex.InheritanceRuns
import ZephyrRtos.Nvs.Runs
import ZephyrRtos.Pbuf.MpscRuns
import ZephyrRtos.Pbuf.SpscRuns
import ZephyrRtos.Pipe.Runs
import ZephyrRtos.Poll.Order
import ZephyrRtos.Queue.Runs
import ZephyrRtos.Quic.PeerCids
import ZephyrRtos.Quic.WireNumbers
import ZephyrRtos.Sched.PriorityQRuns
import ZephyrRtos.Sys.Cobs
import ZephyrRtos.Sys.RbRuns
import ZephyrRtos.Sys.RingBufRuns
import ZephyrRtos.Tcp.NewReno
import ZephyrRtos.Timeout.RemoveFrame
import ZephyrRtos.Timeout.TickClock
import ZephyrRtos.Timeout.WheelWakeup
import ZephyrRtos.Wireguard.Keypairs
import ZephyrRtos.Work.Cancels
import ZephyrRtos.Work.Timers
