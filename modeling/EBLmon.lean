import EBLmon.Lib.Machine
import EBLmon.Ebl.Decode
import EBLmon.Lib.Checksum
import EBLmon.Lib.Framing
import EBLmon.Ebl.Packet
import EBLmon.Ebl.Refine
import EBLmon.Ebl.Verdict
import EBLmon.Ebl.Hunt
import EBLmon.Ebl.Account
import EBLmon.Ebl.Resync
import EBLmon.Lib.Rounding
import EBLmon.Ebl.Gauges
import EBLmon.Ebl.TroubleCodes
import EBLmon.Ebl.History
import EBLmon.Ebl.Noise
import EBLmon.Ebl.GaugeRange
import EBLmon.Ui.Tick
import EBLmon.Ui.TextWidth
import EBLmon.Board.Ring
import EBLmon.Board.Receive
import EBLmon.Os.EventFlag
import EBLmon.Board.Comms
import EBLmon.Lib.Deque
import EBLmon.Usr.RingBuffer
import EBLmon.Usr.Cbuf
import EBLmon.Os.Services
import EBLmon.Os.System
import EBLmon.Os.Coherent
import EBLmon.Os.Mutex
import EBLmon.Os.Channel
import EBLmon.Lib.Latch
import EBLmon.Os.Flags
import EBLmon.Os.Priority
import EBLmon.Main.Globals
import EBLmon.Main.Firmware
import EBLmon.Main.Rates
import EBLmon.Main.Delivery
