import Xf100.Laws.LoadStoreDecode
import Xf100.Laws.AluDecode
import Xf100.Laws.ImmediateFormats
import Xf100.Laws.ZeroRegister
import Xf100.Laws.RegisterFile
import Xf100.Laws.AluResults
import Xf100.Laws.Arith
import Xf100.Laws.ImmArith
import Xf100.Laws.RamAccess
import Xf100.Laws.DataMemory
import Xf100.Laws.LaneRam
import Xf100.Laws.Frame
import Xf100.Laws.WriteIndex
import Xf100.Laws.Commute
import Xf100.Laws.WriteBack
import Xf100.Laws.Blocks
import Xf100.Laws.RamHistory
import Xf100.Laws.Reach
import Xf100.Laws.Undefined
import Xf100.Laws.Nop
import Xf100.Laws.Execution
import Xf100.Laws.Isa
import Xf100.Laws.Events
