import Npc.Clocked
import Npc.BinarySearchZeros
import Npc.CountZeros
import Npc.Int64
import Npc.Macro
import Npc.Memory
import Npc.Idu
import Npc.Exu
import Npc.Lsu
import Npc.Core
import Npc.LsuRequest
import Npc.ByteMemory
import Npc.Lanes
import Npc.LsuRefinement
import Npc.DecodeFacts
import Npc.Sequential
import Npc.FrontEnd
import Npc.Pipeline
import Npc.Refinement
import Npc.Progress
import Npc.Csr
import Npc.CsrOrder
import Npc.SingleInst
import Npc.UnknownInst
import Npc.CsrInst
import Npc.EvenPc
import Npc.Unaligned
import Npc.Rv32i
import Npc.Isa
import Npc.Difftest
import Npc.Monitor
import Npc.LinkedList
import Npc.WpPool
import Npc.WpScan
import Npc.Brackets
import Npc.MakeToken
import Npc.Expr
import Npc.Lexemes
import Npc.Lexing
import Npc.ExprScan
import Npc.ExprTree
import Npc.UnaryChain
import Npc.ExprSentence
import Npc.ExprShape
import Npc.ExprClean
import Npc.FailedRun
import Npc.DeviceSkip
import Npc.ShiftRegister
import Npc.Lfsr
import Npc.Watchdog
import Npc.ExprOps
import Npc.WpSurvival
import Npc.Statistic
import Npc.DebugRead
import Npc.DebugSession
import Npc.CopyLoop
import Npc.Malloc
import Npc.Memmove
import Npc.Strcmp
import Npc.DigitLoop
import Npc.Stdio
import Npc.Format
import Npc.FormatInt
import Npc.Atoi
import Npc.Printf
import Npc.Ftrace
import Npc.RingBuffer
import Npc.TraceRings
import Npc.Trap
import Npc.Yield
import Npc.Uptime
import Npc.RvMachine
import Npc.IsaRefinement
import Npc.DecodeExact
import Npc.XorRecurrence
import Npc.LfsrPeriod
import Npc.CycleCount
import Npc.MemoryBus
import Npc.SharedMemory
import Npc.SimRun
import Npc.RvCode
import Npc.RestoringDivision
import Npc.Mulsi3
import Npc.Divsi3
import Npc.Libgcc
import Npc.Multi3
import Npc.StringCopy
import Npc.YieldOs
import Npc.Rand
import Npc.SimOutput
import Npc.PrivMachine
import Npc.PrivRefinement
import Npc.TrapCode
