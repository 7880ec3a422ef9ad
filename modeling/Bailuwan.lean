import Bailuwan.Synchronous
import Bailuwan.Strict
import Bailuwan.AXI4
import Bailuwan.AXI4Arbiter
import Bailuwan.AXI4CrossBar
import Bailuwan.MemoryMap
import Bailuwan.BusPath
import Bailuwan.Interconnect
import Bailuwan.BlockAddress
import Bailuwan.Memory
import Bailuwan.ICache
import Bailuwan.ICacheFill
import Bailuwan.ICacheCorrect
import Bailuwan.ICacheFlush
import Bailuwan.ICacheFault
import Bailuwan.BPU
import Bailuwan.IFU
import Bailuwan.FetchStream
import Bailuwan.FetchCode
import Bailuwan.InstPat
import Bailuwan.IDU
import Bailuwan.EXU
import Bailuwan.LSU
import Bailuwan.WBU
import Bailuwan.Core
import Bailuwan.Pipeline
import Bailuwan.CoreBus
import Bailuwan.InFlight
import Bailuwan.SideEffects
import Bailuwan.Simulator
import Bailuwan.CsrOrder
import Bailuwan.ControlFlow
import Bailuwan.Nemu
import Bailuwan.Lanes
import Bailuwan.InstAgree
import Bailuwan.Issue
import Bailuwan.Reference
import Bailuwan.Refinement
import Bailuwan.StalePrediction
import Bailuwan.RetireLog
import Bailuwan.LSUTransaction
import Bailuwan.Steady
import Bailuwan.TrapEntry
import Bailuwan.ZeroRegister
import Bailuwan.Rv32e
import Bailuwan.DecoderAcceptance
import Bailuwan.OneInstruction
import Bailuwan.Probes
import Bailuwan.DirectMapped
import Bailuwan.CacheSim
import Bailuwan.Difftest
import Bailuwan.ErrorSlave
import Bailuwan.AccessFault
import Bailuwan.LaneMemory
import Bailuwan.Misaligned
import Bailuwan.Forwarding
import Bailuwan.CompleteFill
import Bailuwan.Uptime
import Bailuwan.Tracesim
import Bailuwan.RingBuffer
import Bailuwan.Audio
import Bailuwan.ReturnStack
import Bailuwan.FetchCounters
import Bailuwan.DPICMem
import Bailuwan.TraceDecoders
import Bailuwan.OperatorReading
import Bailuwan.Lexer
import Bailuwan.Expr
import Bailuwan.ExprReading
import Bailuwan.ExprSyntax
import Bailuwan.ExprAborts
import Bailuwan.ExprPrinting
import Bailuwan.ExprTree
import Bailuwan.LinkedList
import Bailuwan.Pool
import Bailuwan.Watchpoint
import Bailuwan.ExprSteps
import Bailuwan.Examine
import Bailuwan.MulDiv
import Bailuwan.Recency
import Bailuwan.CacheRun
import Bailuwan.Replacement
import Bailuwan.Traffic
import Bailuwan.Stdio
import Bailuwan.Printf
import Bailuwan.Atoi
import Bailuwan.Malloc
import Bailuwan.CompareBytes
import Bailuwan.Keyboard
import Bailuwan.Iringbuf
import Bailuwan.Sdram
import Bailuwan.Leads
import Bailuwan.Assembly
import Bailuwan.Libgcc
import Bailuwan.Cte
import Bailuwan.Threads
import Bailuwan.Boot
import Bailuwan.LeadsTo
import Bailuwan.BusProgress
import Bailuwan.PortProgress
import Bailuwan.CoreProgress
import Bailuwan.CompleteRuns
import Bailuwan.LateMemory
import Bailuwan.TopWithoutSoC
