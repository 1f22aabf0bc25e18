import Kroc.Lib.Bytes
import Kroc.Lib.Chain
import Kroc.Lib.Demand
import Kroc.Lib.DoublyLinked
import Kroc.Lib.Buckets
import Kroc.Lib.FirstMatch
import Kroc.Lib.FlaggedCount
import Kroc.Lib.HashTable
import Kroc.Lib.Expansion
import Kroc.Lib.Joining
import Kroc.Lib.Logged
import Kroc.Lib.Numerals
import Kroc.Lib.Offsets
import Kroc.Lib.Orbit
import Kroc.Lib.Owned
import Kroc.Lib.Prefix
import Kroc.Lib.Shifts
import Kroc.Lib.Returns
import Kroc.Lib.Exact
import Kroc.Lib.Extents
import Kroc.Lib.QuotientDigit
import Kroc.Lib.RefCount
import Kroc.Lib.RoundEven
import Kroc.Lib.FloatPattern
import Kroc.Lib.SortedMap
import Kroc.Lib.SortedQueue
import Kroc.Lib.Transition
import Kroc.Lib.Triangle
import Kroc.Lib.Truncate
import Kroc.Lib.Worklist
import Kroc.Plinker.TEncode
import Kroc.Plinker.Instruction
import Kroc.Plinker.Proc
import Kroc.Plinker.Relax
import Kroc.Plinker.Exact
import Kroc.Plinker.Resolve
import Kroc.Plinker.Debug
import Kroc.Plinker.Link
import Kroc.Tvm.TEncode
import Kroc.Tvm.TEncodeRoundTrip
import Kroc.Tvm.TEncodeReader
import Kroc.Tvm.TEncodeDebug
import Kroc.Tvm.Sched
import Kroc.Tvm.TimerQueue
import Kroc.Tvm.Instructions
import Kroc.Tvm.Machine
import Kroc.Tvm.Places
import Kroc.Tvm.PlacesSteps
import Kroc.Tvm.Untouched
import Kroc.Tvm.Join
import Kroc.Tvm.Contexts
import Kroc.Tvm.Semaphore
import Kroc.Tvm.Barrier
import Kroc.Tvm.MobileUpdate
import Kroc.Tvm.Mobile
import Kroc.Tvm.MobileTree
import Kroc.Tvm.MobileClone
import Kroc.Tvm.MobileRelease
import Kroc.Tvm.MobileResize
import Kroc.Tvm.MobileResized
import Kroc.Tvm.MobileBind
import Kroc.Tvm.Channels
import Kroc.Tvm.ExtendedInput
import Kroc.Tvm.Timeouts
import Kroc.Tvm.OnePlace
import Kroc.Tvm.Arith
import Kroc.Tvm.DoubleWord
import Kroc.Tvm.Float
import Kroc.Ccsp.Sched
import Kroc.Ccsp.Layout
import Kroc.Ccsp.Moves
import Kroc.Ccsp.QueueMoves
import Kroc.Ccsp.Scheduling
import Kroc.Ccsp.SchedRun
import Kroc.Ccsp.Overlay
import Kroc.Ccsp.Beside
import Kroc.Ccsp.Hands
import Kroc.Ccsp.Barrier
import Kroc.Ccsp.BarrierHead
import Kroc.Ccsp.BarrierComplete
import Kroc.Ccsp.BarrierCalls
import Kroc.Ccsp.BarrierRun
import Kroc.Ccsp.Scrap
import Kroc.Ccsp.ScrapRun
import Kroc.Ccsp.Alt
import Kroc.Ccsp.AltLedger
import Kroc.Ccsp.AltSteps
import Kroc.Ccsp.AltTriggers
import Kroc.Ccsp.AltRun
import Kroc.Ccsp.Mobile
import Kroc.Ccsp.MobileHeap
import Kroc.Ccsp.Mail
import Kroc.Ccsp.MailRun
import Kroc.Ccsp.MobileRun
import Kroc.Ccsp.MprocBarrier
import Kroc.Ccsp.Semaphore
import Kroc.Ccsp.SemaphoreRun
import Kroc.Ccsp.SemaphoreSteps
import Kroc.Etc.Readers
import Kroc.Tcoff.Numbers
import Kroc.Tcoff.Records
import Kroc.Mobproc.Wsmap
import Kroc.Mobproc.Clone
import Kroc.Mobproc.Mapchain
import Kroc.Mobproc.Codemap
import Kroc.Slinker.Code
import Kroc.Slinker.Table
import Kroc.Slinker.Linking
import Kroc.Slinker.Optimal
import Kroc.Slinker.DecodeIns
import Kroc.Slinker.PrefixPatching
import Kroc.Slinker.Lloh
import Kroc.Slinker.Expansions
import Kroc.Slinker.Renumber
import Kroc.Slinker.JumpTables
import Kroc.Slinker.Libraries
import Kroc.Occ21.Bind3
import Kroc.Occ21.Checkbounds
import Kroc.Occ21.Interference
import Kroc.Occ21.InterferenceCalls
import Kroc.Occ21.InterferenceRun
import Kroc.Occ21.InterferenceSteps
import Kroc.Occ21.InterferenceExact
import Kroc.Occ21.Mobilespace
import Kroc.Occ21.MobilespaceCalls
import Kroc.Occ21.MobilespaceOffsets
import Kroc.Occ21.MobilespaceLayout
import Kroc.Occ21.MobilespaceInit
import Kroc.Occ21.MobilespaceInitialised
import Kroc.Occ21.AllocVars
import Kroc.Occ21.ParamSlots
import Kroc.Extlib.Long
import Kroc.Extlib.Int64
import Kroc.Extlib.Int64Exact
import Kroc.Extlib.Int64Div
import Kroc.Extlib.UInt64
import Kroc.Extlib.Conv
import Kroc.Extlib.RealConv
import Kroc.Extlib.RealWords
import Kroc.Extlib.IntToReal
import Kroc.Extlib.Real32ToInt
import Kroc.Extlib.Real64ToInt32
import Kroc.Extlib.Real64ToInt64
import Kroc.Extlib.Real64ToReal32
import Kroc.Extlib.Conversions
import Kroc.Extlib.Int32
import Kroc.Extlib.Str
import Kroc.Tranx86.Constmap
import Kroc.Tranx86.PackShifts
import Kroc.Tranx86.Tceread
import Kroc.Tranx86.TcereadRecords
import Kroc.Tranx86.TcereadText
import Kroc.Tranx86.Tstack
