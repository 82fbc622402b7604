import Emu6502.Lib.Interaction
import Emu6502.Lib.Transition
import Emu6502.Lib.WrappingStack
import Emu6502.Lib.Interleaving
import Emu6502.Lib.CarryChain
import Emu6502.Lib.Regex
import Emu6502.Lib.WrappingCursor
import Emu6502.Lib.Deadline
import Emu6502.Lib.Loop
import Emu6502.Lib.Overlay
import Emu6502.Registers
import Emu6502.Memory
import Emu6502.Parameters
import Emu6502.InstructionImpl
import Emu6502.Processor
import Emu6502.Session
import Emu6502.BusPattern
import Emu6502.AccessCount
import Emu6502.PublishedCycles
import Emu6502.RegisterFrame
import Emu6502.InterruptGate
import Emu6502.StatusByte
import Emu6502.Jam
import Emu6502.HostSession
import Emu6502.RoundTrip
import Emu6502.RunControl
import Emu6502.Disassembler
import Emu6502.LineSync
import Emu6502.ByteArithmetic
import Emu6502.MultiByte
import Emu6502.TwoRuns
import Emu6502.DecimalUnseen
import Emu6502.Assembler
import Emu6502.Grammar
import Emu6502.LineParser
import Emu6502.FirstMatch
import Emu6502.CompileImage
import Emu6502.ResetImage
import Emu6502.EncodedLine
import Emu6502.SourceRoundTrip
import Emu6502.BranchRange
import Emu6502.Comments
import Emu6502.LoadAndRun
import Emu6502.AccessSequence
import Emu6502.MemoryEffect
import Emu6502.NmosDecimal
import Emu6502.FusedOpcodes
import Emu6502.DebugRun
import Emu6502.StackHelpers
import Emu6502.PrecisionClock
import Emu6502.MemoryArray
import Emu6502.ControlFrame
import Emu6502.SourceLines
import Emu6502.ControlFlow
import Emu6502.LinuxDebugger
import Emu6502.Lib.Locality
import Emu6502.Lib.Folding
import Emu6502.RunLocality
import Emu6502.InterruptUnseen
import Emu6502.SelfTrap
import Emu6502.WindowDebugger
import Emu6502.Lib.Triple
import Emu6502.InstructionSet
import Emu6502.Routines
import Emu6502.LongAddition
import Emu6502.Relisting
import Emu6502.DebuggerThreads
import Emu6502.WindowsClock
import Emu6502.PauseJoin
import Emu6502.MirroredMemory
import Emu6502.DeadBytes
