import Nmos6502.Assembler
import Nmos6502.Disassembly.Listing
import Nmos6502.Emulator.Run
import Nmos6502.Proofs.Assembly.ConstantExpansion
import Nmos6502.Proofs.Assembly.DataLines
import Nmos6502.Proofs.Assembly.Declarations
import Nmos6502.Proofs.Assembly.InertText
import Nmos6502.Proofs.Assembly.LabelErrors
import Nmos6502.Proofs.Assembly.LabelReferences
import Nmos6502.Proofs.Assembly.NumericOperands
import Nmos6502.Proofs.Assembly.OpcodeChoice
import Nmos6502.Proofs.Assembly.Relocation
import Nmos6502.Proofs.ControlTransfer
import Nmos6502.Proofs.Cpu.CycleCost
import Nmos6502.Proofs.Cpu.Executions
import Nmos6502.Proofs.Cpu.Fetching
import Nmos6502.Proofs.Cpu.MemoryOperand
import Nmos6502.Proofs.Cpu.MultiByteShift
import Nmos6502.Proofs.Cpu.MultiByteSum
import Nmos6502.Proofs.Cpu.StackDiscipline
import Nmos6502.Proofs.Cpu.StepFrame
import Nmos6502.Proofs.Disassembly.AssembledCode
import Nmos6502.Proofs.Disassembly.DistinctTexts
import Nmos6502.Proofs.Disassembly.Prediction
import Nmos6502.Proofs.Disassembly.RoundTrip
import Nmos6502.Proofs.Disassembly.WindowCover
import Nmos6502.Proofs.Disassembly.WindowPieces
import Nmos6502.Proofs.Emulator.BatchedRun
import Nmos6502.Proofs.Emulator.BudgetedBatch
import Nmos6502.Proofs.Emulator.LifeCycle
import Nmos6502.Proofs.Memory.ByteWrites
import Nmos6502.Proofs.NumeralGrammar
import Nmos6502.Proofs.PacingRounding
