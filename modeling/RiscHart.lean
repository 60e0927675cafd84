import RiscHart.Word
import RiscHart.Numeral
import RiscHart.Isa.Register
import RiscHart.Isa.Operation
import RiscHart.Isa.Code
import RiscHart.Isa.Immediate
import RiscHart.Isa.Error
import RiscHart.Isa.Format
import RiscHart.Isa.Shape
import RiscHart.Isa.Instr
import RiscHart.Isa.Assembly
import RiscHart.Alu
import RiscHart.Registers
import RiscHart.Memory.LittleEndian
import RiscHart.Memory.Basic
import RiscHart.Event
import RiscHart.Config
import RiscHart.Hart.Basic
import RiscHart.Hart.Step
import RiscHart.Hart.Run
import RiscHart.Schema
import RiscHart.Json.Syntax
import RiscHart.Json.Number
import RiscHart.Json.Quoted
import RiscHart.Json.Lexer
import RiscHart.Json.Reader
import RiscHart.Json.Document
import RiscHart.Config.Document
import RiscHart.Proofs.Assembler
import RiscHart.Proofs.AssemblyLines
import RiscHart.Proofs.Classification
import RiscHart.Proofs.Dispatch
import RiscHart.Proofs.Effects
import RiscHart.Proofs.FailedRequests
import RiscHart.Proofs.HartView
import RiscHart.Proofs.LastWriter
import RiscHart.Proofs.StepOutcome
import RiscHart.Proofs.StepRefinement
import RiscHart.Proofs.ZeroPolicies
import RiscHart.Proofs.Renaming
import RiscHart.Proofs.Operands
import RiscHart.Proofs.Commutation
import RiscHart.Proofs.LargerMemory
import RiscHart.Proofs.StoredValues
import RiscHart.Proofs.Numerals
import RiscHart.Proofs.AssemblyReader
import RiscHart.Proofs.PositionIndependence
import RiscHart.Proofs.Parity
import RiscHart.Proofs.Reporting
import RiscHart.Proofs.RunLog
import RiscHart.Proofs.InstructionPairs
import RiscHart.Proofs.RegisterHistory
import RiscHart.Proofs.ConfigDocuments
import RiscHart.Proofs.ImmediateForms
import RiscHart.Proofs.Fragments
import RiscHart.Proofs.Layouts
import RiscHart.Proofs.Orders
import RiscHart.Proofs.Extraction
import RiscHart.Proofs.SignExtension
