import PagedMachine.Module
import PagedMachine.Main
import PagedMachine.Proofs.AddressSpace
import PagedMachine.Proofs.SymbolTable
import PagedMachine.Proofs.Layout
import PagedMachine.Proofs.Linkage
import PagedMachine.Proofs.Resolution
import PagedMachine.Proofs.Acceptance
import PagedMachine.Proofs.Lifecycle
import PagedMachine.Proofs.Draft
import PagedMachine.Proofs.Execution
import PagedMachine.Proofs.LabelSafety
import PagedMachine.Proofs.Memory
import PagedMachine.Proofs.Image
import PagedMachine.Proofs.Reproducibility
import PagedMachine.Proofs.CheckedLayout
import PagedMachine.Proofs.Placement
import PagedMachine.Proofs.Assembly.Grammar
import PagedMachine.Proofs.Assembly.Recognition
import PagedMachine.Proofs.Assembly.Operand
import PagedMachine.Proofs.Assembly.Statement
import PagedMachine.Proofs.Assembly.Line
import PagedMachine.Proofs.Assembly.RoundTrip
import PagedMachine.Proofs.Scheduling
import PagedMachine.Proofs.PageEnd
import PagedMachine.Proofs.InitialMemory
import PagedMachine.Proofs.Assembly.LineErrors
import PagedMachine.Proofs.Diagnostics
import PagedMachine.Proofs.Drafting
import PagedMachine.Proofs.Extension
import PagedMachine.Proofs.Session
import PagedMachine.Proofs.Location
import PagedMachine.Proofs.Reading
import PagedMachine.Proofs.Faults
import PagedMachine.Proofs.Calling
import PagedMachine.Proofs.Effects
import PagedMachine.Proofs.Warnings
import PagedMachine.Proofs.Attribution
import PagedMachine.Proofs.Lens
import PagedMachine.Proofs.Assembly.Contents
import PagedMachine.Proofs.Assembly.BuildErrors
import PagedMachine.Proofs.SharedExports
import PagedMachine.Proofs.Assembly.Characters
import PagedMachine.Proofs.Assembly.Spans
import PagedMachine.Proofs.Arithmetic
import PagedMachine.Proofs.SourceLines
import PagedMachine.Proofs.MemoryTable
import PagedMachine.Proofs.SymbolIndex
import PagedMachine.Proofs.Assembly.Assembling
