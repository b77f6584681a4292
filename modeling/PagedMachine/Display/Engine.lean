import PagedMachine.Display.Table
import PagedMachine.Engine
import PagedMachine.Memory.Extent

/-!
What is shown of a program and of its run: the listing of a program, page by page, its instructions and
literals with their addresses, labels and source positions; and the processor, the memory and a whole run.
-/

namespace PagedMachine

open Display

def labelColumn (labels : List Label) : String :=
  " ".intercalate (labels.map (· ++ ":"))

-- The rows of a page. The first one names the module.
def Page.listingRows (p : Page) : List (List String) :=
  [[p.base.hex, "; " ++ p.name, "", ""]]
    ++ (p.instructions.toList.map fun i =>
      [i.address.hex, labelColumn (p.labels.labelsAt i.address), i.instruction.text,
        (i.span.map Span.text).getD ""])
    ++ p.literals.map fun l =>
      [l.address.hex, labelColumn (p.labels.labelsAt l.address),
        l.width.directive ++ " " ++ l.value.text, ""]

def Program.listing (p : Program) : String :=
  Table.render
    { columns :=
        [⟨"Address", .right⟩, ⟨"Labels", .left⟩, ⟨"Contents", .left⟩, ⟨"Source", .left⟩]
      rows := p.pages.flatMap (·.listingRows) }

/-! The state of a run. -/

def Cpu.display (c : Cpu) : String :=
  Table.render
    { columns := [⟨"Register", .right⟩, ⟨"Contents", .left⟩]
      rows :=
        (Register.all.map fun r =>
          [r.name ++ " =", s!"{(c.get r).hex} ({(c.get r).decimal})"])
          ++ [["nx =", c.nx.hex], ["flag =", if c.flag then "true" else "false"]] }

def byteText : Option Byte → String
  | some b => String.ofList (hexText 2 b.toNat)
  | none => ".."

def Memory.table (m : Memory) : Table where
  columns := [⟨"Address", .right⟩, ⟨"Contents", .left⟩]
  rows := m.rows.map fun (a, bytes) => [a.hex, " ".intercalate (bytes.map byteText)]

def Memory.display (m : Memory) : String :=
  m.table.render

def Engine.outputText (e : Engine) : List String :=
  e.output.toList.map Word.decimal

-- The state of a run, with the processor beside the memory and the output, if any, below.
def Engine.display (e : Engine) : String :=
  let next := (e.next?.map (·.instruction.text)).getD "-"
  let table : Table :=
    { columns := [⟨"CPU", .left⟩, ⟨"Memory", .left⟩]
      rows := [[e.machine.cpu.display, e.machine.memory.display]] }
  s!"State: {e.state.text}\tSteps: {e.steps}\tNext: {next}\n" ++ table.render
    ++ if e.output.isEmpty then "" else "\nOutput: " ++ " ".intercalate e.outputText

end PagedMachine
