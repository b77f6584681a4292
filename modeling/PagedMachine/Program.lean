import PagedMachine.Memory
import PagedMachine.SymbolTable

/-!
Linked programs. Every module has a page of its own; page 0 belongs to the module that execution
starts in. A label means what the page of the asking address makes of it: its own definition, or else
an export of another page, if the page imports it.
-/

namespace PagedMachine

structure LoadedInstruction where
  address : Address
  -- Where execution goes on unless the instruction says otherwise.
  successor : Address
  instruction : Instruction
  span : Option Span
  deriving DecidableEq, Repr

structure PlacedLiteral where
  address : Address
  value : Literal
  width : Width
  deriving DecidableEq, Repr

structure Page where
  id : Nat
  -- The name of the module.
  name : String
  -- The instructions, which stand at a fixed stride from the base on.
  instructions : Array LoadedInstruction
  literals : List PlacedLiteral
  labels : SymbolTable
  imports : Std.ExtTreeSet Label compare

def Page.base (p : Page) : Address :=
  pageBase p.id

def Page.fetch? (p : Page) (a : Address) : Option LoadedInstruction :=
  let offset := (a - p.base).toNat
  if offset % instructionSize = 0 then p.instructions[offset / instructionSize]? else none

structure Program where
  -- Page 0.
  entry : Option Page
  -- The pages from page 1 on.
  others : Array Page
  exports : SymbolTable

def Program.empty : Program :=
  ⟨none, #[], .empty⟩

def entryAddress : Address :=
  pageBase 0

def Program.page? (p : Program) : Nat → Option Page
  | 0 => p.entry
  | n + 1 => p.others[n]?

def Program.pages (p : Program) : List Page :=
  p.entry.toList ++ p.others.toList

-- Puts a page where its number says; the pages from 1 on have to come in order.
def Program.addPage (p : Program) (page : Page) : Program :=
  if page.id = 0 then { p with entry := some page }
  else { p with others := p.others.push page }

def Program.pageAt? (p : Program) (a : Address) : Option Page :=
  (pageOf? a).bind p.page?

def Trap.loaded (t : Trap) : LoadedInstruction :=
  ⟨t.address, t.address, .trap t, none⟩

def Program.fetch? (p : Program) (a : Address) : Option LoadedInstruction :=
  match Trap.at? a with
  | some t => some t.loaded
  | none => (p.pageAt? a).bind (·.fetch? a)

-- The address of a label as seen from the page of `current`. The page's own labels come first; an export of
-- another page is seen only if it is imported.
def Program.resolve? (p : Program) (current : Address) (l : Label) : Option Address :=
  match p.pageAt? current with
  | none => none
  | some page =>
    match page.labels.get? l with
    | some a => some a
    | none => if page.imports.contains l then p.exports.get? l else none

def Program.labelsAt (p : Program) (a : Address) : List Label :=
  match p.pageAt? a with
  | some page => page.labels.labelsAt a
  | none => []

def Program.literalValue? (p : Program) (l : PlacedLiteral) : Option Word :=
  match l.value with
  | .number w => some w
  | .address label => p.resolve? l.address label

-- Writes a literal. One that names an unknown label is left out.
def Program.writeLiteral (p : Program) (m : Memory) (l : PlacedLiteral) : Memory :=
  match p.literalValue? l with
  | some w => m.write l.width l.address w
  | none => m

def Program.literals (p : Program) : List PlacedLiteral :=
  p.pages.flatMap (·.literals)

def Program.writeLiterals (p : Program) (m : Memory) : Memory :=
  p.literals.foldl p.writeLiteral m

end PagedMachine
