import PagedMachine.Machine
import PagedMachine.Program

/-!
What a single instruction does to the machine. Labels are looked up when an operand is used, from the
page that the program counter is on. A fault ends the instruction where it stands and keeps what has
been done until then.
-/

namespace PagedMachine

inductive Fault where
  -- The program counter points at no instruction.
  | invalidAddress (address : Address)
  | malformedInstruction (instruction : Instruction)
  | undefinedLabel (label : Label)
  -- The outermost return was reached with a stack pointer other than the initial one.
  | stackImbalance (expected actual : Address)
  | notLoaded
  deriving DecidableEq, Repr

def Fault.message : Fault → String
  | .invalidAddress a => s!"invalid program counter address {a.hex}"
  | .malformedInstruction i => s!"`{i.text}` does not match its opcode's family"
  | .undefinedLabel l => s!"undefined label `{l}`"
  | .stackImbalance expected actual =>
    s!"stack imbalance at outermost return: f5 is {actual.hex}, expected {expected.hex}"
  | .notLoaded => "no program is loaded"

-- Actions on a machine that may fault; the machine is kept either way.
abbrev Exec := EStateM Fault Machine

-- Where a place is, once registers and labels are evaluated.
inductive Location where
  | register (r : Register)
  | memory (a : Address)
  deriving DecidableEq, Repr

def Program.lookUp (p : Program) (m : Machine) (l : Label) : Except Fault Address :=
  match p.resolve? m.cpu.nx l with
  | some a => .ok a
  | none => .error (.undefinedLabel l)

-- Evaluates a place. Sums of addresses wrap around.
def Place.locate (p : Program) (m : Machine) : Place → Except Fault Location
  | .register r => .ok (.register r)
  | .based r d => .ok (.memory (m.cpu.get r + d.getD 0))
  | .indexed r i => .ok (.memory (m.cpu.get r + m.cpu.get i))
  | .labeled l i d => do
    let a ← p.lookUp m l
    return .memory (a + (i.map m.cpu.get).getD 0 + d.getD 0)

def Location.address? : Location → Option Address
  | .register _ => none
  | .memory a => some a

def Location.read : Location → Exec Word
  | .register r => fun m => .ok (m.cpu.get r) m
  | .memory a => fun m =>
    let (w, after) := m.memory.read .word a
    .ok w { m with memory := after }

def Location.write (w : Word) : Location → Exec Unit
  | .register r => fun m => .ok () (m.setRegister r w)
  | .memory a => fun m => .ok () { m with memory := m.memory.write .word a w }

def Place.find (p : Program) (x : Place) : Exec Location := fun m =>
  match x.locate p m with
  | .ok l => .ok l m
  | .error f => .error f m

def Place.read (p : Program) (x : Place) : Exec Word := do
  (← x.find p).read

def Place.write (p : Program) (x : Place) (w : Word) : Exec Unit := do
  (← x.find p).write w

def Operand.read (p : Program) : Operand → Exec Word
  | .immediate w => return w
  | .address l => fun m =>
    match p.lookUp m l with
    | .ok a => .ok a m
    | .error f => .error f m
  | .place x => x.read p

-- The two words that a ternary operation leaves in its second and third operand, given the values of the
-- first and second.
def Operation.results? (o : Operation) (first second : Word) : Option (Word × Word) :=
  match o with
  | .mulu =>
    let product := first.setWidth 64 * second.setWidth 64
    some (product.extractLsb' 0 32, product.extractLsb' 32 32)
  | .muls =>
    let product := first.signExtend 64 * second.signExtend 64
    some (product.extractLsb' 0 32, product.extractLsb' 32 32)
  | .xchg => some (first, second)
  | _ => none

-- What an instruction of the right shape does. The source is read before the destination; a destination is
-- located again for writing, and the third operand after the second has been written.
def Instruction.perform (p : Program) (i : Instruction) : Exec Unit :=
  match i with
  | .nullary _ => return ()
  | .unary _ dst => do
    dst.write p (~~~(← dst.read p))
  | .binary .mov dst src => do
    dst.write p (← src.read p)
  | .binary .movc dst src => do
    if (← get).cpu.flag then
      dst.write p (← src.read p)
  | .binary op dst src => do
    let right ← src.read p
    let left ← dst.read p
    match op.result? left right with
    | some w => dst.write p w
    | none => throw (.malformedInstruction i)
  | .ternary op a b c => do
    let first ← a.read p
    let second ← b.read p
    match op.results? first second with
    | some (low, high) => do
      b.write p low
      c.write p high
    | none => throw (.malformedInstruction i)
  | .compare rel left right => do
    let l ← left.read p
    let r ← right.read p
    modify fun m => { m with cpu := { m.cpu with flag := rel.holds l r } }
  | .trap _ => throw (.malformedInstruction i)

-- Executes an instruction. One that is not well formed touches nothing.
def Instruction.execute (p : Program) (i : Instruction) : Exec Unit :=
  if i.isWellFormed then i.perform p else throw (.malformedInstruction i)

end PagedMachine
