import PagedMachine.Operation
import PagedMachine.Source

/-!
Registers, operands and instructions. The program counter is not a register: a program changes it only
through `xx`, which the engine copies at the end of every step. A `Place` can be read and written; an
`Operand` is anything that can be read, so places and besides them immediates and label addresses, which have
no location of their own. An instruction is an operation with operands of some shape. Nothing in the type ties
the shape to the operation's family, so that an ill-formed instruction can be held and reported;
`isWellFormed` says when the two agree.
-/

namespace PagedMachine

inductive Register where
  | f0
  | f1
  | f2
  | f3
  -- The stack pointer.
  | f5
  -- The address to continue at after the current instruction.
  | xx
  deriving DecidableEq, Repr

def Register.all : List Register :=
  [.f0, .f1, .f2, .f3, .f5, .xx]

def Register.name : Register → String
  | .f0 => "f0"
  | .f1 => "f1"
  | .f2 => "f2"
  | .f3 => "f3"
  | .f5 => "f5"
  | .xx => "xx"

def Register.ofName? (name : String) : Option Register :=
  Register.all.find? fun r => r.name == name

def Register.index : Register → Nat
  | .f0 => 0
  | .f1 => 1
  | .f2 => 2
  | .f3 => 3
  | .f5 => 4
  | .xx => 5

def Register.ofIndex? (index : Nat) : Option Register :=
  Register.all[index]?

/-! Operands. -/

-- A location: a register, or the memory word at a sum of registers, a label and an offset.
inductive Place where
  -- The register itself.
  | register (r : Register)
  -- Memory at `[r]` or `[r+offset]`.
  | based (base : Register) (offset : Option Word)
  -- Memory at `[r+i]`.
  | indexed (base index : Register)
  -- Memory at `[@l]`, `[@l+i]`, `[@l+offset]` or `[@l+i+offset]`.
  | labeled (label : Label) (index : Option Register) (offset : Option Word)
  deriving DecidableEq, Repr

inductive Operand where
  | immediate (value : Word)
  -- The address that a label stands for.
  | address (label : Label)
  | place (p : Place)
  deriving DecidableEq, Repr

-- An offset is written with its sign, also when it is zero.
def offsetText (d : Word) : String :=
  if d.toInt < 0 then "-" ++ toString d.toInt.natAbs else "+" ++ toString d.toInt

def Place.text : Place → String
  | .register r => r.name
  | .based r d => "[" ++ r.name ++ (d.map offsetText).getD "" ++ "]"
  | .indexed r i => "[" ++ r.name ++ "+" ++ i.name ++ "]"
  | .labeled l i d =>
    "[@" ++ l ++ (i.map fun r => "+" ++ r.name).getD "" ++ (d.map offsetText).getD "" ++ "]"

def Operand.text : Operand → String
  | .immediate w => "#" ++ w.decimal
  | .address l => "@" ++ l
  | .place p => p.text

def Operand.place? : Operand → Option Place
  | .place p => some p
  | _ => none

def Place.label? : Place → Option Label
  | .labeled l _ _ => some l
  | _ => none

def Operand.label? : Operand → Option Label
  | .immediate _ => none
  | .address l => some l
  | .place p => p.label?

/-! Instructions. -/

inductive Instruction where
  | nullary (op : Operation)
  | unary (op : Operation) (dst : Place)
  | binary (op : Operation) (dst : Place) (src : Operand)
  | ternary (op : Operation) (a : Operand) (b c : Place)
  | compare (rel : Relation) (left right : Operand)
  -- What stands at a reserved address. No module may contain one.
  | trap (t : Trap)
  deriving DecidableEq, Repr

def Instruction.isWellFormed : Instruction → Bool
  | .nullary op => op.family == .nullary
  | .unary op _ => op.family == .unary
  | .binary op _ _ => op.family == .binary
  | .ternary op _ _ _ => op.family == .ternary
  | .compare _ _ _ => true
  | .trap _ => false

def Instruction.operation? : Instruction → Option Operation
  | .nullary op | .unary op _ | .binary op _ _ | .ternary op _ _ _ => some op
  | .compare _ _ _ => some .cmp
  | .trap _ => none

def Instruction.operands : Instruction → List Operand
  | .nullary _ | .trap _ => []
  | .unary _ dst => [.place dst]
  | .binary _ dst src => [.place dst, src]
  | .ternary _ a b c => [a, .place b, .place c]
  | .compare _ left right => [left, right]

def Instruction.text : Instruction → String
  | .nullary op => op.name
  | .unary op dst => op.name ++ " " ++ dst.text
  | .binary op dst src => op.name ++ " " ++ dst.text ++ ", " ++ src.text
  | .ternary op a b c => op.name ++ " " ++ a.text ++ ", " ++ b.text ++ ", " ++ c.text
  | .compare rel left right =>
    Operation.cmp.name ++ "." ++ rel.name ++ " " ++ left.text ++ ", " ++ right.text
  | .trap t => t.text

end PagedMachine
