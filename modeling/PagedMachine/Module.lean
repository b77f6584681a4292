import PagedMachine.Instruction

/-!
Modules: the instructions and static literals of one source file, with the labels bound to each of
them and the names the module shares with others. A module can be written as assembly: the directives
first, then one line for each instruction and literal, behind the labels bound to it. How many blanks are
left behind a label is for the caller to say.
-/

namespace PagedMachine

-- The width of a value in memory. Literals are aligned to their width.
inductive Width where
  | byte
  | half
  | word
  deriving DecidableEq, Repr

def Width.bytes : Width → Nat
  | .byte => 1
  | .half => 2
  | .word => 4

def Width.ofBytes? : Nat → Option Width
  | 1 => some .byte
  | 2 => some .half
  | 4 => some .word
  | _ => none

def Width.directive : Width → String
  | .byte => ".byte"
  | .half => ".half"
  | .word => ".word"

inductive Literal where
  | number (value : Word)
  | address (label : Label)
  deriving DecidableEq, Repr

def Literal.text : Literal → String
  | .number w => w.decimal
  | .address l => "@" ++ l

structure LabeledInstruction where
  instruction : Instruction
  labels : List Label
  span : Option Span
  deriving DecidableEq, Repr

structure LabeledLiteral where
  value : Literal
  width : Width
  labels : List Label
  deriving DecidableEq, Repr

structure Module where
  name : String
  instructions : List LabeledInstruction
  literals : List LabeledLiteral
  exports : List Label
  imports : List Label
  -- Whether execution starts at the module's first instruction.
  isEntry : Bool
  deriving DecidableEq, Repr

-- Every label a module defines, in layout order: instructions come before literals.
def Module.definedLabels (m : Module) : List Label :=
  m.instructions.flatMap (·.labels) ++ m.literals.flatMap (·.labels)

/-! Modules as assembly. -/

def labelsText (gap : String) (labels : List Label) : String :=
  String.join (labels.map (· ++ ":" ++ gap))

def LabeledInstruction.assembly (gap : String) (i : LabeledInstruction) : String :=
  labelsText gap i.labels ++ i.instruction.text

def LabeledLiteral.assembly (gap : String) (l : LabeledLiteral) : String :=
  labelsText gap l.labels ++ l.width.directive ++ " " ++ l.value.text

def Module.assemblyLines (gap : String) (m : Module) : List String :=
  (if m.isEntry then [".entry"] else []) ++ m.imports.map (".import " ++ ·)
    ++ m.exports.map (".export " ++ ·) ++ m.instructions.map (·.assembly gap)
    ++ m.literals.map (·.assembly gap)

def Module.assembly (gap : String) (m : Module) : String :=
  String.join ((m.assemblyLines gap).map (· ++ "\n"))

end PagedMachine
