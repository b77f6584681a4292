import PagedMachine.Assembly.Operand
import PagedMachine.Draft

/-!
Statements of assembly: directives that start with a dot, and instructions. `Statement.parse?` reads
one, and `assemble` makes an instruction of a mnemonic and operands.
-/

namespace PagedMachine.Assembly

inductive Statement where
  | entry
  | imports (names : List Label)
  | exports (names : List Label)
  | literal (width : Width) (value : Literal)
  | instruction (mnemonic : String) (operands : List Operand)
  deriving DecidableEq, Repr

inductive Problem where
  | unreadable (text : String)
  | notAnOperation (name : String)
  | notARelation (name : String)
  | wrongArity (operation : String) (expected given : Nat)
  -- The operand at a position, counted from one, would be written but has no location.
  | notWritable (operation : String) (position : Nat)
  | build (error : BuildError)
  deriving DecidableEq, Repr

def Problem.message : Problem → String
  | .unreadable text => s!"could not parse `{text}`"
  | .notAnOperation name => s!"`{name}` is not an operation"
  | .notARelation name => s!"`{name}` is not a comparison relation"
  | .wrongArity operation expected given =>
    s!"{operation} requires {expected} operands but was given {given}"
  | .notWritable operation position => s!"operand {position} of {operation} must be writable"
  | .build error => error.message

def entryStatement : Parser Statement := fun s => do
  return (.entry, ← expect ".entry".toList s)

def namesStatement (directive : String) (make : List Label → Statement) : Parser Statement :=
  fun s => do
    mapped make (separated identifier identifier_shrinks) (← expectBlanks (← expect directive.toList s))

-- Reads the value of a literal: a label reference, or a number with or without a `#`.
def literalValue : Parser Literal :=
  either (mapped .address labelReference) fun s =>
    mapped .number integer ((expect ['#'] s).getD s)

def literalStatement (width : Width) : Parser Statement := fun s => do
  mapped (.literal width) literalValue (← expectBlanks (← expect width.directive.toList s))

def suffix : Parser (List Char) := fun s => do
  let (cs, s) ← run Char.isAlpha (← expect ['.'] s)
  return ('.' :: cs, s)

-- Reads a mnemonic: letters and, for a comparison, a suffix.
def mnemonic : Parser String := fun s => do
  let (cs, s) ← run Char.isAlpha s
  let (suffix, s) := optional suffix s
  return (String.ofList (cs ++ suffix.getD []), s)

-- Reads operands with commas between them, of which there may be none.
def operands (s : List Char) : List Operand × List Char :=
  match separated operand operand_shrinks s with
  | some (os, s) => (os, s)
  | none => ([], s)

def instructionStatement : Parser Statement := fun s => do
  let (name, s) ← mnemonic s
  match expectBlanks s with
  | some s =>
    let (os, s) := operands s
    return (.instruction name os, s)
  | none => return (.instruction name [], s)

def statement : Parser Statement :=
  either entryStatement <|
    either (namesStatement ".import" .imports) <|
      either (namesStatement ".export" .exports) <|
        either (literalStatement .word) <|
          either (literalStatement .half) <|
            either (literalStatement .byte) instructionStatement

-- The statement that a text is, if it is one to its end.
def Statement.parse? (source : List Char) : Option Statement :=
  match statement source with
  | some (st, []) => some st
  | _ => none

def cutMnemonic (mnemonic : String) : String × Option String :=
  match mnemonic.toList.dropWhile (· != '.') with
  | [] => (mnemonic, none)
  | _ :: suffix =>
    (String.ofList (mnemonic.toList.takeWhile (· != '.')), some (String.ofList suffix))

def writable (mnemonic : String) (position : Nat) (o : Operand) : Except Problem Place :=
  match o.place? with
  | some p => .ok p
  | none => .error (.notWritable mnemonic position)

-- Gives an operation, and for a comparison its relation, the operands its family asks for.
def withOperands (mnemonic : String) (op : Operation) (rel : Relation) (os : List Operand) :
    Except Problem Instruction :=
  match op.family, os with
  | .nullary, [] => .ok (.nullary op)
  | .unary, [dst] => do return .unary op (← writable mnemonic 1 dst)
  | .binary, [dst, src] => do return .binary op (← writable mnemonic 1 dst) src
  | .ternary, [a, b, c] => do
    return .ternary op a (← writable mnemonic 2 b) (← writable mnemonic 3 c)
  | .compare, [left, right] => .ok (.compare rel left right)
  | _, _ => .error (.wrongArity mnemonic op.arity os.length)

-- Makes an instruction. A comparison needs a relation as its suffix, and nothing else has one.
def assemble (mnemonic : String) (os : List Operand) : Except Problem Instruction :=
  let (name, suffix) := cutMnemonic mnemonic
  match Operation.ofName? name with
  | none => .error (.notAnOperation mnemonic)
  | some op =>
    match op.family, suffix with
    | .compare, some suffix =>
      match Relation.ofName? suffix with
      | some rel => withOperands mnemonic op rel os
      | none => .error (.notARelation suffix)
    | .compare, none | _, some _ => .error (.notAnOperation mnemonic)
    | _, none => withOperands mnemonic op .eq os

end PagedMachine.Assembly
