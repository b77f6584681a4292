import PagedMachine.Module
import Std.Data.ExtTreeSet

/-!
Drafts: modules in the making. A front end feeds a draft directives in source order; a label binds
to the instruction or literal that comes next, and a span to the instruction that comes next.
-/

namespace PagedMachine

inductive Directive where
  | label (name : Label)
  | imports (name : Label)
  | exports (name : Label)
  | entry
  | span (s : Span)
  | instruction (i : Instruction)
  | literal (value : Literal) (width : Width)
  deriving DecidableEq, Repr

def Directive.isLabel : Directive → Bool
  | .label _ => true
  | _ => false

inductive BuildError where
  -- Labels with nothing behind them to bind to.
  | danglingLabels (labels : List Label)
  | importDefinedLocally (label : Label)
  -- The instruction at a position, counted from zero, is not well formed.
  | malformedInstruction (position : Nat) (instruction : Instruction)
  deriving DecidableEq, Repr

-- Listed labels are shown with the way they are stored: seven bytes or fewer fit into a machine word beside
-- their length, longer names are allocated, and the empty one is a constant.
def Label.listed (l : Label) : String :=
  let storage :=
    if l.utf8ByteSize = 0 then "static" else if l.utf8ByteSize ≤ 7 then "inline" else "dynamic"
  s!"Atom('{l}' type={storage})"

def BuildError.message : BuildError → String
  | .danglingLabels labels =>
    let listed := ", ".intercalate (labels.map Label.listed)
    s!"labels [{listed}] are not followed by an instruction or literal"
  | .importDefinedLocally label => s!"`{label}` is both imported and defined locally"
  | .malformedInstruction position instruction =>
    s!"instruction {position} (`{instruction.text}`) does not match its opcode's family"

-- A module under construction, with what still waits for the next item.
structure Draft where
  name : String
  instructions : Array LabeledInstruction
  literals : Array LabeledLiteral
  exports : Array Label
  imports : Array Label
  isEntry : Bool
  pendingLabels : Array Label
  pendingSpan : Option Span

def Draft.empty (name : String) : Draft :=
  ⟨name, #[], #[], #[], #[], false, #[], none⟩

def addName (names : Array Label) (name : Label) : Array Label :=
  if names.contains name then names else names.push name

-- Takes one directive into account. Only an instruction uses up the pending span.
def Draft.add (d : Draft) : Directive → Draft
  | .label name => { d with pendingLabels := d.pendingLabels.push name }
  | .imports name => { d with imports := addName d.imports name }
  | .exports name => { d with exports := addName d.exports name }
  | .entry => { d with isEntry := true }
  | .span s => { d with pendingSpan := some s }
  | .instruction i =>
    { d with
      instructions := d.instructions.push ⟨i, d.pendingLabels.toList, d.pendingSpan⟩
      pendingLabels := #[]
      pendingSpan := none }
  | .literal value width =>
    { d with
      literals := d.literals.push ⟨value, width, d.pendingLabels.toList⟩
      pendingLabels := #[] }

def Draft.ofDirectives (name : String) (directives : List Directive) : Draft :=
  directives.foldl Draft.add (Draft.empty name)

def Draft.contents (d : Draft) : Module where
  name := d.name
  instructions := d.instructions.toList
  literals := d.literals.toList
  exports := d.exports.toList
  imports := d.imports.toList
  isEntry := d.isEntry

def Module.malformed? (m : Module) : Option (LabeledInstruction × Nat) :=
  m.instructions.zipIdx.find? fun p => !p.1.instruction.isWellFormed

def Module.shadowed? (m : Module) : Option Label :=
  let defined := Std.ExtTreeSet.ofList m.definedLabels compare
  m.imports.find? fun l => defined.contains l

-- Finishes a draft. Duplicate labels are left to the linker, which names the module.
def Draft.build (d : Draft) : Except BuildError Module :=
  if d.pendingLabels.isEmpty then
    match d.contents.malformed? with
    | some (i, position) => .error (.malformedInstruction position i.instruction)
    | none =>
      match d.contents.shadowed? with
      | some label => .error (.importDefinedLocally label)
      | none => .ok d.contents
  else .error (.danglingLabels d.pendingLabels.toList)

end PagedMachine
