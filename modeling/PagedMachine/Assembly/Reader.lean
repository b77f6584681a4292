import PagedMachine.Assembly.Statement
import PagedMachine.Source
import Std.Data.ExtTreeMap

/-!
Reading a module from assembly. A reader goes from line to line and feeds a draft: a line declares labels and
makes at most one statement, and a bad line does not keep the others from being read. Only a text without a
bad line becomes a module. A problem of the module as a whole is blamed on the line of the last label for
labels that dangle, and on the line of the first import for a label that is imported as well as defined.
-/

namespace PagedMachine

structure AssemblyError where
  line : Nat
  problem : Assembly.Problem
  deriving DecidableEq, Repr

def AssemblyError.message (e : AssemblyError) : String :=
  s!"line {e.line}: {e.problem.message}"

namespace Assembly

-- Reads a label declaration, `name:` with blanks around the name.
def labelDeclaration : Parser Label := fun s => do
  let (l, s) ← identifier (skipBlanks s)
  return (l, ← expect [':'] (skipBlanks s))

theorem labelDeclaration_progresses : Progresses labelDeclaration := by
  intro s l rest h
  obtain ⟨⟨k, s₁⟩, h₁, h⟩ := Option.bind_eq_some_iff.1 h
  obtain ⟨s₂, h₂, h⟩ := Option.bind_eq_some_iff.1 h
  simp only [pure, Option.some.injEq, Prod.mk.injEq] at h
  have e₁ := identifier_shrinks _ _ _ h₁
  have e₂ := length_of_expect h₂
  have hb := length_skipBlanks_le s
  have hc := length_skipBlanks_le s₁
  rw [← h.2]
  simp only [List.length_singleton] at e₂
  omega

-- What has been read so far: the module in the making and the bad lines, and beside them the lines that a
-- problem of the module as a whole is blamed on.
structure Reader where
  draft : Draft
  errors : Array AssemblyError
  lastLabelLine : Nat
  importLines : Std.ExtTreeMap Label Nat compare

def Reader.start (name : String) : Reader :=
  ⟨Draft.empty name, #[], 0, ∅⟩

def Reader.declareLabel (number : Nat) (r : Reader) (l : Label) : Reader :=
  { r with draft := r.draft.add (.label l), lastLabelLine := number }

-- A name may be imported more than once; the first line counts.
def Reader.declareImport (number : Nat) (r : Reader) (l : Label) : Reader :=
  { r with draft := r.draft.add (.imports l), importLines := r.importLines.insertIfNew l number }

def Reader.apply (r : Reader) (span : Span) : Statement → Reader
  | .entry => { r with draft := r.draft.add .entry }
  | .imports names => names.foldl (Reader.declareImport span.line) r
  | .exports names => { r with draft := names.foldl (fun d l => d.add (.exports l)) r.draft }
  | .literal width value => { r with draft := r.draft.add (.literal value width) }
  | .instruction mnemonic os =>
    match assemble mnemonic os with
    | .ok i => { r with draft := (r.draft.add (.span span)).add (.instruction i) }
    | .error problem => { r with errors := r.errors.push ⟨span.line, problem⟩ }

-- A comment starts at the first semicolon. Labels count also if the statement behind them is bad. The
-- statement's span leaves out the labels, the white space around it and the comment.
def Reader.readLine (r : Reader) (number : Nat) (line : List Char) : Reader :=
  let code := line.takeWhile (· != ';')
  let (labels, rest) := many labelDeclaration labelDeclaration_progresses code
  let r := labels.foldl (Reader.declareLabel number) r
  let rest := Text.trimStart rest
  let source := Text.trimEnd rest
  if source.isEmpty then r
  else
    let column := Text.byteLength code - Text.byteLength rest + 1
    match Statement.parse? source with
    | some st => r.apply ⟨number, column, Text.byteLength source⟩ st
    | none => { r with errors := r.errors.push ⟨number, .unreadable (String.ofList source)⟩ }

def Reader.blame (r : Reader) : BuildError → Nat
  | .danglingLabels _ => r.lastLabelLine
  | .importDefinedLocally l => r.importLines[l]?.getD 0
  | .malformedInstruction _ _ => 0

def Reader.finish (r : Reader) : Except (List AssemblyError) Module :=
  if r.errors.isEmpty then
    match r.draft.build with
    | .ok m => .ok m
    | .error e => .error [⟨r.blame e, .build e⟩]
  else .error r.errors.toList

def Reader.readLines (r : Reader) (lines : List (List Char × Nat)) : Reader :=
  lines.foldl (fun r (line, number) => r.readLine number line) r

def read (name text : String) : Except (List AssemblyError) Module :=
  ((Reader.start name).readLines ((Text.lines text.toList).zipIdx 1)).finish

end Assembly

end PagedMachine
