import Mathlib.Data.List.Basic
import PagedMachine.Assembly.Reader

/-! The reader without its state. What a line amounts to depends on the line and its number alone: directives,
or an error. A text is read as if the directives of all lines were collected first; the lines that the reader
keeps on the way are then found by looking through them. -/
namespace PagedMachine.Assembly

/-! Lines by themselves. -/

def declaredLabels (line : List Char) : List Label :=
  (many labelDeclaration labelDeclaration_progresses (line.takeWhile (· != ';'))).1

-- A line from behind its labels and the white space there up to its comment.
def statementRest (line : List Char) : List Char :=
  Text.trimStart (many labelDeclaration labelDeclaration_progresses (line.takeWhile (· != ';'))).2

-- The statement of a line, without the labels in front of it, white space and the comment.
def statementText (line : List Char) : List Char :=
  Text.trimEnd (statementRest line)

def statementSpan (number : Nat) (line : List Char) : Span :=
  ⟨number,
    Text.byteLength (line.takeWhile (· != ';')) - Text.byteLength (statementRest line) + 1,
    Text.byteLength (statementText line)⟩

def Statement.directives (span : Span) : Statement → Except Problem (List Directive)
  | .entry => .ok [.entry]
  | .imports names => .ok (names.map .imports)
  | .exports names => .ok (names.map .exports)
  | .literal width value => .ok [.literal value width]
  | .instruction name os => do return [.span span, .instruction (← assemble name os)]

-- What one line says about its module, or what is wrong with it.
def readLine (number : Nat) (line : List Char) : Except AssemblyError (List Directive) :=
  if (statementText line).isEmpty then .ok ((declaredLabels line).map .label)
  else
    match Statement.parse? (statementText line) with
    | none => .error ⟨number, .unreadable (String.ofList (statementText line))⟩
    | some st =>
      match st.directives (statementSpan number line) with
      | .error problem => .error ⟨number, problem⟩
      | .ok directives => .ok ((declaredLabels line).map .label ++ directives)

structure Located where
  line : Nat
  directive : Directive

def readLines (text : String) : List (Nat × Except AssemblyError (List Directive)) :=
  ((Text.lines text.toList).zipIdx 1).map fun (line, number) => (number, readLine number line)

def lineError? : Except AssemblyError (List Directive) → Option AssemblyError
  | .error e => some e
  | .ok _ => none

def located (number : Nat) : Except AssemblyError (List Directive) → List Located
  | .error _ => []
  | .ok directives => directives.map (⟨number, ·⟩)

-- The last label's line for labels that dangle, and the line of the first import for a label that is imported
-- as well as defined.
def blamedLine (directives : List Located) : BuildError → Nat
  | .danglingLabels _ =>
    ((directives.reverse.find? (·.directive.isLabel)).map (·.line)).getD 0
  | .importDefinedLocally l =>
    ((directives.find? fun d => d.directive == .imports l).map (·.line)).getD 0
  | .malformedInstruction _ _ => 0

/-! A reader that is fed directives. -/

def Reader.take (r : Reader) (d : Located) : Reader :=
  match d.directive with
  | .label l => r.declareLabel d.line l
  | .imports l => r.declareImport d.line l
  | directive => { r with draft := r.draft.add directive }

def Reader.takeAll (r : Reader) (ds : List Located) : Reader :=
  ds.foldl Reader.take r

theorem takeAll_cons (r : Reader) (d : Located) (ds : List Located) :
    r.takeAll (d :: ds) = (r.take d).takeAll ds :=
  rfl

theorem takeAll_append (r : Reader) (ds ds' : List Located) :
    r.takeAll (ds ++ ds') = (r.takeAll ds).takeAll ds' :=
  List.foldl_append

theorem take_draft (r : Reader) (d : Located) : (r.take d).draft = r.draft.add d.directive := by
  obtain ⟨number, directive⟩ := d
  cases directive <;> rfl

theorem take_errors (r : Reader) (d : Located) : (r.take d).errors = r.errors := by
  obtain ⟨number, directive⟩ := d
  cases directive <;> rfl

theorem take_lastLabelLine (r : Reader) (d : Located) :
    (r.take d).lastLabelLine = if d.directive.isLabel then d.line else r.lastLabelLine := by
  obtain ⟨number, directive⟩ := d
  cases directive <;> rfl

/-- Of the lines that import a name, the reader keeps the one it comes to first. -/
theorem take_importLines (r : Reader) (d : Located) (l : Label) :
    (r.take d).importLines[l]? =
      r.importLines[l]?.or (if d.directive == .imports l then some d.line else none) := by
  obtain ⟨number, directive⟩ := d
  cases directive with
  | imports k =>
    have hsame : (Directive.imports k == .imports l) = (k == l) := by
      rw [Bool.eq_iff_iff, beq_iff_eq, beq_iff_eq, Directive.imports.injEq]
    have hinsert : (r.importLines.insertIfNew k number)[l]? =
        if compare k l = .eq ∧ k ∉ r.importLines then some number else r.importLines[l]? :=
      Std.ExtTreeMap.getElem?_insertIfNew
    have hstate : (r.take ⟨number, .imports k⟩).importLines = r.importLines.insertIfNew k number := rfl
    rw [hstate, hinsert, hsame]
    by_cases hk : k = l
    · subst hk
      cases hold : r.importLines[k]? with
      | none =>
        have hnew : k ∉ r.importLines := by
          rw [Std.ExtTreeMap.mem_iff_isSome_getElem?, hold]
          decide
        simp [hnew]
      | some first =>
        have hknown : k ∈ r.importLines := by
          rw [Std.ExtTreeMap.mem_iff_isSome_getElem?, hold]
          rfl
        simp [hknown]
    · have hne : compare k l ≠ .eq := fun h => hk (Std.compare_eq_iff_eq.mp h)
      simp [hk, hne]
  | label k => simp [Reader.take, Reader.declareLabel]
  | exports k => simp [Reader.take]
  | entry => simp [Reader.take]
  | span s => simp [Reader.take]
  | instruction i => simp [Reader.take]
  | literal value width => simp [Reader.take]

/-- The draft of a reader is fed the directives it takes, in order. -/
theorem takeAll_draft (r : Reader) (ds : List Located) :
    (r.takeAll ds).draft = (ds.map (·.directive)).foldl Draft.add r.draft := by
  induction ds generalizing r with
  | nil => rfl
  | cons d ds ih =>
    rw [takeAll_cons, ih, take_draft, List.map_cons, List.foldl_cons]

theorem takeAll_errors (r : Reader) (ds : List Located) : (r.takeAll ds).errors = r.errors := by
  induction ds generalizing r with
  | nil => rfl
  | cons d ds ih => exact (ih (r.take d)).trans (take_errors r d)

/-- The line kept for labels is that of the last one. -/
theorem takeAll_lastLabelLine (r : Reader) (ds : List Located) :
    (r.takeAll ds).lastLabelLine =
      ((ds.reverse.find? (·.directive.isLabel)).map (·.line)).getD r.lastLabelLine := by
  induction ds generalizing r with
  | nil => rfl
  | cons d ds ih =>
    rw [takeAll_cons, ih, take_lastLabelLine, List.reverse_cons, List.find?_append]
    cases ds.reverse.find? (·.directive.isLabel) with
    | some last => rfl
    | none => cases hlabel : d.directive.isLabel <;> simp [hlabel]

/-- The line kept for an import is that of the first one. -/
theorem takeAll_importLines (r : Reader) (ds : List Located) (l : Label) :
    (r.takeAll ds).importLines[l]? =
      r.importLines[l]?.or ((ds.find? fun d => d.directive == .imports l).map (·.line)) := by
  induction ds generalizing r with
  | nil => simp [Reader.takeAll]
  | cons d ds ih =>
    rw [takeAll_cons, ih, take_importLines, List.find?_cons, Option.or_assoc]
    cases d.directive == .imports l <;> simp

/-- The line a reader blames from its side tables is the one found among the collected
directives. -/
theorem takeAll_blame (name : String) (ds : List Located) (e : BuildError) :
    ((Reader.start name).takeAll ds).blame e = blamedLine ds e := by
  cases e with
  | danglingLabels labels => exact takeAll_lastLabelLine _ ds
  | importDefinedLocally l =>
    have hempty : (Reader.start name).importLines[l]? = none := Std.ExtTreeMap.getElem?_empty
    rw [Reader.blame, takeAll_importLines, hempty, Option.none_or]
    rfl
  | malformedInstruction position instruction => rfl

/-! A reader that is fed lines. -/

theorem foldl_declareLabel (r : Reader) (number : Nat) (labels : List Label) :
    labels.foldl (Reader.declareLabel number) r = r.takeAll ((labels.map .label).map (⟨number, ·⟩)) := by
  rw [List.map_map, Reader.takeAll, List.foldl_map]
  rfl

theorem foldl_declareImport (r : Reader) (number : Nat) (names : List Label) :
    names.foldl (Reader.declareImport number) r =
      r.takeAll ((names.map .imports).map (⟨number, ·⟩)) := by
  rw [List.map_map, Reader.takeAll, List.foldl_map]
  rfl

theorem foldl_exports (r : Reader) (number : Nat) (names : List Label) :
    { r with draft := names.foldl (fun d l => d.add (.exports l)) r.draft } =
      r.takeAll ((names.map .exports).map (⟨number, ·⟩)) := by
  induction names generalizing r with
  | nil => rfl
  | cons l names ih => exact ih { r with draft := r.draft.add (.exports l) }

/-- A statement that suits is taken as its directives, and one that does not is noted as an error. -/
theorem apply_directives (r : Reader) (span : Span) (st : Statement) :
    match st.directives span with
    | .ok ds => r.apply span st = r.takeAll (ds.map (⟨span.line, ·⟩))
    | .error problem => r.apply span st = { r with errors := r.errors.push ⟨span.line, problem⟩ } := by
  cases st with
  | entry => rfl
  | imports names => exact foldl_declareImport r span.line names
  | exports names => exact foldl_exports r span.line names
  | literal width value => rfl
  | instruction mnemonic os =>
    simp only [Statement.directives, Reader.apply]
    cases assemble mnemonic os with
    | ok i => rfl
    | error problem => rfl

theorem reader_readLine (r : Reader) (number : Nat) (line : List Char) :
    r.readLine number line =
      let r := r.takeAll (((declaredLabels line).map .label).map (⟨number, ·⟩))
      if (statementText line).isEmpty then r
      else
        match Statement.parse? (statementText line) with
        | some st => r.apply (statementSpan number line) st
        | none =>
          { r with errors := r.errors.push ⟨number, .unreadable (String.ofList (statementText line))⟩ } := by
  simp only [← foldl_declareLabel]
  rfl

/-- A good line is taken as its directives. Of a bad one the labels are taken, and the error is noted. -/
theorem readLine_take (r : Reader) (number : Nat) (line : List Char) :
    match readLine number line with
    | .ok ds => r.readLine number line = r.takeAll (ds.map (⟨number, ·⟩))
    | .error e => (r.readLine number line).errors = r.errors.push e := by
  rw [reader_readLine, readLine]
  split_ifs with hempty
  · rfl
  · cases Statement.parse? (statementText line) with
    | none => exact congrArg (Array.push · _) (takeAll_errors r _)
    | some st =>
      have happly := apply_directives
        (r.takeAll (((declaredLabels line).map .label).map (⟨number, ·⟩))) (statementSpan number line) st
      cases hd : st.directives (statementSpan number line) with
      | ok ds =>
        simp only [hd] at happly ⊢
        rw [happly, List.map_append, takeAll_append]
        rfl
      | error problem =>
        simp only [hd] at happly ⊢
        rw [happly]
        exact congrArg (Array.push · _) (takeAll_errors r _)

/-- A line adds its own error to those already there, or none. -/
theorem readLine_errors (r : Reader) (number : Nat) (line : List Char) :
    (r.readLine number line).errors.toList =
      r.errors.toList ++ (lineError? (readLine number line)).toList := by
  have htake := readLine_take r number line
  cases hline : readLine number line with
  | ok ds =>
    simp only [hline] at htake
    rw [htake, takeAll_errors]
    exact (List.append_nil _).symm
  | error e =>
    simp only [hline] at htake
    rw [htake, Array.toList_push]
    rfl

theorem readLines_cons (r : Reader) (q : List Char × Nat) (lines : List (List Char × Nat)) :
    r.readLines (q :: lines) = (r.readLine q.2 q.1).readLines lines :=
  rfl

/-- The errors that a reader has noted are those of the lines it was fed, in their order. -/
theorem readLines_errors (r : Reader) (lines : List (List Char × Nat)) :
    (r.readLines lines).errors.toList =
      r.errors.toList ++ lines.filterMap fun q => lineError? (readLine q.2 q.1) := by
  induction lines generalizing r with
  | nil => simp [Reader.readLines]
  | cons q lines ih =>
    rw [readLines_cons, ih, readLine_errors, List.append_assoc, List.filterMap_cons]
    cases lineError? (readLine q.2 q.1) <;> rfl

/-- Good lines are taken as their directives, one line after the other. -/
theorem readLines_take (r : Reader) (lines : List (List Char × Nat))
    (h : (lines.filterMap fun q => lineError? (readLine q.2 q.1)) = []) :
    r.readLines lines = r.takeAll (lines.flatMap fun q => located q.2 (readLine q.2 q.1)) := by
  induction lines generalizing r with
  | nil => rfl
  | cons q lines ih =>
    have htake := readLine_take r q.2 q.1
    rw [List.filterMap_cons] at h
    cases hline : readLine q.2 q.1 with
    | ok ds =>
      simp only [hline] at htake
      simp only [hline, lineError?] at h
      rw [readLines_cons, htake, ih _ h, List.flatMap_cons, hline, takeAll_append]
      rfl
    | error e => simp [hline, lineError?] at h

theorem finish_eq (r : Reader) :
    r.finish =
      match r.errors.toList with
      | [] =>
        match r.draft.build with
        | .ok m => .ok m
        | .error e => .error [⟨r.blame e, .build e⟩]
      | errors => .error errors := by
  obtain ⟨draft, ⟨errors⟩, lastLabelLine, importLines⟩ := r
  cases errors <;> rfl

/-- Reading a text line by line gives what its lines give by themselves: the errors of the bad ones, if there
are any, and otherwise what the directives of all of them build. -/
theorem read_eq_collected (name text : String) :
    read name text =
      match (readLines text).filterMap fun l => lineError? l.2 with
      | [] =>
        let directives := (readLines text).flatMap fun l => located l.1 l.2
        match (Draft.ofDirectives name (directives.map (·.directive))).build with
        | .ok m => .ok m
        | .error e => .error [⟨blamedLine directives e, .build e⟩]
      | errors => .error errors := by
  have herrors := readLines_errors (Reader.start name) ((Text.lines text.toList).zipIdx 1)
  have hstart : (Reader.start name).errors.toList = [] := rfl
  rw [hstart, List.nil_append] at herrors
  rw [read, finish_eq, herrors]
  simp only [readLines, List.filterMap_map, List.flatMap_map, Function.comp_def]
  cases hbad : ((Text.lines text.toList).zipIdx 1).filterMap fun q => lineError? (readLine q.2 q.1) with
  | nil =>
    rw [readLines_take _ _ hbad, takeAll_draft]
    simp only [takeAll_blame]
    rfl
  | cons e es => rfl

end PagedMachine.Assembly
