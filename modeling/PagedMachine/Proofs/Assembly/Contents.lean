import PagedMachine.Proofs.Assembly.LineErrors
import PagedMachine.Proofs.Drafting

/-! What the lines of a text say. A good line declares its labels and then makes its statement, and a text without
bad lines is drafted from what its lines say, one after the other. -/
namespace PagedMachine.Assembly

-- What a statement says, if its operands suit it.
def Statement.said (span : Span) : Statement → List Directive
  | .entry => [.entry]
  | .imports names => names.map .imports
  | .exports names => names.map .exports
  | .literal width value => [.literal value width]
  | .instruction mnemonic os =>
    match assemble mnemonic os with
    | .ok i => [.span span, .instruction i]
    | .error _ => []

-- What the statement of a line says, which is nothing if there is none.
def statementDirectives (number : Nat) (line : List Char) : List Directive :=
  match Statement.parse? (statementText line) with
  | none => []
  | some st => st.said (statementSpan number line)

def lineDirectives (number : Nat) (line : List Char) : List Directive :=
  (declaredLabels line).map .label ++ statementDirectives number line

-- What a text says, with the lines that say it.
def contents (text : String) : List Located :=
  ((Text.lines text.toList).zipIdx 1).flatMap fun q => (lineDirectives q.2 q.1).map (⟨q.2, ·⟩)

/-- A statement without a problem gives the builder what it says. -/
theorem directives_said (st : Statement) (span : Span) (h : st.problem? = none) :
    st.directives span = .ok (st.said span) := by
  cases st with
  | instruction mnemonic os =>
    simp only [Statement.problem?] at h
    simp only [Statement.directives, Statement.said]
    cases ha : assemble mnemonic os with
    | ok i => rfl
    | error p => simp only [ha, reduceCtorEq] at h
  | _ => rfl

theorem parse_nil : Statement.parse? [] = none := by
  decide

/-- A line without a problem is read as its labels followed by its statement. -/
theorem readLine_good (number : Nat) (line : List Char) (h : lineProblem? line = none) :
    readLine number line = .ok (lineDirectives number line) := by
  simp only [lineProblem?] at h
  rw [readLine, lineDirectives, statementDirectives]
  split_ifs at h ⊢ with hempty
  · rw [List.isEmpty_iff.mp hempty, parse_nil, List.append_nil]
  · cases hst : Statement.parse? (statementText line) with
    | none => simp only [hst, reduceCtorEq] at h
    | some st =>
      simp only [hst] at h
      simp only [directives_said st _ h]

theorem lineErrors_nil (text : String) (h : lineErrors text = []) :
    ∀ line ∈ Text.lines text.toList, lineProblem? line = none := by
  intro line hline
  obtain ⟨n, hn⟩ := List.mem_iff_getElem?.mp hline
  rw [Option.eq_none_iff_forall_ne_some]
  intro p hp
  have hmem : (⟨n + 1, p⟩ : AssemblyError) ∈ lineErrors text :=
    (mem_errorsFrom 1 _ _).mpr ⟨Nat.le_add_left 1 n, line, hn, hp⟩
  rw [h] at hmem
  contradiction

/-- A text without bad lines is drafted from its contents. -/
theorem read_good_text (name text : String) (h : lineErrors text = []) :
    read name text =
      match (Draft.ofDirectives name ((contents text).map (·.directive))).build with
      | .ok m => .ok m
      | .error e => .error [⟨blamedLine (contents text) e, .build e⟩] := by
  have hcontents : ((readLines text).flatMap fun l => located l.1 l.2) = contents text := by
    rw [readLines, List.flatMap_map, contents]
    apply List.flatMap_congr
    rintro ⟨line, number⟩ hq
    have hgood := lineErrors_nil text h line (List.fst_mem_of_mem_zipIdx hq)
    simp only [readLine_good number line hgood, located]
  cases hbuild : (Draft.ofDirectives name ((contents text).map (·.directive))).build with
  | ok m => simp only [read_eq_collected, lineErrors_readLines, h, hcontents, hbuild]
  | error e => simp only [read_eq_collected, lineErrors_readLines, h, hcontents, hbuild]

/-! What statements have to say about labels, imports and instructions. -/

def importedNames (line : List Char) : List Label :=
  match Statement.parse? (statementText line) with
  | some (.imports names) => names
  | _ => []

/-- The labels a line gives the builder are those declared at its front. -/
theorem lineDirectives_labels (number : Nat) (line : List Char) :
    (lineDirectives number line).filterMap (·.label?) = declaredLabels line := by
  have hlabels : ((declaredLabels line).map Directive.label).filterMap (·.label?) = declaredLabels line := by
    simp [List.filterMap_map, Directive.label?]
  have hstatement : (statementDirectives number line).filterMap (·.label?) = [] := by
    rw [statementDirectives]
    cases Statement.parse? (statementText line) with
    | none => rfl
    | some st =>
      cases st with
      | instruction mnemonic os =>
        simp only [Statement.said]
        cases assemble mnemonic os <;> rfl
      | _ => simp [Statement.said, Directive.label?]
  rw [lineDirectives, List.filterMap_append, hlabels, hstatement, List.append_nil]

/-- The imports a line gives the builder are those its statement names. -/
theorem lineDirectives_imports (number : Nat) (line : List Char) :
    (lineDirectives number line).filterMap (·.import?) = importedNames line := by
  have hlabels : ((declaredLabels line).map Directive.label).filterMap (·.import?) = [] := by
    simp [Directive.import?]
  have hstatement : (statementDirectives number line).filterMap (·.import?) = importedNames line := by
    rw [statementDirectives, importedNames]
    cases Statement.parse? (statementText line) with
    | none => rfl
    | some st =>
      cases st with
      | instruction mnemonic os =>
        simp only [Statement.said]
        cases assemble mnemonic os <;> rfl
      | _ => simp [Statement.said, Directive.import?, List.filterMap_map]
  rw [lineDirectives, List.filterMap_append, hlabels, hstatement, List.nil_append]

/-- Only well-formed instructions are read. -/
theorem lineDirectives_wellFormed (number : Nat) (line : List Char) (i : Instruction)
    (h : .instruction i ∈ lineDirectives number line) : i.isWellFormed = true := by
  simp only [lineDirectives, List.mem_append, List.mem_map, reduceCtorEq, and_false, exists_false,
    false_or, statementDirectives] at h
  cases hst : Statement.parse? (statementText line) with
  | none => simp [hst] at h
  | some st =>
    cases st with
    | instruction mnemonic os =>
      rcases assemble_cases mnemonic os with ⟨k, hk, hwell⟩ | ⟨p, hp, -⟩
      · have hi : i = k := by simpa [hst, Statement.said, hk] using h
        exact hi ▸ hwell
      · simp [hst, Statement.said, hp] at h
    | _ => simp [hst, Statement.said] at h

end PagedMachine.Assembly
