import PagedMachine.Proofs.Assembly.Reader
import PagedMachine.Proofs.Lines

/-! Bad lines. What is wrong with a line depends on its own characters and on nothing else, so that the
errors of a text are those of its lines, in their order, and texts that are joined at a line break keep
theirs. -/
namespace PagedMachine.Assembly

-- What is wrong with a statement that can be read: its operands may not suit its mnemonic.
def Statement.problem? : Statement → Option Problem
  | .instruction mnemonic os =>
    match assemble mnemonic os with
    | .error p => some p
    | .ok _ => none
  | _ => none

-- What is wrong with a line, whatever its number and whatever stands on other lines.
def lineProblem? (line : List Char) : Option Problem :=
  let source := statementText line
  if source.isEmpty then none
  else
    match Statement.parse? source with
    | none => some (.unreadable (String.ofList source))
    | some st => st.problem?

-- The errors of consecutive lines, of which the first has the given number.
def errorsFrom (number : Nat) (lines : List (List Char)) : List AssemblyError :=
  (lines.zipIdx number).filterMap fun q => (lineProblem? q.1).map (⟨q.2, ·⟩)

def lineErrors (text : String) : List AssemblyError :=
  errorsFrom 1 (Text.lines text.toList)

/-- A statement gives directives or reports its problem, never both. -/
theorem directives_problem (st : Statement) (span : Span) :
    (∃ ds, st.directives span = .ok ds ∧ st.problem? = none) ∨
      ∃ p, st.directives span = .error p ∧ st.problem? = some p := by
  cases st with
  | instruction mnemonic os =>
    simp only [Statement.directives, Statement.problem?]
    cases assemble mnemonic os with
    | error p => exact Or.inr ⟨p, rfl, rfl⟩
    | ok i => exact Or.inl ⟨_, rfl, rfl⟩
  | _ => exact Or.inl ⟨_, rfl, rfl⟩

theorem lineError_readLine (number : Nat) (line : List Char) :
    lineError? (readLine number line) = (lineProblem? line).map (⟨number, ·⟩) := by
  -- Labels and span go into the directives, which are dropped here if there is an error.
  rw [readLine]
  simp only [lineProblem?]
  split_ifs with hempty
  · rfl
  · cases Statement.parse? (statementText line) with
    | none => rfl
    | some st =>
      rcases directives_problem st (statementSpan number line) with ⟨ds, hd, hp⟩ | ⟨p, hd, hp⟩
      · simp only [hd, hp]
        rfl
      · simp only [hd, hp]
        rfl

/-- The errors of a text are the errors of its lines, in order. -/
theorem lineErrors_readLines (text : String) :
    ((readLines text).filterMap fun l => lineError? l.2) = lineErrors text := by
  simp only [readLines, List.filterMap_map, Function.comp_def, lineError_readLine]
  rfl

theorem writable_cases (mnemonic : String) (position : Nat) (o : Operand) :
    (∃ place, writable mnemonic position o = .ok place) ∨
      writable mnemonic position o = .error (.notWritable mnemonic position) := by
  cases hp : o.place? with
  | some place => exact Or.inl ⟨place, by simp only [writable, hp]⟩
  | none => exact Or.inr (by simp only [writable, hp])

/-- Operands that suit their operation make a well-formed instruction, and any others a problem of the line. -/
theorem withOperands_cases (mnemonic : String) (op : Operation) (rel : Relation) (os : List Operand) :
    (∃ i, withOperands mnemonic op rel os = .ok i ∧ i.isWellFormed = true) ∨
      ∃ p, withOperands mnemonic op rel os = .error p ∧ ∀ e, p ≠ .build e := by
  simp only [withOperands]
  -- One case for each number of operands; which of them are written to differs.
  split
  · next hf => exact Or.inl ⟨_, rfl, beq_iff_eq.mpr hf⟩
  · next dst hf =>
    rcases writable_cases mnemonic 1 dst with ⟨p, hp⟩ | hp
    · rw [hp]
      exact Or.inl ⟨_, rfl, beq_iff_eq.mpr hf⟩
    · rw [hp]
      exact Or.inr ⟨_, rfl, fun _ => Problem.noConfusion⟩
  · next dst src hf =>
    rcases writable_cases mnemonic 1 dst with ⟨p, hp⟩ | hp
    · rw [hp]
      exact Or.inl ⟨_, rfl, beq_iff_eq.mpr hf⟩
    · rw [hp]
      exact Or.inr ⟨_, rfl, fun _ => Problem.noConfusion⟩
  · next a b c hf =>
    rcases writable_cases mnemonic 2 b with ⟨p, hp⟩ | hp
    · rcases writable_cases mnemonic 3 c with ⟨q, hq⟩ | hq
      · rw [hp, hq]
        exact Or.inl ⟨_, rfl, beq_iff_eq.mpr hf⟩
      · rw [hp, hq]
        exact Or.inr ⟨_, rfl, fun _ => Problem.noConfusion⟩
    · rw [hp]
      exact Or.inr ⟨_, rfl, fun _ => Problem.noConfusion⟩
  · exact Or.inl ⟨_, rfl, rfl⟩
  · exact Or.inr ⟨_, rfl, fun _ => Problem.noConfusion⟩

/-- Assembling gives a well-formed instruction or an error that is not the builder's. -/
theorem assemble_cases (mnemonic : String) (os : List Operand) :
    (∃ i, assemble mnemonic os = .ok i ∧ i.isWellFormed = true) ∨
      ∃ p, assemble mnemonic os = .error p ∧ ∀ e, p ≠ .build e := by
  simp only [assemble]
  split
  · exact Or.inr ⟨_, rfl, fun _ => Problem.noConfusion⟩
  · split
    · split
      · exact withOperands_cases _ _ _ _
      · exact Or.inr ⟨_, rfl, fun _ => Problem.noConfusion⟩
    · exact Or.inr ⟨_, rfl, fun _ => Problem.noConfusion⟩
    · exact Or.inr ⟨_, rfl, fun _ => Problem.noConfusion⟩
    · exact withOperands_cases _ _ _ _

/-- No line alone reports an error of the builder. -/
theorem lineProblem_ne_build (line : List Char) (e : BuildError) :
    lineProblem? line ≠ some (.build e) := by
  intro h
  simp only [lineProblem?] at h
  split_ifs at h
  split at h
  · cases h
  · next st _ =>
    cases st with
    | instruction mnemonic os =>
      rcases assemble_cases mnemonic os with ⟨i, hi, -⟩ | ⟨p, hp, hne⟩
      · simp only [Statement.problem?, hi, reduceCtorEq] at h
      · simp only [Statement.problem?, hp, Option.some.injEq] at h
        exact hne e h
    | _ => cases h

/-- The errors of two runs of lines are those of the first and then those of the second, counted
on. -/
theorem errorsFrom_append (number : Nat) (s t : List (List Char)) :
    errorsFrom number (s ++ t) = errorsFrom number s ++ errorsFrom (number + s.length) t := by
  rw [errorsFrom, List.zipIdx_append, List.filterMap_append]
  rfl

/-- An error is reported exactly when the line it names has its problem. -/
theorem mem_errorsFrom (number : Nat) (lines : List (List Char)) (e : AssemblyError) :
    e ∈ errorsFrom number lines ↔ number ≤ e.line ∧
      ∃ line, lines[e.line - number]? = some line ∧ lineProblem? line = some e.problem := by
  simp only [errorsFrom, List.mem_filterMap, Option.map_eq_some_iff]
  constructor
  · rintro ⟨⟨line, n⟩, hq, p, hp, rfl⟩
    obtain ⟨hle, hline⟩ := List.mk_mem_zipIdx_iff_le_and_getElem?_sub.mp hq
    exact ⟨hle, line, hline, hp⟩
  · rintro ⟨hle, line, hline, hp⟩
    exact ⟨(line, e.line), List.mk_mem_zipIdx_iff_le_and_getElem?_sub.mpr ⟨hle, hline⟩,
      e.problem, hp, rfl⟩

theorem zipIdx_ascending (number : Nat) (lines : List (List Char)) :
    (lines.zipIdx number).Pairwise fun q q' => q.2 < q'.2 := by
  have hnumbers : ((lines.zipIdx number).map Prod.snd).Pairwise (· < ·) := by
    rw [List.zipIdx_map_snd]
    exact List.pairwise_lt_range'
  rwa [List.pairwise_map] at hnumbers

/-- Each line reports at most one error, so the lines of the errors ascend. -/
theorem errorsFrom_ascending (number : Nat) (lines : List (List Char)) :
    (errorsFrom number lines).Pairwise fun e e' => e.line < e'.line := by
  rw [errorsFrom, List.pairwise_filterMap]
  apply (zipIdx_ascending number lines).imp
  intro q q' hlt e he e' he'
  obtain ⟨p, -, rfl⟩ := Option.map_eq_some_iff.mp he
  obtain ⟨p', -, rfl⟩ := Option.map_eq_some_iff.mp he'
  exact hlt

-- An error as it reads with a number of lines in front of its own.
def moved (n : Nat) (e : AssemblyError) : AssemblyError :=
  { e with line := e.line + n }

/-- Lines counted from a later number report the same errors, moved. -/
theorem errorsFrom_moved (number n : Nat) (lines : List (List Char)) :
    errorsFrom (number + n) lines = (errorsFrom number lines).map (moved n) := by
  induction lines generalizing number with
  | nil => rfl
  | cons line lines ih =>
    have hcons (k : Nat) : errorsFrom k (line :: lines) =
        errorsFrom k [line] ++ errorsFrom (k + 1) lines := errorsFrom_append k [line] lines
    have hfirst : errorsFrom (number + n) [line] = (errorsFrom number [line]).map (moved n) := by
      simp only [errorsFrom, List.zipIdx_singleton]
      cases h : lineProblem? line <;> simp [h, moved]
    rw [hcons, hcons, List.map_append, hfirst, Nat.add_right_comm, ih]

/-- A text behind whole lines reports its own errors, moved by the number of those lines. -/
theorem lineErrors_append (s t : String) (h : s.toList.getLast? = some '\n') :
    lineErrors (s ++ t) =
      lineErrors s ++ (lineErrors t).map (moved (Text.lines s.toList).length) := by
  obtain ⟨cs, hs⟩ := List.getLast?_eq_some_iff.mp h
  have hlines : Text.lines (s ++ t).toList = Text.lines s.toList ++ Text.lines t.toList := by
    rw [String.toList_append, hs, List.append_assoc, List.singleton_append, Text.lines_append_break]
  rw [lineErrors, hlines, errorsFrom_append, errorsFrom_moved]
  rfl

-- Reading ends with a problem of the module as a whole.
def BuildFails (name text : String) : Prop :=
  ∃ line e, read name text = .error [⟨line, .build e⟩]

def reported : Except (List AssemblyError) Module → List AssemblyError
  | .error errors => errors
  | .ok _ => []

/-- A text with bad lines is rejected with exactly their errors. -/
theorem read_bad_lines (name text : String) (h : lineErrors text ≠ []) :
    read name text = .error (lineErrors text) := by
  obtain ⟨e, es, he⟩ := List.exists_cons_of_ne_nil h
  simp only [read_eq_collected, lineErrors_readLines, he]

/-- A text without a bad line is read, or only its build fails. -/
theorem read_good_lines (name text : String) (h : lineErrors text = []) :
    (∃ m, read name text = .ok m) ∨ BuildFails name text := by
  simp only [BuildFails, read_eq_collected, lineErrors_readLines, h]
  cases (Draft.ofDirectives name _).build with
  | ok m => exact Or.inl ⟨m, rfl⟩
  | error e => exact Or.inr ⟨_, e, rfl⟩

/-- Unless its build fails, a text reports the errors of its lines. -/
theorem reported_read (name text : String) (h : ¬BuildFails name text) :
    reported (read name text) = lineErrors text := by
  by_cases hbad : lineErrors text = []
  · rcases read_good_lines name text hbad with ⟨m, hm⟩ | hbuild
    · rw [hm, hbad]
      rfl
    · exact absurd hbuild h
  · rw [read_bad_lines name text hbad]
    rfl

/-- Errors are told line by line. Each line has at most one, which its characters alone decide. A text with
a bad line is answered with the errors of all its bad lines in ascending order, and any other text with
its module or with one problem of the module as a whole. If two texts are joined at a line break, their
errors are joined as well, the later ones moved by the lines in front of them. -/
theorem read_tells_bad_lines (name text : String) :
    (lineErrors text ≠ [] → read name text = .error (lineErrors text)) ∧
    (lineErrors text = [] → (∃ m, read name text = .ok m) ∨ BuildFails name text) ∧
    ((lineErrors text).Pairwise fun e e' => e.line < e'.line) ∧
    (∀ e, e ∈ lineErrors text ↔
      1 ≤ e.line ∧ ∃ line, (Text.lines text.toList)[e.line - 1]? = some line ∧
        lineProblem? line = some e.problem) ∧
    (∀ line e, lineProblem? line ≠ some (.build e)) ∧
    ∀ more name' name'', text.toList.getLast? = some '\n' →
      ((∃ errors, read name text = .error errors) ∨ ∃ errors, read name' more = .error errors) →
      ¬BuildFails name text → ¬BuildFails name' more →
      read name'' (text ++ more) =
        .error (reported (read name text) ++
          (reported (read name' more)).map (moved (Text.lines text.toList).length)) := by
  refine ⟨read_bad_lines name text, read_good_lines name text, errorsFrom_ascending _ _,
    mem_errorsFrom _ _, lineProblem_ne_build, ?_⟩
  intro more name' name'' hbreak hfails hbuild hbuild'
  have hjoined := lineErrors_append text more hbreak
  rw [reported_read name text hbuild, reported_read name' more hbuild', ← hjoined]
  apply read_bad_lines
  -- One of the two texts fails, and not for its module, so it has a bad line.
  have hbad (name text : String) (h : ∃ errors, read name text = .error errors)
      (hb : ¬BuildFails name text) : lineErrors text ≠ [] := by
    intro hnone
    obtain ⟨errors, he⟩ := h
    rcases read_good_lines name text hnone with ⟨m, hm⟩ | hbuild
    · rw [hm] at he
      cases he
    · exact hb hbuild
  rw [hjoined]
  rcases hfails with hf | hf
  · exact List.append_ne_nil_of_left_ne_nil (hbad name text hf hbuild) _
  · apply List.append_ne_nil_of_right_ne_nil
    simpa using hbad name' more hf hbuild'

/-- Two texts with a bad line each. The second imports a label of the first, which is no matter of lines. -/
theorem jump_and_move_errors :
    "loop:\tjmp f0 ; no such thing\nnop\n".toList.getLast? = some '\n' ∧
    ¬BuildFails "first" "loop:\tjmp f0 ; no such thing\nnop\n" ∧
    ¬BuildFails "second" ".import loop\nmov #1, f0" ∧
    read "joined" ("loop:\tjmp f0 ; no such thing\nnop\n" ++ ".import loop\nmov #1, f0") =
      .error [⟨1, .notAnOperation "jmp"⟩, ⟨4, .notWritable "mov" 1⟩] := by
  have herrors : lineErrors "loop:\tjmp f0 ; no such thing\nnop\n" =
      [⟨1, .notAnOperation "jmp"⟩] := by decide +kernel
  have herrors' : lineErrors ".import loop\nmov #1, f0" = [⟨2, .notWritable "mov" 1⟩] := by
    decide +kernel
  have h := read_bad_lines "first" "loop:\tjmp f0 ; no such thing\nnop\n" (by simp [herrors])
  have h' := read_bad_lines "second" ".import loop\nmov #1, f0" (by simp [herrors'])
  rw [herrors] at h
  rw [herrors'] at h'
  have hlines : (Text.lines "loop:\tjmp f0 ; no such thing\nnop\n".toList).length = 2 := by
    decide +kernel
  have hbreak : "loop:\tjmp f0 ; no such thing\nnop\n".toList.getLast? = some '\n' := by
    decide +kernel
  have hbuild : ¬BuildFails "first" "loop:\tjmp f0 ; no such thing\nnop\n" := by
    rintro ⟨line, e, hb⟩
    rw [h] at hb
    cases hb
  have hbuild' : ¬BuildFails "second" ".import loop\nmov #1, f0" := by
    rintro ⟨line, e, hb⟩
    rw [h'] at hb
    cases hb
  have hjoined := (read_tells_bad_lines "first" "loop:\tjmp f0 ; no such thing\nnop\n").2.2.2.2.2
    ".import loop\nmov #1, f0" "second" "joined" hbreak (Or.inl ⟨_, h⟩) hbuild hbuild'
  rw [h, h', hlines] at hjoined
  exact ⟨hbreak, hbuild, hbuild', hjoined⟩

end PagedMachine.Assembly
