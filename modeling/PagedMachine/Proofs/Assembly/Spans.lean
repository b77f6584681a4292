import PagedMachine.Proofs.Assembly.Characters
import PagedMachine.Proofs.Assembly.Contents

/-! Where instructions stand. The span of an instruction is counted in bytes, behind labels and white space and in
front of white space and a comment; what stands there is the statement and nothing else, and read for itself it
is the same instruction. -/
namespace PagedMachine.Assembly

-- A declaration of a label: its name with blanks around it, and a colon.
inductive DeclarationForm : List Char → Label → Prop where
  | mk {before after : List Char} {l : Label} (hb : Blanks before) (hl : isIdentifier l = true)
      (ha : Blanks after) : DeclarationForm (before ++ (l.toList ++ (after ++ [':']))) l

theorem labelDeclaration_readsOnly : ReadsOnly labelDeclaration DeclarationForm := by
  intro s l rest h
  obtain ⟨⟨k, s₁⟩, h₁, h₂⟩ := Option.bind_eq_some_iff.mp h
  obtain ⟨s₂, h₃, h₄⟩ := Option.bind_eq_some_iff.mp h₂
  obtain ⟨rfl, rfl⟩ := Prod.mk.inj (Option.some.inj h₄)
  obtain ⟨before, hb, hs⟩ := skipBlanks_split s
  obtain ⟨t, ht, rfl, hl⟩ := identifier_readsOnly _ _ _ h₁
  obtain ⟨after, ha, hs₁⟩ := skipBlanks_split s₁
  refine ⟨_, ?_, .mk hb hl ha⟩
  rw [expect_eq_some h₃] at hs₁
  rw [hs, ht, hs₁]
  simp

/-! White space at the ends of a text. -/

def IsWhite (s : List Char) : Prop :=
  ∀ c ∈ s, Text.isWhitespace c = true

-- White space neither starts nor ends a text.
structure IsTrimmed (s : List Char) : Prop where
  first : ∀ c ∈ s.head?, Text.isWhitespace c = false
  last : ∀ c ∈ s.getLast?, Text.isWhitespace c = false

/-- Trimming at the front removes white space only. -/
theorem trimStart_split (s : List Char) : ∃ white, IsWhite white ∧ s = white ++ Text.trimStart s := by
  refine ⟨s.takeWhile Text.isWhitespace, ?_, List.takeWhile_append_dropWhile.symm⟩
  intro c hc
  exact List.mem_takeWhile_imp hc

theorem trimEnd_split (s : List Char) : ∃ white, IsWhite white ∧ s = Text.trimEnd s ++ white := by
  obtain ⟨white, hwhite, hs⟩ := trimStart_split s.reverse
  refine ⟨white.reverse, ?_, ?_⟩
  · intro c hc
    exact hwhite c (List.mem_reverse.mp hc)
  · have h := congrArg List.reverse hs
    rwa [List.reverse_reverse, List.reverse_append] at h

theorem trimStart_first (s : List Char) : ∀ c ∈ (Text.trimStart s).head?, Text.isWhitespace c = false := by
  intro c hc
  have h := List.head?_dropWhile_not Text.isWhitespace s
  rw [Text.trimStart] at hc
  rw [hc] at h
  simpa using h

theorem isTrimmed_trim (s : List Char) : IsTrimmed (Text.trimEnd (Text.trimStart s)) where
  first := by
    intro c hc
    obtain ⟨white, -, hs⟩ := trimEnd_split (Text.trimStart s)
    apply trimStart_first s c
    rw [hs, List.head?_append, hc]
    rfl
  last := by
    intro c hc
    rw [Text.trimEnd, List.getLast?_reverse] at hc
    exact trimStart_first _ c hc

theorem trimStart_trimmed {s : List Char} (h : IsTrimmed s) : Text.trimStart s = s := by
  cases s with
  | nil => rfl
  | cons c s => simp [Text.trimStart, h.first c rfl]

theorem trimEnd_trimmed {s : List Char} (h : IsTrimmed s) : Text.trimEnd s = s := by
  have hreverse : IsTrimmed s.reverse := by
    constructor
    · simpa only [List.head?_reverse] using h.last
    · simpa only [List.getLast?_reverse] using h.first
  rw [Text.trimEnd]
  have ht := trimStart_trimmed hreverse
  rw [Text.trimStart] at ht
  rw [ht, List.reverse_reverse]

/-! Bytes. -/

theorem byteLength_append (s t : List Char) :
    Text.byteLength (s ++ t) = Text.byteLength s + Text.byteLength t := by
  induction s with
  | nil => simp [Text.byteLength]
  | cons c s ih => simp only [List.cons_append, Text.byteLength, ih, Nat.add_assoc]

/-- The byte length of a text is the size of its encoding. -/
theorem byteLength_encode (s : List Char) : Text.byteLength s = s.utf8Encode.size := by
  induction s with
  | nil => rfl
  | cons c s ih =>
    have hcons : c :: s = [c] ++ s := rfl
    have hchar : [c].utf8Encode.size = c.utf8Size := by
      rw [List.utf8Encode_singleton, List.size_toByteArray, String.length_utf8EncodeChar]
    rw [Text.byteLength, ih, hcons, List.utf8Encode_append, ByteArray.size_append, hchar]

/-- Bytes that are counted off in front of a text and in it are the bytes of the text. -/
theorem extract_bytes (front source back : List Char) :
    (String.ofList (front ++ (source ++ back))).toUTF8.extract (Text.byteLength front)
      (Text.byteLength front + Text.byteLength source) = (String.ofList source).toUTF8 := by
  have hencode (s : List Char) : (String.ofList s).toUTF8 = s.utf8Encode := rfl
  rw [hencode, hencode, List.utf8Encode_append, List.utf8Encode_append, byteLength_encode,
    byteLength_encode]
  rw [← Nat.add_zero front.utf8Encode.size, Nat.add_assoc, ByteArray.extract_append_size_add]
  rw [Nat.zero_add]
  exact ByteArray.extract_append_eq_left rfl

/-! The statement of a line. -/

-- A span encloses a text of a line, which is its statement: white space and a comment are cut off, and there
-- is nothing but labels and white space in front of it.
structure Encloses (span : Span) (line source : List Char) : Prop where
  -- Columns start at one, and both columns and lengths count bytes.
  bytes : 1 ≤ span.column ∧
    (String.ofList line).toUTF8.extract (span.column - 1) (span.column - 1 + span.length) =
      (String.ofList source).toUTF8
  nonempty : source ≠ []
  trimmed : IsTrimmed source
  uncommented : ';' ∉ source
  surrounded : ∃ declarations labels white white' comment,
    line = declarations.flatten ++ white ++ source ++ white' ++ comment ∧
      List.Forall₂ DeclarationForm declarations labels ∧ IsWhite white ∧ IsWhite white' ∧
      (comment = [] ∨ comment.head? = some ';') ∧
      span.column = Text.byteLength (declarations.flatten ++ white) + 1 ∧
      span.length = Text.byteLength source

/-- A line ends or goes on with a comment behind its code. -/
theorem comment_first (line : List Char) :
    line.dropWhile (· != ';') = [] ∨ (line.dropWhile (· != ';')).head? = some ';' := by
  cases h : line.dropWhile (· != ';') with
  | nil => exact Or.inl rfl
  | cons c s =>
    have hfirst := List.head?_dropWhile_not (· != ';') line
    rw [h] at hfirst
    exact Or.inr (by simpa using hfirst)

/-- The span of a line encloses its statement, byte for byte. -/
theorem statementSpan_encloses (number : Nat) (line : List Char) (h : statementText line ≠ []) :
    Encloses (statementSpan number line) line (statementText line) := by
  -- The line is cut at its comment, then behind its labels, and then at white space on both sides.
  let code := line.takeWhile (· != ';')
  obtain ⟨declarations, hcode, hlabels⟩ :=
    many_readsOnly labelDeclaration_progresses labelDeclaration_readsOnly code
  obtain ⟨white, hwhite, hrest⟩ :=
    trimStart_split (many labelDeclaration labelDeclaration_progresses code).2
  obtain ⟨white', hwhite', hsource⟩ := trimEnd_split (statementRest line)
  have hsplit : code = declarations.flatten ++ white ++ statementRest line := by
    rw [List.append_assoc]
    exact hcode.trans (congrArg (declarations.flatten ++ ·) hrest)
  have hline : line = declarations.flatten ++ white ++
      (statementText line ++ (white' ++ line.dropWhile (· != ';'))) := by
    calc line = code ++ line.dropWhile (· != ';') := List.takeWhile_append_dropWhile.symm
      _ = declarations.flatten ++ white ++ (statementText line ++ white') ++
          line.dropWhile (· != ';') := by rw [hsplit, hsource]; rfl
      _ = _ := by simp only [List.append_assoc]
  have hcolumn : (statementSpan number line).column =
      Text.byteLength (declarations.flatten ++ white) + 1 := by
    have hlength : Text.byteLength (line.takeWhile (· != ';')) =
        Text.byteLength (declarations.flatten ++ white) + Text.byteLength (statementRest line) := by
      rw [← byteLength_append]
      exact congrArg Text.byteLength hsplit
    simp only [statementSpan, hlength, Nat.add_sub_cancel]
  refine ⟨⟨?_, ?_⟩, h, isTrimmed_trim _, ?_, ?_⟩
  · rw [hcolumn]
    exact Nat.le_add_left 1 _
  · rw [hcolumn, Nat.add_sub_cancel]
    have hbytes := extract_bytes (declarations.flatten ++ white) (statementText line)
      (white' ++ line.dropWhile (· != ';'))
    rwa [← hline] at hbytes
  · intro hmem
    have hcomment : ';' ∈ code := by
      rw [hsplit, hsource]
      exact List.mem_append_right _ (List.mem_append_left _ hmem)
    simpa using List.mem_takeWhile_imp hcomment
  · refine ⟨declarations, _, white, white', _, ?_, hlabels, hwhite, hwhite', comment_first line, hcolumn, rfl⟩
    simpa only [List.append_assoc] using hline

/-! A statement on its own. -/

/-- Code holds no comment, no label colon and no line break. -/
theorem isCode_ne {s : List Char} (h : IsCode s) : ';' ∉ s ∧ ':' ∉ s ∧ '\n' ∉ s := by
  refine ⟨?_, ?_, ?_⟩ <;> intro hmem <;> rcases h _ hmem with hc | hc <;> exact absurd hc (by decide)

/-- Code without white space at its ends is a line of its own: there is nothing to cut off. -/
theorem statement_alone (source : List Char) (hcode : IsCode source) (ht : IsTrimmed source) :
    declaredLabels source = [] ∧ statementText source = source ∧
      ∀ number, statementSpan number source = ⟨number, 1, Text.byteLength source⟩ := by
  obtain ⟨hcomment, hcolon, -⟩ := isCode_ne hcode
  -- Without a semicolon the code is all of it, and without a colon there are no labels.
  have htake : source.takeWhile (· != ';') = source := by
    rw [List.takeWhile_eq_self_iff]
    intro c hc
    have hne : c ≠ ';' := fun he => hcomment (he ▸ hc)
    simpa using hne
  have hmany : many labelDeclaration labelDeclaration_progresses source = ([], source) :=
    many_none _ (labelDeclaration_none hcolon)
  have hrest : statementRest source = source := by
    rw [statementRest, htake, hmany, trimStart_trimmed ht]
  have htext : statementText source = source := by
    have htrim : statementText source = Text.trimEnd (statementRest source) := rfl
    rw [htrim, hrest, trimEnd_trimmed ht]
  refine ⟨?_, htext, ?_⟩
  · rw [declaredLabels, htake, hmany]
  · intro number
    rw [statementSpan, htake, hrest, htext, Nat.sub_self]

def lineInstruction? (line : List Char) : Option Instruction :=
  match Statement.parse? (statementText line) with
  | some (.instruction mnemonic os) => (assemble mnemonic os).toOption
  | _ => none

theorem lineInstruction_some (line : List Char) (i : Instruction) (h : lineInstruction? line = some i) :
    ∃ mnemonic os, Statement.parse? (statementText line) = some (.instruction mnemonic os) ∧
      assemble mnemonic os = .ok i := by
  rw [lineInstruction?] at h
  split at h
  · next mnemonic os hparse =>
    refine ⟨mnemonic, os, hparse, ?_⟩
    cases ha : assemble mnemonic os with
    | ok k =>
      rw [ha] at h
      exact congrArg _ (Option.some.inj h)
    | error p => simp [ha, Except.toOption] at h
  · contradiction

theorem lineInstruction_nonempty (line : List Char) (i : Instruction) (h : lineInstruction? line = some i) :
    statementText line ≠ [] := by
  intro hempty
  obtain ⟨mnemonic, os, hparse, -⟩ := lineInstruction_some line i h
  rw [hempty, parse_nil] at hparse
  contradiction

/-- The statement of an instruction, read for itself, is a module with this instruction only. -/
theorem read_alone (name : String) (line : List Char) (i : Instruction)
    (h : lineInstruction? line = some i) :
    read name (String.ofList (statementText line)) =
      .ok ⟨name, [⟨i, [], some ⟨1, 1, Text.byteLength (statementText line)⟩⟩], [], [], [], false⟩ := by
  obtain ⟨mnemonic, os, hparse, hassemble⟩ := lineInstruction_some line i h
  have hne := lineInstruction_nonempty line i h
  have htrim : IsTrimmed (statementText line) := isTrimmed_trim _
  generalize statementText line = source at hparse hne htrim ⊢
  have hcode := parse_isCode source _ hparse
  obtain ⟨hlabels, htext, hspan⟩ := statement_alone source hcode htrim
  have hproblem : lineProblem? source = none := by
    simp [lineProblem?, htext, hparse, Statement.problem?, hassemble]
  have hdirectives : lineDirectives 1 source =
      [.span ⟨1, 1, Text.byteLength source⟩, .instruction i] := by
    simp [lineDirectives, hlabels, statementDirectives, htext, hparse, Statement.said, hassemble, hspan]
  have hlines : Text.lines (String.ofList source).toList = [source] := by
    rw [String.toList_ofList]
    exact Text.lines_alone source hne (isCode_ne hcode).2.2
  have hgood : lineErrors (String.ofList source) = [] := by
    rw [lineErrors, hlines]
    simp [errorsFrom, hproblem]
  have hcontents : (contents (String.ofList source)).map (·.directive) =
      [.span ⟨1, 1, Text.byteLength source⟩, .instruction i] := by
    rw [contents, hlines]
    simp [hdirectives]
  have hwell : i.isWellFormed = true := by
    rcases assemble_cases mnemonic os with ⟨k, hk, hwell⟩ | ⟨p, hp, -⟩
    · rw [hassemble] at hk
      exact Except.ok.inj hk ▸ hwell
    · rw [hassemble] at hp
      contradiction
  rw [read_good_text name _ hgood, hcontents]
  have hbuild : (Draft.ofDirectives name [.span ⟨1, 1, Text.byteLength source⟩, .instruction i]).build =
      .ok ⟨name, [⟨i, [], some ⟨1, 1, Text.byteLength source⟩⟩], [], [], [], false⟩ := by
    rw [build_ok_iff]
    refine ⟨rfl, ?_, ?_, rfl⟩
    · simpa using hwell
    · simp
  rw [hbuild]

/-! The instructions of a text. -/

-- Instructions with their spans.
def spanned (is : List LabeledInstruction) : List (Instruction × Option Span) :=
  is.map fun k => (k.instruction, k.span)

-- A directive that has to do with neither instructions nor spans.
def IsPlain (x : Directive) : Prop :=
  x.instruction? = none ∧ x.span? = none

theorem foldl_plain (ds : List Directive) (h : ∀ x ∈ ds, IsPlain x) (d : Draft) :
    (ds.foldl Draft.add d).instructions = d.instructions ∧
      (ds.foldl Draft.add d).pendingSpan = d.pendingSpan := by
  induction ds generalizing d with
  | nil => exact ⟨rfl, rfl⟩
  | cons x ds ih =>
    obtain ⟨⟨hi, hs⟩, hds⟩ := List.forall_mem_cons.mp h
    have hstep : (d.add x).instructions = d.instructions ∧ (d.add x).pendingSpan = d.pendingSpan := by
      cases x with
      | instruction i => contradiction
      | span s => contradiction
      | _ => exact ⟨rfl, rfl⟩
    obtain ⟨his, hspan⟩ := ih hds (d.add x)
    exact ⟨his.trans hstep.1, hspan.trans hstep.2⟩

theorem labels_plain (labels : List Label) : ∀ x ∈ labels.map Directive.label, IsPlain x := by
  intro x hx
  obtain ⟨l, -, rfl⟩ := List.mem_map.mp hx
  exact ⟨rfl, rfl⟩

/-- A line with an instruction gives its span and then the instruction. -/
theorem statementDirectives_some (number : Nat) (line : List Char) (i : Instruction)
    (h : lineInstruction? line = some i) :
    statementDirectives number line = [.span (statementSpan number line), .instruction i] := by
  obtain ⟨mnemonic, os, hparse, hassemble⟩ := lineInstruction_some line i h
  simp only [statementDirectives, hparse, Statement.said, hassemble]

/-- A line without an instruction gives plain directives only. -/
theorem statementDirectives_none (number : Nat) (line : List Char) (h : lineInstruction? line = none) :
    ∀ x ∈ statementDirectives number line, IsPlain x := by
  rw [lineInstruction?] at h
  rw [statementDirectives]
  cases hparse : Statement.parse? (statementText line) with
  | none => simp
  | some st =>
    cases st with
    | instruction mnemonic os =>
      simp only [hparse] at h
      cases ha : assemble mnemonic os with
      | ok i => simp [ha, Except.toOption] at h
      | error p => simp [Statement.said, ha]
    | _ => simp [Statement.said, IsPlain, Directive.instruction?, Directive.span?]

/-- What a line adds to a draft: its instruction, if it has one, with the place of the statement. No span is left
over for the next line. -/
theorem lineDirectives_spanned (number : Nat) (line : List Char) (d : Draft) (hd : d.pendingSpan = none) :
    ((lineDirectives number line).foldl Draft.add d).pendingSpan = none ∧
      spanned ((lineDirectives number line).foldl Draft.add d).instructions.toList =
        spanned d.instructions.toList ++
          ((lineInstruction? line).map (·, some (statementSpan number line))).toList := by
  obtain ⟨his, hspan⟩ := foldl_plain _ (labels_plain (declaredLabels line)) d
  rw [lineDirectives, List.foldl_append]
  generalize ((declaredLabels line).map Directive.label).foldl Draft.add d = d' at his hspan
  cases hi : lineInstruction? line with
  | none =>
    obtain ⟨his', hspan'⟩ := foldl_plain _ (statementDirectives_none number line hi) d'
    rw [his', his, hspan', hspan]
    exact ⟨hd, by simp⟩
  | some i =>
    rw [statementDirectives_some number line i hi]
    exact ⟨rfl, by simp [Draft.add, spanned, his]⟩

/-- Every instruction is built with the span of the line it stands on. -/
theorem lines_spanned (lines : List (List Char)) (number : Nat) (d : Draft) (hd : d.pendingSpan = none) :
    spanned (((lines.zipIdx number).flatMap fun q => lineDirectives q.2 q.1).foldl Draft.add
        d).instructions.toList =
      spanned d.instructions.toList ++
        (lines.zipIdx number).filterMap fun q =>
          (lineInstruction? q.1).map (·, some (statementSpan q.2 q.1)) := by
  -- Line by line; that no span is pending carries the induction.
  induction lines generalizing number d with
  | nil => simp
  | cons line lines ih =>
    obtain ⟨hspan, his⟩ := lineDirectives_spanned number line d hd
    rw [List.zipIdx_cons, List.flatMap_cons, List.foldl_append, ih (number + 1) _ hspan, his,
      List.append_assoc]
    congr 1
    cases hi : lineInstruction? line <;> simp [hi]

/-- The instructions of a text are those of its lines. -/
theorem read_spanned (name text : String) (m : Module) (h : read name text = .ok m) :
    spanned m.instructions =
      ((Text.lines text.toList).zipIdx 1).filterMap fun q =>
        (lineInstruction? q.1).map (·, some (statementSpan q.2 q.1)) := by
  have hgood : lineErrors text = [] := by
    by_contra hbad
    rw [read_bad_lines name text hbad] at h
    contradiction
  have hcontents : (contents text).map (·.directive) =
      ((Text.lines text.toList).zipIdx 1).flatMap fun q => lineDirectives q.2 q.1 := by
    rw [contents, List.map_flatMap]
    simp [Function.comp_def]
  rw [read_good_text name text hgood, hcontents] at h
  cases hbuild : (Draft.ofDirectives name
      (((Text.lines text.toList).zipIdx 1).flatMap fun q => lineDirectives q.2 q.1)).build with
  | error e =>
    rw [hbuild] at h
    contradiction
  | ok m' =>
    rw [hbuild, Except.ok.injEq] at h
    obtain ⟨-, -, -, hm⟩ := (build_ok_iff _ _).mp hbuild
    rw [← h, ← hm]
    exact lines_spanned _ 1 (Draft.empty name) rfl

/-- Every instruction of a read module stands on a line of the text, with the span of that line. -/
theorem mem_read_instructions (name text : String) (m : Module) (h : read name text = .ok m)
    (k : LabeledInstruction) (hk : k ∈ m.instructions) :
    ∃ number line, 1 ≤ number ∧ (Text.lines text.toList)[number - 1]? = some line ∧
      lineInstruction? line = some k.instruction ∧ k.span = some (statementSpan number line) := by
  have hmem : (k.instruction, k.span) ∈ spanned m.instructions := List.mem_map_of_mem hk
  rw [read_spanned name text m h, List.mem_filterMap] at hmem
  obtain ⟨⟨line, number⟩, hq, he⟩ := hmem
  obtain ⟨i, hi, he⟩ := Option.map_eq_some_iff.mp he
  obtain ⟨rfl, hspan⟩ := Prod.mk.inj he
  obtain ⟨hle, hline⟩ := List.mk_mem_zipIdx_iff_le_and_getElem?_sub.mp hq
  exact ⟨number, line, hle, hline, hi, hspan.symm⟩

/-- The instructions of a read module lie on ascending lines. -/
theorem spans_ascending (name text : String) (m : Module) (h : read name text = .ok m) :
    m.instructions.Pairwise fun k k' => ∀ s ∈ k.span, ∀ s' ∈ k'.span, s.line < s'.line := by
  have hlines (lines : List (List Char)) :
      ((lines.zipIdx 1).filterMap fun q =>
        (lineInstruction? q.1).map (·, some (statementSpan q.2 q.1))).Pairwise
          fun p p' => ∀ s ∈ p.2, ∀ s' ∈ p'.2, s.line < s'.line := by
    rw [List.pairwise_filterMap]
    apply (zipIdx_ascending 1 lines).imp
    intro q q' hlt p hp p' hp' s hs s' hs'
    obtain ⟨i, -, rfl⟩ := Option.map_eq_some_iff.mp hp
    obtain ⟨i', -, rfl⟩ := Option.map_eq_some_iff.mp hp'
    obtain rfl := Option.some.inj hs
    obtain rfl := Option.some.inj hs'
    exact hlt
  have hspanned := hlines (Text.lines text.toList)
  rwa [← read_spanned name text m h, spanned, List.pairwise_map] at hspanned

/-- Spans lead to statements. The instructions of a text stand on lines with ascending numbers, and what the span
of an instruction encloses on its line is a statement that is read as the same instruction when it is all that
there is. -/
theorem spans_enclose_statements (name text : String) (m : Module) (h : read name text = .ok m) :
    (m.instructions.Pairwise fun k k' => ∀ s ∈ k.span, ∀ s' ∈ k'.span, s.line < s'.line) ∧
    ∀ k ∈ m.instructions, ∃ span line source, k.span = some span ∧ 1 ≤ span.line ∧
      (Text.lines text.toList)[span.line - 1]? = some line ∧ Encloses span line source ∧
      ∀ name', read name' (String.ofList source) =
        .ok ⟨name', [⟨k.instruction, [], some ⟨1, 1, span.length⟩⟩], [], [], [], false⟩ := by
  refine ⟨spans_ascending name text m h, ?_⟩
  intro k hk
  obtain ⟨number, line, hpos, hline, hi, hspan⟩ := mem_read_instructions name text m h k hk
  refine ⟨statementSpan number line, line, statementText line, hspan, hpos, hline, ?_, ?_⟩
  · exact statementSpan_encloses number line (lineInstruction_nonempty line _ hi)
  · intro name'
    exact read_alone name' line k.instruction hi

-- Two labels with an ideographic space behind them, which takes three bytes, a no-break space in front of a
-- comment, and lines that end with a carriage return, the last one without a line feed.
def wideBlanks : String :=
  "a : b:\u3000nop\u00a0; c\r\n.entry\r\n\tmov f0, [@a + 4]\r"

theorem wideBlanks_enclosed :
    ∃ m, read "main" wideBlanks = .ok m ∧
      m.instructions.map (·.span) = [some ⟨1, 10, 3⟩, some ⟨3, 2, 16⟩] ∧
      (m.instructions.Pairwise fun k k' => ∀ s ∈ k.span, ∀ s' ∈ k'.span, s.line < s'.line) ∧
      ∀ k ∈ m.instructions, ∃ span line source, k.span = some span ∧ 1 ≤ span.line ∧
        (Text.lines wideBlanks.toList)[span.line - 1]? = some line ∧ Encloses span line source ∧
        ∀ name', read name' (String.ofList source) =
          .ok ⟨name', [⟨k.instruction, [], some ⟨1, 1, span.length⟩⟩], [], [], [], false⟩ := by
  let m : Module :=
    { name := "main"
      instructions :=
        [⟨.nullary .nop, ["a", "b"], some ⟨1, 10, 3⟩⟩,
          ⟨.binary .mov (.register .f0) (.place (.labeled "a" none (some 4))), [], some ⟨3, 2, 16⟩⟩]
      literals := []
      exports := []
      imports := []
      isEntry := true }
  have h : read "main" wideBlanks = .ok m := by decide +kernel
  exact ⟨m, h, rfl, spans_enclose_statements "main" wideBlanks m h⟩

end PagedMachine.Assembly
