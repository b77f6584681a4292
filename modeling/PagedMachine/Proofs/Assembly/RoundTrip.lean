import PagedMachine.Proofs.Assembly.Line
import PagedMachine.Proofs.Draft
import PagedMachine.Proofs.Lines

/-! A module written as assembly is read as the same module. Each line of the text says what it was written
for, and the directives of all lines draft the module again; only the spans of the instructions are
those of the text. -/
namespace PagedMachine

-- Every name that occurs in a module: shared with others, bound to an item, or used by one.
def Module.names (m : Module) : List Label :=
  m.imports ++ m.exports ++ m.definedLabels
    ++ (m.instructions.flatMap fun i => i.instruction.operands.filterMap (·.label?))
    ++ m.literals.filterMap (·.value.label?)

-- The lines that a module is written as, each with what it has to say.
def Module.script (gap : String) (m : Module) : List (String × List Directive) :=
  (if m.isEntry then [(".entry", [.entry])] else [])
    ++ m.imports.map (fun l => (".import " ++ l, [.imports l]))
    ++ m.exports.map (fun l => (".export " ++ l, [.exports l]))
    ++ m.instructions.map (fun i => (i.assembly gap, i.directives))
    ++ m.literals.map (fun l => (l.assembly gap, l.directives))

theorem script_lines (gap : String) (m : Module) :
    (m.script gap).map Prod.fst = m.assemblyLines gap := by
  cases h : m.isEntry <;> simp [Module.script, Module.assemblyLines, h, Function.comp_def]

theorem script_directives (gap : String) (m : Module) :
    (m.script gap).flatMap Prod.snd = m.directives := by
  cases h : m.isEntry <;>
    simp [Module.script, Module.directives, h, List.flatMap_map, List.flatMap_append,
      ← List.map_eq_flatMap]

namespace Assembly

-- A line that can be read, on whatever line it stands, and says the given things beside its span.
def Says (line : List Char) (directives : List Directive) : Prop :=
  (∀ c ∈ line, isPrinted c = true) ∧
    ∀ number, ∃ ds, readLine number line = .ok ds ∧ ds.filter (!·.isSpan) = directives

/-- A statement behind labels, if the statement says the same at every span. -/
theorem says_statement (gap : String) (hgap : IsGap gap.toList) (ls : List Label)
    (hls : ∀ l ∈ ls, isIdentifier l = true) (text : List Char) (st : Statement)
    (directives : List Directive) (ht : IsPhrase text)
    (hst : Statement.parse? text = some st)
    (hd : ∀ span, ∃ ds, st.directives span = .ok ds ∧ ds.filter (!·.isSpan) = directives) :
    Says ((labelsText gap ls).toList ++ text) (ls.map .label ++ directives) := by
  refine ⟨List.forall_mem_append.mpr ⟨isPrinted_labels gap hgap ls hls, isPrinted_phrase ht⟩, ?_⟩
  intro number
  obtain ⟨span, hread⟩ := readLine_statement gap hgap ls hls number text st ht hst
  obtain ⟨ds, hok, hfilter⟩ := hd span
  refine ⟨ls.map .label ++ ds, ?_, ?_⟩
  · rw [hread, hok]
  · have hlabels : (ls.map Directive.label).filter (!·.isSpan) = ls.map Directive.label := by
      simp [List.filter_eq_self, Directive.isSpan]
    rw [List.filter_append, hlabels, hfilter]

theorem says_entry : Says ".entry".toList [.entry] := by
  have ht : IsPhrase ".entry".toList := isPhrase_word (isWord_of_all (by decide) (by decide))
  exact says_statement "" isGap_nil [] (by simp) _ .entry [.entry] ht parse_entry
    fun span => ⟨_, rfl, rfl⟩

/-- A directive with a name behind it. -/
theorem says_directive (directive : String) (l : Label) (st : Statement) (x : Directive)
    (hword : IsWord directive.toList) (h : isIdentifier l = true)
    (hst : Statement.parse? (directive.toList ++ ' ' :: l.toList) = some st)
    (hd : ∀ span, ∃ ds, st.directives span = .ok ds ∧ ds.filter (!·.isSpan) = [x]) :
    Says (directive.toList ++ ' ' :: l.toList) [x] := by
  have ht := isPhrase_spaced (isPhrase_word hword) (isPhrase_word (isWord_identifier l h))
  exact says_statement "" isGap_nil [] (by simp) _ st [x] ht hst hd

theorem says_import (l : Label) (h : isIdentifier l = true) : Says (".import " ++ l).toList [.imports l] := by
  have hsays := says_directive ".import" l (.imports [l]) (.imports l)
    (isWord_of_all (by decide) (by decide)) h (parse_import l h) fun span => ⟨_, rfl, rfl⟩
  simpa using hsays

theorem says_export (l : Label) (h : isIdentifier l = true) : Says (".export " ++ l).toList [.exports l] := by
  have hsays := says_directive ".export" l (.exports [l]) (.exports l)
    (isWord_of_all (by decide) (by decide)) h (parse_export l h) fun span => ⟨_, rfl, rfl⟩
  simpa using hsays

theorem says_literal (gap : String) (hgap : IsGap gap.toList) (l : LabeledLiteral)
    (hls : ∀ k ∈ l.labels, isIdentifier k = true)
    (hv : ∀ k ∈ l.value.label?, isIdentifier k = true) : Says (l.assembly gap).toList l.directives := by
  have hword : IsWord l.width.directive.toList := by
    cases l.width <;> exact isWord_of_all (by decide) (by decide)
  have ht := isPhrase_spaced (isPhrase_word hword) (isPhrase_word (isWord_literal l.value hv))
  have hsays := says_statement gap hgap l.labels hls _ (.literal l.width l.value)
    [.literal l.value l.width] ht (parse_literal l.width l.value hv) fun span => ⟨_, rfl, rfl⟩
  have htext : (l.assembly gap).toList =
      (labelsText gap l.labels).toList ++ (l.width.directive.toList ++ ' ' :: l.value.text.toList) := by
    simp [LabeledLiteral.assembly]
  rw [htext]
  exact hsays

theorem isWord_mnemonic (i : Instruction) (hw : i.isWellFormed = true) : IsWord i.mnemonic.toList := by
  have hname (op : Operation) : IsWord op.name.toList :=
    ⟨(name_alpha op).1, fun c hc => isSolid_of_part (part_of_alpha c ((name_alpha op).2 c hc))⟩
  rcases mnemonic_cases i hw with ⟨op, hop⟩ | ⟨rel, hrel⟩
  · rw [hop]
    exact hname op
  · have hsuffix (c : Char) (hc : c ∈ rel.name.toList) : isSolid c = true :=
      isSolid_of_part (part_of_alpha c ((relation_alpha rel).2 c hc))
    have hdot : ∀ c ∈ ".".toList, isSolid c = true := List.all_eq_true.mp (by decide)
    rw [hrel, String.toList_append, String.toList_append]
    exact isWord_append (isWord_append (hname .cmp) hdot) hsuffix

theorem isPhrase_behindCommas {α : Type} (text : α → List Char) (as : List α) (t : List Char)
    (ht : IsWord t) (has : ∀ a ∈ as, IsWord (text a)) : IsPhrase (t ++ behindCommas text as) := by
  induction as generalizing t with
  | nil =>
    rw [behindCommas, List.flatMap_nil, List.append_nil]
    exact isPhrase_word ht
  | cons a as ih =>
    obtain ⟨ha, has⟩ := List.forall_mem_cons.mp has
    -- A comma belongs to the word in front of it.
    have hcomma : IsWord (t ++ [',']) := isWord_append ht (List.all_eq_true.mp (by decide))
    have hphrase := isPhrase_spaced (isPhrase_word hcomma) (ih (text a) ha has)
    simpa [behindCommas] using hphrase

theorem isPhrase_instruction (i : Instruction) (hw : i.isWellFormed = true)
    (hl : ∀ o ∈ i.operands, ∀ l ∈ o.label?, isIdentifier l = true) : IsPhrase i.text.toList := by
  have hmnemonic := isPhrase_word (isWord_mnemonic i hw)
  rw [instruction_text]
  cases hos : i.operands with
  | nil =>
    rw [operandsText, List.append_nil]
    exact hmnemonic
  | cons o os =>
    have hword : ∀ b ∈ o :: os, IsWord b.text.toList := fun b hb => isWord_operand b (hl b (hos ▸ hb))
    obtain ⟨ho, hos'⟩ := List.forall_mem_cons.mp hword
    exact isPhrase_spaced hmnemonic (isPhrase_behindCommas _ os o.text.toList ho hos')

/-- A printed instruction says its labels and itself. -/
theorem says_instruction (gap : String) (hgap : IsGap gap.toList) (i : LabeledInstruction)
    (hw : i.instruction.isWellFormed = true)
    (hls : ∀ l ∈ i.labels, isIdentifier l = true)
    (hl : ∀ o ∈ i.instruction.operands, ∀ l ∈ o.label?, isIdentifier l = true) :
    Says (i.assembly gap).toList i.directives := by
  have hsays := says_statement gap hgap i.labels hls _
    (.instruction i.instruction.mnemonic i.instruction.operands) [.instruction i.instruction] (isPhrase_instruction i.instruction hw hl)
    (parse_instruction i.instruction hw hl) (by
      intro span
      refine ⟨[.span span, .instruction i.instruction], ?_, rfl⟩
      simp only [Statement.directives, assemble_instruction i.instruction hw]
      rfl)
  rw [LabeledInstruction.assembly, String.toList_append]
  exact hsays

-- What the lines from a number on are read as.
def readings (number : Nat) (lines : List (List Char)) : List (Except AssemblyError (List Directive)) :=
  (lines.zipIdx number).map fun q => readLine q.2 q.1

/-- Lines that say their directives are all read, and give those directives up to spans. -/
theorem readings_says (script : List (String × List Directive))
    (h : ∀ q ∈ script, Says q.1.toList q.2) (number : Nat) :
    ∃ dss : List (List Directive), readings number (script.map (·.1.toList)) = dss.map .ok ∧
      dss.flatten.filter (!·.isSpan) = script.flatMap Prod.snd := by
  induction script generalizing number with
  | nil => exact ⟨[], rfl, rfl⟩
  | cons q script ih =>
    obtain ⟨hq, hscript⟩ := List.forall_mem_cons.mp h
    obtain ⟨ds, hread, hds⟩ := hq.2 number
    obtain ⟨dss, hreads, hdss⟩ := ih hscript (number + 1)
    refine ⟨ds :: dss, ?_, ?_⟩
    · rw [List.map_cons, List.map_cons, ← hreads, ← hread]
      rfl
    · rw [List.flatten_cons, List.filter_append, hds, hdss, List.flatMap_cons]

-- What a reading says, which is nothing if the line is bad.
def said : Except AssemblyError (List Directive) → List Directive
  | .error _ => []
  | .ok directives => directives

theorem map_located (number : Nat) (r : Except AssemblyError (List Directive)) :
    (located number r).map (·.directive) = said r := by
  cases r with
  | error e => rfl
  | ok ds => simp [located, said, Function.comp_def]

/-- A text without bad lines is read as the module that its directives draft. -/
theorem read_of_readings (name text : String) (dss : List (List Directive)) (m : Module)
    (h : readings 1 (Text.lines text.toList) = dss.map .ok)
    (hm : (Draft.ofDirectives name dss.flatten).build = .ok m) : read name text = .ok m := by
  have herrors : ((readLines text).filterMap fun l => lineError? l.2) = [] := by
    have hr : ((readLines text).filterMap fun l => lineError? l.2) =
        (readings 1 (Text.lines text.toList)).filterMap lineError? := by
      simp [readLines, readings, List.filterMap_map]
    rw [hr, h]
    simp [List.filterMap_map, lineError?, Function.comp_def]
  have hdirectives : ((readLines text).flatMap fun l => located l.1 l.2).map (·.directive) =
      dss.flatten := by
    have hr : ((readLines text).flatMap fun l => located l.1 l.2).map (·.directive) =
        (readings 1 (Text.lines text.toList)).flatMap said := by
      simp [readLines, readings, List.map_flatMap, List.flatMap_map, map_located]
    rw [hr, h]
    simp [List.flatMap_map, said, List.flatMap_id']
  simp only [read_eq_collected, herrors, hdirectives, hm]

/-- Every printed line of a module says its directives. -/
theorem script_says (gap : String) (hgap : IsGap gap.toList) (m : Module)
    (hw : ∀ i ∈ m.instructions, i.instruction.isWellFormed = true)
    (hn : ∀ l ∈ m.names, isIdentifier l = true) : ∀ q ∈ m.script gap, Says q.1.toList q.2 := by
  simp only [Module.names, List.forall_mem_append] at hn
  obtain ⟨⟨⟨⟨himports, hexports⟩, hdefined⟩, hoperands⟩, hliterals⟩ := hn
  simp only [Module.definedLabels, List.forall_mem_append] at hdefined
  obtain ⟨hilabels, hllabels⟩ := hdefined
  simp only [Module.script, List.forall_mem_append, List.forall_mem_map]
  refine ⟨⟨⟨⟨?_, fun l hl => says_import l (himports l hl)⟩,
    fun l hl => says_export l (hexports l hl)⟩, ?_⟩, ?_⟩
  · cases m.isEntry with
    | false => simp
    | true => simpa using says_entry
  · intro i hi
    apply says_instruction gap hgap i (hw i hi)
    · intro l hl
      exact hilabels l (List.mem_flatMap.mpr ⟨i, hi, hl⟩)
    · intro o ho l hl
      exact hoperands l (List.mem_flatMap.mpr ⟨i, hi, List.mem_filterMap.mpr ⟨o, ho, hl⟩⟩)
  · intro l hl
    apply says_literal gap hgap l
    · intro k hk
      exact hllabels k (List.mem_flatMap.mpr ⟨l, hl, hk⟩)
    · intro k hk
      exact hliterals k (List.mem_filterMap.mpr ⟨l, hl, hk⟩)

/-- The lines of the printed text are the printed lines. -/
theorem assembly_lines (gap : String) (m : Module) (h : ∀ q ∈ m.script gap, Says q.1.toList q.2) :
    Text.lines (m.assembly gap).toList = (m.script gap).map (·.1.toList) := by
  have htext : (m.assembly gap).toList =
      ((m.script gap).map (·.1.toList)).flatMap (· ++ ['\n']) := by
    simp [Module.assembly, ← script_lines, List.flatMap_map]
  rw [htext]
  apply Text.lines_flatMap
  intro line hline c hc
  obtain ⟨q, hq, rfl⟩ := List.mem_map.mp hline
  exact (printed_ne c ((h q hq).1 c hc)).2

/-- Whatever was drafted under spans of its own passes the checks that the module passed. -/
theorem build_of_unspanned (d : Draft) (m : Module) (hl : d.pendingLabels = #[])
    (hw : ∀ i ∈ m.instructions, i.instruction.isWellFormed = true)
    (hi : ∀ l ∈ m.imports, l ∉ m.definedLabels) (hd : d.contents.unspanned = m.unspanned) :
    d.build = .ok d.contents := by
  rw [build_ok_iff]
  refine ⟨hl, ?_, ?_, rfl⟩
  · have his : (d.contents.instructions.map (·.unspanned)) = m.instructions.map (·.unspanned) :=
      congrArg Module.instructions hd
    intro i hi
    have hmem : i.unspanned ∈ m.instructions.map (·.unspanned) := his ▸ List.mem_map_of_mem hi
    obtain ⟨k, hk, he⟩ := List.mem_map.mp hmem
    have hinstruction := congrArg LabeledInstruction.instruction he
    change k.instruction = i.instruction at hinstruction
    rw [← hinstruction]
    exact hw k hk
  · have himports := congrArg Module.imports hd
    have hdefined := congrArg Module.definedLabels hd
    change d.contents.imports = m.imports at himports
    rw [definedLabels_unspanned, definedLabels_unspanned] at hdefined
    rw [himports, hdefined]
    exact hi

end Assembly

/-- A built module whose names can be written is read from its own text, with nothing changed but the spans
of its instructions. Any blanks may be left behind its labels, or none. -/
theorem read_assembly (m : Module) (gap : String) (hb : m.IsBuilt)
    (hn : ∀ l ∈ m.names, Assembly.isIdentifier l = true) (hgap : Assembly.IsGap gap.toList) :
    ∃ m', Assembly.read m.name (m.assembly gap) = .ok m' ∧ m'.unspanned = m.unspanned := by
  obtain ⟨himports, hexports⟩ := isBuilt_nodup m hb
  obtain ⟨name, directives, hbuild⟩ := hb
  obtain ⟨-, hw, hi, -⟩ := (build_ok_iff _ m).mp hbuild
  have hsays := Assembly.script_says gap hgap m hw hn
  -- What the lines say are the module's directives, with a span in front of each instruction.
  obtain ⟨dss, hreads, hdss⟩ := Assembly.readings_says (m.script gap) hsays 1
  rw [← Assembly.assembly_lines gap m hsays] at hreads
  rw [script_directives] at hdss
  -- Without spans the draft is the module, and no check looks at spans.
  let d := Draft.ofDirectives m.name dss.flatten
  have hd := ofDirectives_unspanned m.name dss.flatten
  rw [hdss, ofDirectives_directives m himports hexports] at hd
  have hlabels : d.pendingLabels = #[] := congrArg Draft.pendingLabels hd
  have hcontents : d.contents.unspanned = m.unspanned := by
    rw [contents_unspanned, hd]
    rfl
  have hm := Assembly.build_of_unspanned d m hlabels hw hi hcontents
  exact ⟨d.contents, Assembly.read_of_readings m.name (m.assembly gap) dss _ hreads hm, hcontents⟩

-- A module with every shape of instruction, and with the least offset there is.
def sampler : Module where
  name := "sampler"
  instructions :=
    [⟨.binary .mov (.based .f0 (some 0x80000000)) (.immediate (-1)), ["start", "_again2"], none⟩,
      ⟨.compare .ltu (.place (.labeled "table" (some .f1) (some 4))) (.address "limit"), [], none⟩,
      ⟨.ternary .mulu (.place (.indexed .f2 .f5)) (.register .xx) (.labeled "table" none none), [], none⟩,
      ⟨.unary .not (.register .f3), ["not"], none⟩,
      ⟨.nullary .nop, [], none⟩]
  literals := [⟨.number (-5), .half, ["table"]⟩, ⟨.address "start", .word, []⟩]
  exports := ["start", "table"]
  imports := ["limit"]
  isEntry := true

theorem sampler_read_assembly :
    sampler.IsBuilt ∧ (∀ l ∈ sampler.names, Assembly.isIdentifier l = true) ∧
      Assembly.IsGap " ".toList ∧
      ∃ m', Assembly.read sampler.name (sampler.assembly " ") = .ok m' ∧
        m'.unspanned = sampler.unspanned := by
  have hb : sampler.IsBuilt := ⟨"sampler", sampler.directives, by decide +kernel⟩
  have hn : ∀ l ∈ sampler.names, Assembly.isIdentifier l = true := by decide +kernel
  have hgap : Assembly.IsGap " ".toList := by
    simp [Assembly.IsGap, Assembly.isBlank]
  exact ⟨hb, hn, hgap, read_assembly sampler " " hb hn hgap⟩

end PagedMachine
