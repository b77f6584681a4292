import PagedMachine.Assembly.Statement
import PagedMachine.Proofs.Assembly.Operand

/-! Statements read back: the directives that a module is written with, and every well-formed instruction.
Mnemonics and the operands behind them are read to the end of the statement, and assembling them gives
the instruction again. -/
namespace PagedMachine

def Instruction.mnemonic : Instruction → String
  | .nullary op | .unary op _ | .binary op _ _ | .ternary op _ _ _ => op.name
  | .compare rel _ _ => Operation.cmp.name ++ "." ++ rel.name
  | .trap t => t.text

def Literal.label? : Literal → Option Label
  | .number _ => none
  | .address l => some l

namespace Assembly

section Repetition

variable {α : Type} {item : Parser α} (text : α → List Char)

theorem many_some (hi : Progresses item) {s rest : List Char} {a : α} (h : item s = some (a, rest)) :
    many item hi s = (a :: (many item hi rest).1, (many item hi rest).2) := by
  rw [many]
  split
  · next hn =>
    rw [h] at hn
    contradiction
  · next a' rest' hs =>
    rw [h] at hs
    obtain ⟨rfl, rfl⟩ := Prod.mk.inj (Option.some.inj hs)
    rfl

theorem many_none (hi : Progresses item) {s : List Char} (h : item s = none) :
    many item hi s = ([], s) := by
  rw [many]
  split
  · rfl
  · next hs =>
    rw [h] at hs
    contradiction

-- Items, each of them behind a comma.
def behindCommas (as : List α) : List Char :=
  as.flatMap fun a => ',' :: ' ' :: text a

theorem ends_behindCommas (as : List α) : Ends (behindCommas text as) := by
  cases as with
  | nil => exact ends_nil
  | cons a as => exact (ends_cons _ _).mpr (by decide)

/-- Items behind commas are read to the end of the text. -/
theorem many_reads_commas (hi : Progresses (behindComma item)) (as : List α)
    (h : ∀ a ∈ as, IsWord (text a) ∧ Reads item (text a) a) :
    many (behindComma item) hi (behindCommas text as) = (as, []) := by
  induction as with
  | nil => exact many_none hi rfl
  | cons a as ih =>
    obtain ⟨⟨hw, ha⟩, has⟩ := List.forall_mem_cons.mp h
    have hfirst : behindComma item (behindCommas text (a :: as)) = some (a, behindCommas text as) := by
      have hcomma : expectSpaced ',' (behindCommas text (a :: as)) =
          some (skipBlanks (text a ++ behindCommas text as)) := rfl
      rw [skipBlanks_word hw] at hcomma
      simp only [behindComma, hcomma, Option.bind_eq_bind, Option.bind_some,
        ha _ (ends_behindCommas text as)]
    -- What follows an item starts with a comma or is nothing, so that the item ends there.
    rw [many_some hi hfirst, ih has]

/-- A nonempty list of items with commas between them is read as that list. -/
theorem separated_reads (hi : Shrinks item) (a : α) (as : List α)
    (h : ∀ b ∈ a :: as, IsWord (text b) ∧ Reads item (text b) b) :
    separated item hi (text a ++ behindCommas text as) = some (a :: as, []) := by
  obtain ⟨⟨-, ha⟩, has⟩ := List.forall_mem_cons.mp h
  simp only [separated, ha _ (ends_behindCommas text as), Option.bind_eq_bind, Option.bind_some,
    many_reads_commas text _ as has]
  rfl

end Repetition

theorem expectBlanks_word {t : List Char} (h : IsWord t) (rest : List Char) :
    expectBlanks (' ' :: (t ++ rest)) = some (t ++ rest) := by
  have hblank : expectBlanks (' ' :: (t ++ rest)) = some (skipBlanks (t ++ rest)) := rfl
  rw [hblank, skipBlanks_word h]

-- The operands of an instruction as they stand behind the mnemonic.
def operandsText : List Operand → List Char
  | [] => []
  | o :: os => ' ' :: (o.text.toList ++ behindCommas (·.text.toList) os)

theorem instruction_text (i : Instruction) :
    i.text.toList = i.mnemonic.toList ++ operandsText i.operands := by
  cases i <;> simp [Instruction.text, Instruction.mnemonic, Instruction.operands, operandsText,
    behindCommas, Operand.text]

/-- Where operands or nothing follows, a mnemonic ends and has no suffix. -/
theorem operandsText_ends (os : List Operand) :
    Ends (operandsText os) ∧ suffix (operandsText os) = none := by
  cases os with
  | nil => exact ⟨ends_nil, rfl⟩
  | cons o os => exact ⟨(ends_cons _ _).mpr (by decide), rfl⟩

theorem name_alpha (op : Operation) :
    op.name.toList ≠ [] ∧ ∀ c ∈ op.name.toList, c.isAlpha = true := by
  rw [← List.all_eq_true]
  cases op <;> decide

theorem relation_alpha (rel : Relation) :
    rel.name.toList ≠ [] ∧ ∀ c ∈ rel.name.toList, c.isAlpha = true := by
  rw [← List.all_eq_true]
  cases rel <;> decide

theorem mnemonic_operation (op : Operation) (os : List Operand) :
    mnemonic (op.name.toList ++ operandsText os) = some (op.name, operandsText os) := by
  obtain ⟨hne, halpha⟩ := name_alpha op
  obtain ⟨hends, hsuffix⟩ := operandsText_ends os
  have hrun := run_reads Char.isAlpha part_of_alpha _ hne halpha _ hends
  simp only [mnemonic, hrun, Option.bind_eq_bind, Option.bind_some, optional_none hsuffix,
    Option.getD_none, List.append_nil, String.ofList_toList]
  rfl

theorem mnemonic_compare (rel : Relation) (os : List Operand) :
    mnemonic ((Operation.cmp.name ++ "." ++ rel.name).toList ++ operandsText os) =
      some (Operation.cmp.name ++ "." ++ rel.name, operandsText os) := by
  obtain ⟨hne, halpha⟩ := relation_alpha rel
  have hrel := run_reads Char.isAlpha part_of_alpha _ hne halpha _ (operandsText_ends os).1
  have hsuffix : suffix ('.' :: (rel.name.toList ++ operandsText os)) =
      some ('.' :: rel.name.toList, operandsText os) := by
    have hdot : expect ['.'] ('.' :: (rel.name.toList ++ operandsText os)) =
        some (rel.name.toList ++ operandsText os) := rfl
    simp only [suffix, hdot, Option.bind_eq_bind, Option.bind_some, hrel]
    rfl
  have hcmp := run_reads Char.isAlpha part_of_alpha _ (name_alpha .cmp).1 (name_alpha .cmp).2
    ('.' :: (rel.name.toList ++ operandsText os)) ((ends_cons _ _).mpr (by decide))
  have hsplit : (Operation.cmp.name ++ "." ++ rel.name).toList ++ operandsText os =
      Operation.cmp.name.toList ++ '.' :: (rel.name.toList ++ operandsText os) := by
    simp
  have hname : String.ofList (Operation.cmp.name.toList ++ '.' :: rel.name.toList) =
      Operation.cmp.name ++ "." ++ rel.name := by
    apply String.toList_injective
    simp
  simp only [hsplit, mnemonic, hcmp, Option.bind_eq_bind, Option.bind_some, optional_some hsuffix,
    Option.getD_some, hname]
  rfl

/-- The mnemonic of a well-formed instruction names its operation or a comparison. -/
theorem mnemonic_cases (i : Instruction) (hw : i.isWellFormed = true) :
    (∃ op : Operation, i.mnemonic = op.name) ∨
      ∃ rel : Relation, i.mnemonic = Operation.cmp.name ++ "." ++ rel.name := by
  cases i with
  | nullary op => exact Or.inl ⟨op, rfl⟩
  | unary op dst => exact Or.inl ⟨op, rfl⟩
  | binary op dst src => exact Or.inl ⟨op, rfl⟩
  | ternary op a b c => exact Or.inl ⟨op, rfl⟩
  | compare rel left right => exact Or.inr ⟨rel, rfl⟩
  | trap t => contradiction

/-- The mnemonic of a well-formed instruction is read whole. -/
theorem mnemonic_instruction (i : Instruction) (hw : i.isWellFormed = true) (os : List Operand) :
    mnemonic (i.mnemonic.toList ++ operandsText os) = some (i.mnemonic, operandsText os) := by
  rcases mnemonic_cases i hw with ⟨op, hop⟩ | ⟨rel, hrel⟩
  · rw [hop]
    exact mnemonic_operation op os
  · rw [hrel]
    exact mnemonic_compare rel os

/-- A printed instruction is read as its mnemonic and its operands. -/
theorem instructionStatement_reads (i : Instruction) (hw : i.isWellFormed = true)
    (hl : ∀ o ∈ i.operands, ∀ l ∈ o.label?, isIdentifier l = true) :
    instructionStatement i.text.toList = some (.instruction i.mnemonic i.operands, []) := by
  rw [instruction_text, instructionStatement, mnemonic_instruction i hw]
  simp only [Option.bind_eq_bind, Option.bind_some]
  cases hos : i.operands with
  | nil => rfl
  | cons o os =>
    -- The blank behind the mnemonic is skipped, and the first operand starts with none.
    have hread (b : Operand) (hb : b ∈ o :: os) :
        IsWord b.text.toList ∧ Reads operand b.text.toList b := by
      have hb' := hl b (hos ▸ hb)
      exact ⟨isWord_operand b hb', operand_reads b hb'⟩
    have hsep := separated_reads (·.text.toList) operand_shrinks o os hread
    have hblank := expectBlanks_word (hread o List.mem_cons_self).1 (behindCommas (·.text.toList) os)
    simp only [operandsText, hblank, operands, hsep]
    rfl

theorem entryStatement_none {s : List Char} (h : expect ".entry".toList s = none) :
    entryStatement s = none := by
  simp only [entryStatement, h, Option.bind_eq_bind, Option.bind_none]

theorem namesStatement_none (directive : String) (make : List Label → Statement) {s : List Char}
    (h : expect directive.toList s = none) : namesStatement directive make s = none := by
  simp only [namesStatement, h, Option.bind_eq_bind, Option.bind_none]

theorem literalStatement_none (w : Width) {s : List Char} (h : expect w.directive.toList s = none) :
    literalStatement w s = none := by
  simp only [literalStatement, h, Option.bind_eq_bind, Option.bind_none]

/-- All directives start with a dot. -/
theorem statement_no_dot (c : Char) (s : List Char) (hc : '.' ≠ c) :
    statement (c :: s) = instructionStatement (c :: s) := by
  have hexpect (ts : List Char) : expect ('.' :: ts) (c :: s) = none := expect_other '.' c ts s hc
  have hliteral (w : Width) : literalStatement w (c :: s) = none := by
    apply literalStatement_none
    cases w <;> exact hexpect _
  simp only [statement, either, entryStatement_none (hexpect _), namesStatement_none ".import" _ (hexpect _),
    namesStatement_none ".export" _ (hexpect _), hliteral]

/-- No mnemonic starts with a dot, so it is never taken for a directive. -/
theorem mnemonic_front (i : Instruction) (hw : i.isWellFormed = true) :
    ∃ c s, i.mnemonic.toList = c :: s ∧ '.' ≠ c := by
  rcases mnemonic_cases i hw with ⟨op, hop⟩ | ⟨rel, hrel⟩
  · rw [hop]
    cases op <;> exact ⟨_, _, rfl, by decide⟩
  · rw [hrel, String.toList_append, String.toList_append]
    exact ⟨'c', _, rfl, by decide⟩

/-- A printed instruction is the statement of its mnemonic and operands. -/
theorem parse_instruction (i : Instruction) (hw : i.isWellFormed = true)
    (hl : ∀ o ∈ i.operands, ∀ l ∈ o.label?, isIdentifier l = true) :
    Statement.parse? i.text.toList = some (.instruction i.mnemonic i.operands) := by
  have hread := instructionStatement_reads i hw hl
  obtain ⟨c, s, hname, hc⟩ := mnemonic_front i hw
  rw [instruction_text, hname, List.cons_append] at hread ⊢
  simp only [Statement.parse?, statement_no_dot c _ hc, hread]

theorem namesStatement_reads (directive : String) (make : List Label → Statement) (l : Label)
    (h : isIdentifier l = true) :
    namesStatement directive make (directive.toList ++ ' ' :: l.toList) = some (make [l], []) := by
  have hsep := separated_reads String.toList identifier_shrinks l [] (by
    intro b hb
    rw [List.mem_singleton.mp hb]
    exact ⟨isWord_identifier l h, identifier_reads l h⟩)
  have hblank := expectBlanks_word (isWord_identifier l h) []
  rw [List.append_nil] at hblank
  simp only [behindCommas, List.flatMap_nil, List.append_nil] at hsep
  simp only [namesStatement, expect_append, Option.bind_eq_bind, Option.bind_some, hblank, mapped, hsep,
    Option.map_some]

theorem parse_import (l : Label) (h : isIdentifier l = true) :
    Statement.parse? (".import".toList ++ ' ' :: l.toList) = some (.imports [l]) := by
  have hentry : entryStatement (".import".toList ++ ' ' :: l.toList) = none := entryStatement_none rfl
  simp only [Statement.parse?, statement, either, hentry, namesStatement_reads ".import" .imports l h]

theorem parse_export (l : Label) (h : isIdentifier l = true) :
    Statement.parse? (".export".toList ++ ' ' :: l.toList) = some (.exports [l]) := by
  have hentry : entryStatement (".export".toList ++ ' ' :: l.toList) = none := entryStatement_none rfl
  have himport : namesStatement ".import" .imports (".export".toList ++ ' ' :: l.toList) = none :=
    namesStatement_none ".import" _ rfl
  simp only [Statement.parse?, statement, either, hentry, himport,
    namesStatement_reads ".export" .exports l h]

theorem parse_entry : Statement.parse? ".entry".toList = some .entry := by
  decide

/-- The first character of a number tells it from a reference. -/
theorem decimal_front (w : Word) : ∃ c s, w.decimal.toList = c :: s ∧ '@' ≠ c ∧ '#' ≠ c := by
  rcases decimal_cases w with ⟨n, -, -, htext⟩ | ⟨n, -, -, htext⟩
  · cases hn : Nat.toDigits 10 n with
    | nil => exact absurd hn Nat.toDigits_ne_nil
    | cons c s =>
      have hc := digits_toDigits n c (hn ▸ List.mem_cons_self)
      refine ⟨c, s, htext.trans hn, ?_, ?_⟩
      · rintro rfl
        exact absurd hc (by decide)
      · rintro rfl
        exact absurd hc (by decide)
  · exact ⟨'-', _, htext, by decide, by decide⟩

theorem literalValue_reads (v : Literal) (h : ∀ l ∈ v.label?, isIdentifier l = true) :
    Reads literalValue v.text.toList v := by
  cases v with
  | number w =>
    obtain ⟨c, s, htext, hat, hash⟩ := decimal_front w
    have hread := mapped_reads Literal.number (word_reads w)
    rw [htext] at hread
    rw [Literal.text, htext]
    apply either_reads_second (mapped_rejects _ (behind_rejects '@' c hat))
    intro rest hrest
    have hplain : expect ['#'] (c :: s ++ rest) = none := expect_other '#' c [] _ hash
    simp only [hplain, Option.getD_none, hread rest hrest]
  | address l =>
    have htext : (Literal.address l).text.toList = '@' :: l.toList := by
      simp [Literal.text]
    rw [htext]
    apply either_reads_first
    exact mapped_reads _ (behind_reads '@' (identifier_reads l (h l rfl)))

theorem isWord_literal (v : Literal) (h : ∀ l ∈ v.label?, isIdentifier l = true) :
    IsWord v.text.toList := by
  cases v with
  | number w => exact isWord_decimal w
  | address l =>
    rw [Literal.text, String.toList_append]
    exact isWord_labelReference l (h l rfl)

theorem literalStatement_reads (w : Width) (v : Literal)
    (h : ∀ l ∈ v.label?, isIdentifier l = true) :
    literalStatement w (w.directive.toList ++ ' ' :: v.text.toList) = some (.literal w v, []) := by
  have hblank := expectBlanks_word (isWord_literal v h) []
  have hread := literalValue_reads v h [] ends_nil
  rw [List.append_nil] at hblank hread
  simp only [literalStatement, expect_append, Option.bind_eq_bind, Option.bind_some, hblank, mapped, hread,
    Option.map_some]

/-- A printed literal parses as its width and value. -/
theorem parse_literal (w : Width) (v : Literal) (h : ∀ l ∈ v.label?, isIdentifier l = true) :
    Statement.parse? (w.directive.toList ++ ' ' :: v.text.toList) = some (.literal w v) := by
  have hread := literalStatement_reads w v h
  have hentry : entryStatement (w.directive.toList ++ ' ' :: v.text.toList) = none := by
    cases w <;> exact entryStatement_none rfl
  have himport : namesStatement ".import" .imports (w.directive.toList ++ ' ' :: v.text.toList) = none := by
    cases w <;> exact namesStatement_none ".import" _ rfl
  have hexport : namesStatement ".export" .exports (w.directive.toList ++ ' ' :: v.text.toList) = none := by
    cases w <;> exact namesStatement_none ".export" _ rfl
  -- The alternatives in front differ from the directive in some character.
  have hother (w' : Width) (hne : w' ≠ w) :
      literalStatement w' (w.directive.toList ++ ' ' :: v.text.toList) = none := by
    apply literalStatement_none
    cases w <;> cases w' <;> first | rfl | contradiction
  cases w with
  | word => simp only [Statement.parse?, statement, either, hentry, himport, hexport, hread]
  | half =>
    simp only [Statement.parse?, statement, either, hentry, himport, hexport, hread,
      hother .word (by decide)]
  | byte =>
    simp only [Statement.parse?, statement, either, hentry, himport, hexport, hread,
      hother .word (by decide), hother .half (by decide)]

theorem cutMnemonic_operation (op : Operation) : cutMnemonic op.name = (op.name, none) := by
  cases op <;> decide

theorem cutMnemonic_compare (rel : Relation) :
    cutMnemonic (Operation.cmp.name ++ "." ++ rel.name) = (Operation.cmp.name, some rel.name) := by
  cases rel <;> decide

theorem operation_ofName (op : Operation) : Operation.ofName? op.name = some op := by
  cases op <;> decide

theorem relation_ofName (rel : Relation) : Relation.ofName? rel.name = some rel := by
  cases rel <;> decide

/-- An operation other than a comparison assembles from its name alone. -/
theorem assemble_operation (op : Operation) (h : op.family ≠ .compare) (os : List Operand) :
    assemble op.name os = withOperands op.name op .eq os := by
  simp only [assemble, cutMnemonic_operation, operation_ofName]

/-- A well-formed instruction is assembled from its mnemonic and operands. -/
theorem assemble_instruction (i : Instruction) (h : i.isWellFormed = true) :
    assemble i.mnemonic i.operands = .ok i := by
  cases i with
  | nullary op =>
    have hf : op.family = .nullary := beq_iff_eq.mp h
    simp only [Instruction.mnemonic, assemble_operation op (by simp [hf]), withOperands, hf,
      Instruction.operands]
  | unary op dst =>
    have hf : op.family = .unary := beq_iff_eq.mp h
    simp only [Instruction.mnemonic, assemble_operation op (by simp [hf]), withOperands, hf,
      Instruction.operands, writable, Operand.place?]
    rfl
  | binary op dst src =>
    have hf : op.family = .binary := beq_iff_eq.mp h
    simp only [Instruction.mnemonic, assemble_operation op (by simp [hf]), withOperands, hf,
      Instruction.operands, writable, Operand.place?]
    rfl
  | ternary op a b c =>
    have hf : op.family = .ternary := beq_iff_eq.mp h
    simp only [Instruction.mnemonic, assemble_operation op (by simp [hf]), withOperands, hf,
      Instruction.operands, writable, Operand.place?]
    rfl
  | compare rel left right =>
    have hf : Operation.cmp.family = .compare := rfl
    simp only [Instruction.mnemonic, assemble, cutMnemonic_compare, operation_ofName, hf, relation_ofName,
      withOperands, Instruction.operands]
  | trap t => contradiction

end Assembly

end PagedMachine
