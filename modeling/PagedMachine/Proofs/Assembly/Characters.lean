import Mathlib.Data.List.Forall2
import PagedMachine.Proofs.Assembly.Line
import PagedMachine.Proofs.Assembly.Recognition

/-! The characters of statements. Whatever is read as a statement is made of solid characters and blanks, so that
it holds no comment, no colon and no line break. -/
namespace PagedMachine.Assembly

-- A text of solid characters and blanks.
def IsCode (t : List Char) : Prop :=
  ∀ c ∈ t, isSolid c = true ∨ isBlank c = true

theorem isCode_nil : IsCode [] := by
  simp [IsCode]

theorem isCode_append {s t : List Char} : IsCode (s ++ t) ↔ IsCode s ∧ IsCode t :=
  List.forall_mem_append

theorem isCode_cons {c : Char} {t : List Char} (hc : isSolid c = true) (ht : IsCode t) : IsCode (c :: t) :=
  List.forall_mem_cons.mpr ⟨Or.inl hc, ht⟩

theorem isCode_word {t : List Char} (h : IsWord t) : IsCode t :=
  fun c hc => Or.inl (h.solid c hc)

theorem isCode_blanks {b : List Char} (h : Blanks b) : IsCode b :=
  fun c hc => Or.inr ((isBlank_iff c).mpr (h c hc))

theorem isCode_flatten {ts : List (List Char)} (h : ∀ t ∈ ts, IsCode t) : IsCode ts.flatten := by
  intro c hc
  obtain ⟨t, ht, hct⟩ := List.mem_flatten.mp hc
  exact h t ht c hct

theorem isCode_spaced {c : Char} {t : List Char} (hc : isSolid c = true) (h : Spaced c t) : IsCode t := by
  obtain ⟨hb, ha⟩ := h
  exact isCode_append.mpr ⟨isCode_blanks hb, isCode_cons hc (isCode_blanks ha)⟩

/-! Operands. -/

theorem isCode_identifier {l : Label} (h : isIdentifier l = true) : IsCode l.toList :=
  isCode_word (isWord_identifier l h)

theorem isCode_base {t : List Char} {b : Base} (h : BaseForm t b) : IsCode t :=
  isCode_word (base_reads h).1

theorem isCode_index {t : List Char} {r : Option Register} (h : IndexForm t r) : IsCode t := by
  cases h with
  | absent => exact isCode_nil
  | present r hs =>
    exact isCode_append.mpr ⟨isCode_spaced (by decide) hs, isCode_word (isWord_register r)⟩

theorem isCode_offset {t : List Char} {d : Option Word} (h : OffsetForm t d) : IsCode t := by
  cases h with
  | absent => exact isCode_nil
  | plus hs hn | minus hs hn =>
    exact isCode_append.mpr ⟨isCode_spaced (by decide) hs, isCode_word (integerForm_front hn).1⟩

theorem isCode_reference {t : List Char} {p : Place} (h : ReferenceForm t p) : IsCode t := by
  obtain ⟨before, u, i, d, after, b, r, w, ⟨hb, hu, hi, hd, ha⟩, -, rfl⟩ := (referenceForm_iff t p).mp h
  apply isCode_cons (by decide)
  simp only [isCode_append]
  exact ⟨isCode_blanks hb, isCode_base hu, isCode_index hi, isCode_offset hd, isCode_blanks ha,
    isCode_cons (by decide) isCode_nil⟩

/-- Every form of an operand is code. -/
theorem isCode_operand {t : List Char} {o : Operand} (h : OperandForm t o) : IsCode t := by
  cases h with
  | immediate hn => exact isCode_cons (by decide) (isCode_word (integerForm_front hn).1)
  | address hl => exact isCode_cons (by decide) (isCode_identifier hl)
  | register r => exact isCode_word (isWord_register r)
  | reference hr => exact isCode_reference hr

/-! Parsers of code. -/

-- A parser takes nothing but code off the front of a text.
def ReadsCode {α : Type} (item : Parser α) : Prop :=
  ReadsOnly item fun t _ => IsCode t

/-- What is read item by item is the items one after the other. -/
theorem many_readsOnly {α : Type} {item : Parser α} {form : List Char → α → Prop}
    (hi : Progresses item) (h : ReadsOnly item form) (s : List Char) :
    ∃ ts, s = ts.flatten ++ (many item hi s).2 ∧ List.Forall₂ form ts (many item hi s).1 := by
  fun_induction many item hi s with
  | case1 s hs => exact ⟨[], rfl, .nil⟩
  | case2 s a rest hs hlt as rest' hmany ih =>
    obtain ⟨t, rfl, ht⟩ := h s a rest hs
    obtain ⟨ts, hts, hforms⟩ := ih
    rw [hmany] at hts hforms
    exact ⟨t :: ts, by rw [List.flatten_cons, List.append_assoc, ← hts], .cons ht hforms⟩

section Combinators

variable {α β : Type} {item first second : Parser α}

theorem mapped_readsCode (f : α → β) (h : ReadsCode item) : ReadsCode (mapped f item) :=
  mapped_readsOnly f h fun _ _ ht => ht

theorem expectBlanks_eq_some {s rest : List Char} (h : expectBlanks s = some rest) :
    ∃ b, Blanks b ∧ s = b ++ rest := by
  cases s with
  | nil => contradiction
  | cons c s =>
    rw [expectBlanks, Option.ite_none_right_eq_some, Option.some.injEq] at h
    obtain ⟨hc, rfl⟩ := h
    obtain ⟨b, hb, hs⟩ := skipBlanks_split s
    refine ⟨c :: b, List.forall_mem_cons.mpr ⟨(isBlank_iff c).mp hc, hb⟩, ?_⟩
    rw [List.cons_append, ← hs]

/-- A word and blanks in front of code are code. -/
theorem directive_readsCode (directive : List Char) (hd : IsCode directive) (h : ReadsCode item) :
    ReadsCode (fun s => do item (← expectBlanks (← expect directive s))) := by
  intro s a rest hs
  obtain ⟨s₁, h₁, hs₁⟩ := Option.bind_eq_some_iff.mp hs
  obtain ⟨s₂, h₂, hs₂⟩ := Option.bind_eq_some_iff.mp hs₁
  obtain ⟨b, hb, rfl⟩ := expectBlanks_eq_some h₂
  obtain ⟨t, rfl, ht⟩ := h s₂ a rest hs₂
  refine ⟨directive ++ (b ++ t), ?_, isCode_append.mpr ⟨hd, isCode_append.mpr ⟨isCode_blanks hb, ht⟩⟩⟩
  rw [expect_eq_some h₁, List.append_assoc, List.append_assoc]

/-- A list of items is code when each item is: the commas and the blanks around them are code
too. -/
theorem separated_readsCode (hi : Shrinks item) (h : ReadsCode item) : ReadsCode (separated item hi) := by
  have hbehind : ReadsCode (behindComma item) := by
    apply readsOnly_mono (behindSpaced_readsOnly ',' h)
    rintro t a ⟨u, v, rfl, hu, hv⟩
    exact isCode_append.mpr ⟨isCode_spaced (by decide) hu, hv⟩
  intro s as rest hs
  obtain ⟨⟨a, s₁⟩, h₁, hs⟩ := Option.bind_eq_some_iff.mp hs
  obtain ⟨-, rfl⟩ := Prod.mk.inj (Option.some.inj hs)
  obtain ⟨t, rfl, ht⟩ := h s a s₁ h₁
  obtain ⟨ts, hts, hforms⟩ := many_readsOnly (behindComma_progresses hi) hbehind s₁
  obtain ⟨hcode, -⟩ := (List.forall₂_and_left _ _).mp (hforms.imp fun _ _ hu => And.intro hu trivial)
  refine ⟨t ++ ts.flatten, ?_, isCode_append.mpr ⟨ht, isCode_flatten hcode⟩⟩
  rw [List.append_assoc]
  exact congrArg (t ++ ·) hts

end Combinators

theorem identifier_readsCode : ReadsCode identifier := by
  apply readsOnly_mono identifier_readsOnly
  rintro t l ⟨rfl, hl⟩
  exact isCode_identifier hl

theorem literalValue_readsCode : ReadsCode literalValue := by
  have hinteger : ReadsCode integer := by
    apply readsOnly_mono integer_readsOnly
    rintro t w ⟨n, hn, -⟩
    exact isCode_word (integerForm_front hn).1
  apply either_readsOnly
  · apply mapped_readsOnly _ labelReference_readsOnly
    rintro t l ⟨rfl, hl⟩
    exact isCode_cons (by decide) (isCode_identifier hl)
  · -- The sharp sign in front of a number may be missing.
    intro s v rest hs
    cases hsharp : expect ['#'] s with
    | none =>
      simp only [hsharp, Option.getD_none] at hs
      exact mapped_readsCode _ hinteger s v rest hs
    | some s₁ =>
      simp only [hsharp, Option.getD_some] at hs
      obtain ⟨t, rfl, ht⟩ := mapped_readsCode _ hinteger s₁ v rest hs
      have hs₁ : s = '#' :: (t ++ rest) := expect_eq_some hsharp
      exact ⟨'#' :: t, hs₁, isCode_cons (by decide) ht⟩

theorem run_alpha_readsCode : ReadsCode (run Char.isAlpha) := by
  apply readsOnly_mono (run_readsOnly Char.isAlpha)
  rintro t cs ⟨rfl, -, hcs⟩ c hc
  exact Or.inl (isSolid_of_part (part_of_alpha c (hcs c hc)))

theorem suffix_readsCode : ReadsCode suffix := by
  intro s cs rest hs
  obtain ⟨s₁, h₁, hs⟩ := Option.bind_eq_some_iff.mp hs
  obtain ⟨⟨ds, s₂⟩, h₂, hs⟩ := Option.bind_eq_some_iff.mp hs
  obtain ⟨-, rfl⟩ := Prod.mk.inj (Option.some.inj hs)
  obtain ⟨t, rfl, ht⟩ := run_alpha_readsCode s₁ ds s₂ h₂
  have hs₁ : s = '.' :: (t ++ s₂) := expect_eq_some h₁
  exact ⟨'.' :: t, hs₁, isCode_cons (by decide) ht⟩

theorem mnemonic_readsCode : ReadsCode mnemonic := by
  intro s name rest hs
  obtain ⟨⟨cs, s₁⟩, h₁, hs⟩ := Option.bind_eq_some_iff.mp hs
  obtain ⟨-, rfl⟩ := Prod.mk.inj (Option.some.inj hs)
  obtain ⟨t, rfl, ht⟩ := run_alpha_readsCode s cs s₁ h₁
  obtain ⟨u, hu, hcode⟩ := @optional_readsOnly _ suffix (fun t _ => IsCode t) suffix_readsCode isCode_nil s₁
  refine ⟨t ++ u, ?_, isCode_append.mpr ⟨ht, hcode⟩⟩
  rw [List.append_assoc]
  exact congrArg (t ++ ·) hu

/-- The operands of an instruction consume code, whether there are any or not. -/
theorem operands_readsCode (s : List Char) : ∃ t, s = t ++ (operands s).2 ∧ IsCode t := by
  have hoperand : ReadsCode operand := readsOnly_mono operand_readsOnly fun _ _ => isCode_operand
  rw [operands]
  cases hs : separated operand operand_shrinks s with
  | none => exact ⟨[], rfl, isCode_nil⟩
  | some result => exact separated_readsCode operand_shrinks hoperand s result.1 result.2 hs

theorem instructionStatement_readsCode : ReadsCode instructionStatement := by
  intro s st rest hs
  obtain ⟨⟨name, s₁⟩, h₁, h₂⟩ := Option.bind_eq_some_iff.mp hs
  obtain ⟨t, rfl, ht⟩ := mnemonic_readsCode s name s₁ h₁
  cases hb : expectBlanks s₁ with
  | none =>
    simp only [hb] at h₂
    obtain ⟨-, rfl⟩ := Prod.mk.inj (Option.some.inj h₂)
    exact ⟨t, rfl, ht⟩
  | some s₂ =>
    simp only [hb] at h₂
    obtain ⟨-, rfl⟩ := Prod.mk.inj (Option.some.inj h₂)
    obtain ⟨b, hblanks, rfl⟩ := expectBlanks_eq_some hb
    obtain ⟨u, hu, hcode⟩ := operands_readsCode s₂
    refine ⟨t ++ (b ++ u), ?_, isCode_append.mpr ⟨ht, isCode_append.mpr ⟨isCode_blanks hblanks, hcode⟩⟩⟩
    rw [List.append_assoc, List.append_assoc, ← hu]

/-- Each kind of statement consumes code. -/
theorem statement_readsCode : ReadsCode statement := by
  have hnames (directive : String) (make : List Label → Statement) (hd : IsCode directive.toList) :
      ReadsCode (namesStatement directive make) :=
    directive_readsCode _ hd
      (mapped_readsCode make (separated_readsCode identifier_shrinks identifier_readsCode))
  have hliteral (w : Width) : ReadsCode (literalStatement w) := by
    apply directive_readsCode _ _ (mapped_readsCode _ literalValue_readsCode)
    cases w <;> exact isCode_word (isWord_of_all (by decide) (by decide))
  have hentry : ReadsCode entryStatement := by
    intro s st rest hs
    obtain ⟨s₁, h₁, hs⟩ := Option.bind_eq_some_iff.mp hs
    obtain ⟨-, rfl⟩ := Prod.mk.inj (Option.some.inj hs)
    exact ⟨".entry".toList, expect_eq_some h₁, isCode_word (isWord_of_all (by decide) (by decide))⟩
  exact either_readsOnly hentry <|
    either_readsOnly (hnames _ _ (isCode_word (isWord_of_all (by decide) (by decide)))) <|
    either_readsOnly (hnames _ _ (isCode_word (isWord_of_all (by decide) (by decide)))) <|
    either_readsOnly (hliteral _) <| either_readsOnly (hliteral _) <|
    either_readsOnly (hliteral _) instructionStatement_readsCode

/-- A source that parses as a statement is code as a whole. -/
theorem parse_isCode (source : List Char) (st : Statement) (h : Statement.parse? source = some st) :
    IsCode source := by
  rw [Statement.parse?] at h
  split at h
  · next hs =>
    obtain ⟨t, rfl, ht⟩ := statement_readsCode _ _ _ hs
    rwa [List.append_nil]
  · contradiction

end PagedMachine.Assembly
