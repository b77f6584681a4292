import PagedMachine.Proofs.Assembly.Grammar

/-! Operands are recognized. Whatever the grammar derives is read as it says, however many blanks and digits
there are: where a part of a reference is left out, the parser of the part finds nothing and gives back what
it has tried. -/
namespace PagedMachine.Assembly

/-! Numbers and registers. -/

theorem part_of_hexDigit (c : Char) (h : (hexDigit? c).isSome = true) : isIdentifierPart c = true := by
  obtain ⟨hd, hc⟩ := (isDigit_sixteen c _).mpr ⟨h, rfl⟩
  generalize (hexDigit? c).getD 0 = d at hd hc
  rcases hc with rfl | rfl <;> interval_cases d <;> decide

theorem not_alpha_of_digit (c : Char) (h : c.isDigit = true) : c.isAlpha = false := by
  obtain ⟨hd, hc⟩ := (isDigit_ten c _).mpr ⟨h, rfl⟩
  generalize (hexDigit? c).getD 0 = d at hd hc
  rcases hc with rfl | rfl <;> interval_cases d <;> decide

/-- Every form of an integer is read as the word of its value. -/
theorem integer_reads {t : List Char} {n : Int} (h : IntegerForm t n) :
    Reads integer t (BitVec.ofInt 32 n) := by
  cases h with
  | @hexadecimal x cs n hx h hn =>
    obtain ⟨hne, hcs, rfl⟩ := (numeral_sixteen cs n).mp h
    apply either_reads_first
    intro rest hrest
    have hrun := run_reads (fun c => (hexDigit? c).isSome) part_of_hexDigit cs hne hcs rest hrest
    have hn' : digitsValue 16 cs < wordCount := hn
    simp only [List.cons_append, hexadecimal, hx, ↓reduceIte, hrun, Option.bind_eq_bind,
      Option.bind_some, hn', BitVec.ofInt_natCast]
  | @natural _ n h hn =>
    obtain ⟨hne, hcs, rfl⟩ := (numeral_ten t n).mp h
    rw [BitVec.ofInt_natCast]
    exact natural_reads t hne hcs hn
  | @negative cs n h hn =>
    obtain ⟨hne, hcs, rfl⟩ := (numeral_ten cs n).mp h
    rw [BitVec.ofInt_neg, BitVec.ofInt_natCast]
    exact negative_reads cs hne hcs hn

/-- A number starts with a digit or a minus sign, and so neither with a blank nor like a register. -/
theorem integerForm_front {t : List Char} {n : Int} (h : IntegerForm t n) :
    IsWord t ∧ ∃ c ∈ t.head?, c.isAlpha = false := by
  cases h with
  | @hexadecimal x cs n hx h hn =>
    obtain ⟨-, hcs, -⟩ := (numeral_sixteen cs n).mp h
    have hx' : isSolid x = true := by rcases hx with rfl | rfl <;> decide
    refine ⟨isWord_cons (by decide) ?_, '0', rfl, by decide⟩
    exact List.forall_mem_cons.mpr ⟨hx', fun c hc => isSolid_of_part (part_of_hexDigit c (hcs c hc))⟩
  | @natural _ n h hn =>
    obtain ⟨hne, hcs, -⟩ := (numeral_ten t n).mp h
    refine ⟨⟨hne, fun c hc => isSolid_of_part (part_of_digit c (hcs c hc))⟩, ?_⟩
    cases t with
    | nil => contradiction
    | cons c cs => exact ⟨c, rfl, not_alpha_of_digit c (hcs c List.mem_cons_self)⟩
  | @negative cs n h hn =>
    obtain ⟨-, hcs, -⟩ := (numeral_ten cs n).mp h
    refine ⟨isWord_cons (by decide) ?_, '-', rfl, by decide⟩
    exact fun c hc => isSolid_of_part (part_of_digit c (hcs c hc))

theorem register_none (c : Char) (s : List Char) (hc : c.isAlpha = false) : register (c :: s) = none := by
  rw [Option.eq_none_iff_forall_not_mem]
  intro ⟨r, rest⟩ h
  obtain ⟨t, ht, rfl⟩ := register_readsOnly _ r rest h
  have hname : ∃ d ds, r.name.toList = d :: ds ∧ d.isAlpha = true := by
    cases r <;> exact ⟨_, _, rfl, by decide⟩
  obtain ⟨d, ds, hd, halpha⟩ := hname
  rw [hd, List.cons_append, List.cons.injEq] at ht
  rw [ht.1, halpha] at hc
  contradiction

/-! Characters with blanks around them. -/

theorem skipBlanks_append {b : List Char} (hb : Blanks b) (s : List Char) :
    skipBlanks (b ++ s) = skipBlanks s :=
  List.dropWhile_append_of_pos fun c hc => (isBlank_iff c).mpr (hb c hc)

theorem skipBlanks_cons (c : Char) (s : List Char) (hc : isBlank c = false) :
    skipBlanks (c :: s) = c :: s := by
  simp only [skipBlanks, List.dropWhile_cons, hc, Bool.false_eq_true, ↓reduceIte]

theorem expectSpaced_append {c : Char} {u : List Char} (hc : isBlank c = false) (hu : Spaced c u)
    (s : List Char) : expectSpaced c (u ++ s) = some (skipBlanks s) := by
  obtain ⟨hb, ha⟩ := hu
  have he (s : List Char) : expect [c] (c :: s) = some s := expect_append [c] s
  simp only [expectSpaced, List.append_assoc, List.cons_append, skipBlanks_append hb,
    skipBlanks_cons c _ hc, he, Option.map_some, skipBlanks_append ha]

section Behind

variable {α : Type} {item : Parser α} {b u t : List Char} {a : α} {c : Char}

/-- An item behind a spaced character is read when the item is. -/
theorem behindSpaced_reads (hc : isBlank c = false) (hu : Spaced c u) (hw : IsWord t)
    (h : Reads item t a) : Reads (behindSpaced c item) (u ++ t) a := by
  intro rest hrest
  simp only [behindSpaced, List.append_assoc, expectSpaced_append hc hu, skipBlanks_word hw,
    Option.bind_eq_bind, Option.bind_some, h rest hrest]

/-- Another character behind the blanks makes the optional part absent. -/
theorem behindSpaced_none (opening : Char) (hb : Blanks b) (hc : isBlank c = false) (hne : opening ≠ c)
    (s : List Char) : behindSpaced opening item (b ++ c :: s) = none := by
  simp only [behindSpaced, expectSpaced, skipBlanks_append hb, skipBlanks_cons c s hc,
    expect_other opening c [] s hne, Option.map_none, Option.bind_eq_bind, Option.bind_none]

theorem ends_blanks (hb : Blanks b) (hc : isIdentifierPart c = false) (s : List Char) :
    Ends (b ++ c :: s) := by
  cases b with
  | nil => exact (ends_cons c s).mpr hc
  | cons d b =>
    have hd : isIdentifierPart d = false := by
      rcases hb d List.mem_cons_self with rfl | rfl <;> decide
    exact (ends_cons d _).mpr hd

theorem ends_spaced (hu : Spaced c u) (hc : isIdentifierPart c = false) (s : List Char) :
    Ends (u ++ s) := by
  obtain ⟨hb, -⟩ := hu
  rw [List.append_assoc, List.cons_append]
  exact ends_blanks hb hc _

end Behind

/-! References. -/

theorem index_reads {t : List Char} {r : Register} (h : IndexForm t (some r)) : Reads index t r := by
  cases h with
  | present r hs => exact behindSpaced_reads (by decide) hs (isWord_register r) (register_reads r)

theorem offset_reads {t : List Char} {d : Word} (h : OffsetForm t (some d)) : Reads offset t d := by
  cases h with
  | plus hs hn =>
    apply either_reads_first
    exact behindSpaced_reads (by decide) hs (integerForm_front hn).1 (integer_reads hn)
  | minus hs hn =>
    have hread := behindSpaced_reads (by decide) hs (integerForm_front hn).1 (integer_reads hn)
    apply either_reads_second _ (mapped_reads _ hread)
    intro rest _
    obtain ⟨hb, -⟩ := hs
    simp only [List.append_assoc, List.cons_append]
    exact behindSpaced_none '+' hb (by decide) (by decide) _

section Reference

variable {i d after : List Char} {r? : Option Register} {w? : Option Word}

/-- An offset is not taken for an index: behind its sign there is no register. -/
theorem index_none (hd : OffsetForm d w?) (ha : Blanks after) (rest : List Char) :
    index (d ++ (after ++ ']' :: rest)) = none := by
  cases hd with
  | absent => exact behindSpaced_none '+' ha (by decide) (by decide) rest
  | plus hs hn =>
    obtain ⟨hw, c, hc, halpha⟩ := integerForm_front hn
    obtain ⟨cs, rfl⟩ := List.head?_eq_some_iff.mp hc
    have hplus := expectSpaced_append (by decide) hs (c :: cs ++ (after ++ ']' :: rest))
    rw [skipBlanks_word hw] at hplus
    rw [index, behindSpaced, List.append_assoc, hplus]
    exact register_none c _ halpha
  | minus hs hn =>
    obtain ⟨hb, -⟩ := hs
    simp only [List.append_assoc, List.cons_append]
    exact behindSpaced_none '+' hb (by decide) (by decide) _

theorem offset_none (ha : Blanks after) (rest : List Char) : offset (after ++ ']' :: rest) = none := by
  have hnone (sign : Char) (hs : sign ≠ ']') : behindSpaced sign integer (after ++ ']' :: rest) = none :=
    behindSpaced_none sign ha (by decide) hs rest
  simp only [offset, either, mapped, hnone '+' (by decide), hnone '-' (by decide), Option.map_none]

theorem ends_offsetForm (hd : OffsetForm d w?) (ha : Blanks after) (rest : List Char) :
    Ends (d ++ (after ++ ']' :: rest)) := by
  cases hd with
  | absent => exact ends_blanks ha (by decide) rest
  | plus hs _ | minus hs _ =>
    rw [List.append_assoc]
    exact ends_spaced hs (by decide) _

/-- Whatever follows the base of a reference ends it. -/
theorem ends_indexForm (hi : IndexForm i r?) (hd : OffsetForm d w?) (ha : Blanks after)
    (rest : List Char) : Ends (i ++ (d ++ (after ++ ']' :: rest))) := by
  cases hi with
  | absent => exact ends_offsetForm hd ha rest
  | present r hs =>
    rw [List.append_assoc]
    exact ends_spaced hs (by decide) _

/-- The optional index is read exactly when it is written. -/
theorem optional_index (hi : IndexForm i r?) (hd : OffsetForm d w?) (ha : Blanks after)
    (rest : List Char) :
    optional index (i ++ (d ++ (after ++ ']' :: rest))) = (r?, d ++ (after ++ ']' :: rest)) := by
  cases r? with
  | none =>
    cases hi
    exact optional_none (index_none hd ha rest)
  | some r => exact optional_some (index_reads hi _ (ends_offsetForm hd ha rest))

/-- The optional offset is read exactly when it is written. -/
theorem optional_offset (hd : OffsetForm d w?) (ha : Blanks after) (rest : List Char) :
    optional offset (d ++ (after ++ ']' :: rest)) = (w?, after ++ ']' :: rest) := by
  cases w? with
  | none =>
    cases hd
    exact optional_none (offset_none ha rest)
  | some w => exact optional_some (offset_reads hd _ (ends_blanks ha (by decide) rest))

end Reference

theorem isWord_labelReference (l : Label) (h : isIdentifier l = true) : IsWord ('@' :: l.toList) :=
  isWord_cons (by decide) (isWord_identifier l h).solid

theorem labelReference_reads (l : Label) (h : isIdentifier l = true) :
    Reads labelReference ('@' :: l.toList) l :=
  behind_reads '@' (identifier_reads l h)

/-- Every form of a base is one word and is read as that base. -/
theorem base_reads {t : List Char} {b : Base} (h : BaseForm t b) : IsWord t ∧ Reads base t b := by
  cases h with
  | @label l hl =>
    exact ⟨isWord_labelReference l hl, either_reads_first (mapped_reads _ (labelReference_reads l hl))⟩
  | register r =>
    refine ⟨isWord_register r, either_reads_second ?_ (mapped_reads _ (register_reads r))⟩
    intro rest _
    cases r <;> rfl

/-- Every form of a reference is read as its place. -/
theorem reference_reads {t : List Char} {p : Place} (h : ReferenceForm t p) : Reads reference t p := by
  obtain ⟨before, u, i, d, after, b, r?, w?, ⟨hb, hu, hi, hd, ha⟩, hp, rfl⟩ :=
    (referenceForm_iff t p).mp h
  obtain ⟨hw, hread⟩ := base_reads hu
  intro rest _
  have hassoc : bracketed before u i d after ++ rest =
      '[' :: (before ++ (u ++ (i ++ (d ++ (after ++ ']' :: rest))))) := by
    simp [bracketed]
  have hopen (s : List Char) : expect ['['] ('[' :: s) = some s := rfl
  have hclose : expect [']'] (skipBlanks (after ++ ']' :: rest)) = some rest := by
    rw [skipBlanks_append ha]
    rfl
  rw [hassoc]
  simp only [reference, hopen, Option.bind_eq_bind, Option.bind_some, skipBlanks_append hb,
    skipBlanks_word hw, hread _ (ends_indexForm hi hd ha rest), optional_index hi hd ha,
    optional_offset hd ha, hclose, hp]
  rfl

theorem referenceForm_front {t : List Char} {p : Place} (h : ReferenceForm t p) : ∃ s, t = '[' :: s := by
  cases h <;> exact ⟨_, rfl⟩

/-- What the grammar derives is read as far as it goes. The first character decides between the
alternatives. -/
theorem operandForm_reads {t : List Char} {o : Operand} (h : OperandForm t o) : Reads operand t o := by
  cases h with
  | immediate hn => exact either_reads_first (mapped_reads _ (behind_reads '#' (integer_reads hn)))
  | @address l hl =>
    apply either_reads_second (mapped_rejects _ (behind_rejects '#' '@' (by decide)))
    exact either_reads_first (mapped_reads _ (labelReference_reads l hl))
  | register r =>
    have hother : Rejects (mapped Operand.immediate immediate) r.name.toList ∧
        Rejects (mapped Operand.address labelReference) r.name.toList ∧
        Rejects (mapped Operand.place reference) r.name.toList := by
      refine ⟨?_, ?_, ?_⟩ <;> intro rest _ <;> cases r <;> rfl
    apply either_reads_second hother.1
    apply either_reads_second hother.2.1
    apply either_reads_second hother.2.2
    exact mapped_reads _ (register_reads r)
  | reference h =>
    have hread := mapped_reads Operand.place (reference_reads h)
    obtain ⟨s, rfl⟩ := referenceForm_front h
    apply either_reads_second (mapped_rejects _ (behind_rejects '#' '[' (by decide)))
    apply either_reads_second (mapped_rejects _ (behind_rejects '@' '[' (by decide)))
    exact either_reads_first hread

/-- The parser of operands accepts exactly the grammar: it reads the whole of a text as an operand if and only
if the grammar derives the text as a spelling of that operand. -/
theorem operand_reads_exactly (s : List Char) (o : Operand) :
    operand s = some (o, []) ↔ OperandForm s o := by
  constructor
  · intro h
    obtain ⟨t, ht, hform⟩ := operand_readsOnly s o [] h
    rw [List.append_nil] at ht
    exact ht ▸ hform
  · intro h
    have hread := operandForm_reads h [] ends_nil
    rwa [List.append_nil] at hread

-- A hexadecimal number that does not fit is no number; what can be read of it is the zero that it starts with.
example : operand "#0x100000000".toList = some (.immediate 0, "x100000000".toList) := by decide

end PagedMachine.Assembly
