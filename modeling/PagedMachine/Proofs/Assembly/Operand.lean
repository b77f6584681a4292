import PagedMachine.Proofs.Assembly.Recognition

/-! Operands read back. Of the spellings that the grammar derives for an operand the printer chooses one, in
decimal and without blanks, and so it is read as the operand. -/
namespace PagedMachine.Assembly

theorem toList_toString (n : Nat) : (toString n).toList = Nat.toDigits 10 n := by
  rw [Nat.toString_eq_ofList_toDigits, String.toList_ofList]

theorem digits_toDigits (n : Nat) : ∀ c ∈ Nat.toDigits 10 n, c.isDigit = true :=
  fun _ hc => Nat.isDigit_of_mem_toDigits (by decide) (by decide) hc

theorem digitsValue_toDigits (n : Nat) : digitsValue 10 (Nat.toDigits 10 n) = n := by
  have hfold (ds : List Char) (start : Nat) (hds : ∀ c ∈ ds, c.isDigit = true) :
      ds.foldl (fun n c => n * 10 + (hexDigit? c).getD 0) start = Nat.ofDigitChars 10 ds start := by
    induction ds generalizing start with
    | nil => rfl
    | cons d ds ih =>
      obtain ⟨hd, hds⟩ := List.forall_mem_cons.mp hds
      have hvalue : (hexDigit? d).getD 0 = d.toNat - '0'.toNat := by
        simp only [hexDigit?, hd, ↓reduceIte, Option.getD_some]
      rw [List.foldl_cons, ih _ hds, Nat.ofDigitChars_cons, hvalue, Nat.mul_comm start 10]
  rw [digitsValue, hfold _ _ (digits_toDigits n), Nat.ofDigitChars_ten_toDigits]

theorem numeral_toDigits (n : Nat) : Numeral 10 (Nat.toDigits 10 n) n :=
  (numeral_ten _ n).mpr ⟨Nat.toDigits_ne_nil, digits_toDigits n, digitsValue_toDigits n⟩

/-- A word is written as the signed number that its bits stand for. -/
theorem decimal_cases (w : Word) :
    (∃ n : Nat, n < 2 ^ 31 ∧ w.toInt = n ∧ w.decimal.toList = Nat.toDigits 10 n) ∨
      ∃ n : Nat, n ≤ 2 ^ 31 ∧ w.toInt = -n ∧ w.decimal.toList = '-' :: Nat.toDigits 10 n := by
  have hmin := BitVec.le_toInt w
  have hmax := BitVec.toInt_lt (x := w)
  rw [Word.decimal, Int.toString_eq_repr, Int.repr_eq_if]
  split_ifs with h
  · refine Or.inl ⟨w.toInt.toNat, by omega, by omega, ?_⟩
    rw [Nat.repr_eq_ofList_toDigits, String.toList_ofList]
  · refine Or.inr ⟨(-w.toInt).toNat, by omega, by omega, ?_⟩
    simp only [Nat.repr_eq_ofList_toDigits, String.toList_append, String.toList_ofList]
    rfl

/-- A printed word is the form of its signed value. -/
theorem integerForm_decimal (w : Word) : IntegerForm w.decimal.toList w.toInt := by
  rcases decimal_cases w with ⟨n, hn, hw, htext⟩ | ⟨n, hn, hw, htext⟩
  · rw [htext, hw]
    exact .natural (numeral_toDigits n) (by omega)
  · rw [htext, hw]
    exact .negative (numeral_toDigits n) hn

/-- A printed word is read back as that word. -/
theorem word_reads (w : Word) : Reads integer w.decimal.toList w := by
  have hread := integer_reads (integerForm_decimal w)
  rwa [BitVec.ofInt_toInt] at hread

theorem isWord_decimal (w : Word) : IsWord w.decimal.toList :=
  (integerForm_front (integerForm_decimal w)).1

theorem blanks_nil : Blanks [] :=
  fun _ h => absurd h List.not_mem_nil

theorem spaced_bare (c : Char) : Spaced c [c] :=
  .mk blanks_nil blanks_nil

theorem ofNat_of_toInt (w : Word) (n : Nat) (h : w.toInt = n) : BitVec.ofNat 32 n = w := by
  rw [← BitVec.ofInt_natCast, ← h, BitVec.ofInt_toInt]

/-- A word with a negative value is the negation of its magnitude. -/
theorem neg_ofNat_of_toInt (w : Word) (n : Nat) (h : w.toInt = -n) : -BitVec.ofNat 32 n = w := by
  rw [← BitVec.ofInt_natCast, ← BitVec.ofInt_neg, ← h, BitVec.ofInt_toInt]

/-- An offset is its sign and its digits. The digits of the least word are too many for a signed number,
but an unsigned one can have them. -/
theorem offsetText_cases (d : Word) :
    ∃ n : Nat, n < 2 ^ 32 ∧
      (d = BitVec.ofNat 32 n ∧ (offsetText d).toList = '+' :: Nat.toDigits 10 n ∨
        d = -BitVec.ofNat 32 n ∧ (offsetText d).toList = '-' :: Nat.toDigits 10 n) := by
  have hmin := BitVec.le_toInt d
  have hmax := BitVec.toInt_lt (x := d)
  rw [offsetText]
  split_ifs with h
  · have hd := neg_ofNat_of_toInt d d.toInt.natAbs (by omega)
    refine ⟨d.toInt.natAbs, by omega, Or.inr ⟨hd.symm, ?_⟩⟩
    rw [String.toList_append, toList_toString]
    rfl
  · have hn : d.toInt = d.toInt.toNat := by omega
    have hd := ofNat_of_toInt d d.toInt.toNat hn
    refine ⟨d.toInt.toNat, by omega, Or.inl ⟨hd.symm, ?_⟩⟩
    have htext : toString d.toInt = toString d.toInt.toNat := by
      rw [hn]
      rfl
    rw [htext, String.toList_append, toList_toString]
    rfl

theorem offsetText_form (d : Word) :
    OffsetForm (offsetText d).toList (some d) ∧ IsWord (offsetText d).toList := by
  obtain ⟨n, hn, hcases⟩ := offsetText_cases d
  have hnumber : IntegerForm (Nat.toDigits 10 n) n := .natural (numeral_toDigits n) hn
  have hsolid := (integerForm_front hnumber).1.solid
  rcases hcases with ⟨rfl, htext⟩ | ⟨rfl, htext⟩
  · rw [htext, ← BitVec.ofInt_natCast]
    exact ⟨.plus (spaced_bare '+') hnumber, isWord_cons (by decide) hsolid⟩
  · rw [htext, ← BitVec.ofInt_natCast]
    exact ⟨.minus (spaced_bare '-') hnumber, isWord_cons (by decide) hsolid⟩

def indexText (i : Option Register) : String :=
  (i.map fun r => "+" ++ r.name).getD ""

def optionalOffsetText (d : Option Word) : String :=
  (d.map offsetText).getD ""

theorem indexText_form (i : Option Register) :
    IndexForm (indexText i).toList i ∧ ∀ c ∈ (indexText i).toList, isSolid c = true := by
  cases i with
  | none => exact ⟨.absent, by simp [indexText]⟩
  | some r =>
    have htext : (indexText (some r)).toList = ['+'] ++ r.name.toList := by
      simp [indexText]
    rw [htext]
    refine ⟨.present r (spaced_bare '+'), ?_⟩
    exact List.forall_mem_append.mpr ⟨List.all_eq_true.mp (by decide), (isWord_register r).solid⟩

theorem optionalOffsetText_form (d : Option Word) :
    OffsetForm (optionalOffsetText d).toList d ∧
      ∀ c ∈ (optionalOffsetText d).toList, isSolid c = true := by
  cases d with
  | none => exact ⟨.absent, by simp [optionalOffsetText]⟩
  | some d => exact ⟨(offsetText_form d).1, (offsetText_form d).2.solid⟩

/-- Every place is written as its register, or as a reference that its parts make up. -/
theorem place_text (p : Place) (h : ∀ l ∈ p.label?, isIdentifier l = true) :
    (∃ r, p = .register r) ∨
      ∃ t b i d, BaseForm t b ∧ placeOf? b i d = some p ∧
        p.text.toList = bracketed [] t (indexText i).toList (optionalOffsetText d).toList [] := by
  cases p with
  | register r => exact Or.inl ⟨r, rfl⟩
  | based r d =>
    refine Or.inr ⟨_, .register r, none, d, .register r, rfl, ?_⟩
    simp [Place.text, bracketed, indexText, optionalOffsetText]
  | indexed r i =>
    refine Or.inr ⟨_, .register r, some i, none, .register r, rfl, ?_⟩
    simp [Place.text, bracketed, indexText, optionalOffsetText]
  | labeled l i d =>
    refine Or.inr ⟨_, .label l, i, d, .label (h l rfl), rfl, ?_⟩
    simp [Place.text, bracketed, indexText, optionalOffsetText]

/-- A printed operand has the form the grammar gives it. -/
theorem operandForm_text (o : Operand) (h : ∀ l ∈ o.label?, isIdentifier l = true) :
    OperandForm o.text.toList o ∧ IsWord o.text.toList := by
  cases o with
  | immediate w =>
    have hform := OperandForm.immediate (integerForm_decimal w)
    have htext : (Operand.immediate w).text.toList = '#' :: w.decimal.toList := by
      simp [Operand.text]
    rw [BitVec.ofInt_toInt] at hform
    rw [htext]
    exact ⟨hform, isWord_cons (by decide) (isWord_decimal w).solid⟩
  | address l =>
    have htext : (Operand.address l).text.toList = '@' :: l.toList := by
      simp [Operand.text]
    rw [htext]
    exact ⟨.address (h l rfl), isWord_labelReference l (h l rfl)⟩
  | place p =>
    rw [Operand.text]
    rcases place_text p h with ⟨r, rfl⟩ | ⟨t, b, i, d, hb, hp, htext⟩
    · exact ⟨.register r, isWord_register r⟩
    · obtain ⟨hi, hindex⟩ := indexText_form i
      obtain ⟨hd, hoffset⟩ := optionalOffsetText_form d
      have hclose : ∀ c ∈ [']'], isSolid c = true := List.all_eq_true.mp (by decide)
      have hword := isWord_append (base_reads hb).1 (List.forall_mem_append.mpr
        ⟨hindex, List.forall_mem_append.mpr ⟨hoffset, hclose⟩⟩)
      rw [htext]
      refine ⟨.reference ((referenceForm_iff _ p).mpr ?_), isWord_cons (by decide) hword.solid⟩
      exact ⟨[], t, _, _, [], b, i, d, ⟨blanks_nil, hb, hi, hd, blanks_nil⟩, hp, rfl⟩

/-- A printed operand is read back as far as it goes. -/
theorem operand_reads (o : Operand) (h : ∀ l ∈ o.label?, isIdentifier l = true) :
    Reads operand o.text.toList o :=
  operandForm_reads (operandForm_text o h).1

theorem isWord_operand (o : Operand) (h : ∀ l ∈ o.label?, isIdentifier l = true) :
    IsWord o.text.toList :=
  (operandForm_text o h).2

end PagedMachine.Assembly
