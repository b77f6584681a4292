import Mathlib.Data.List.Induction
import Mathlib.Data.List.TakeWhile
import Mathlib.Tactic.IntervalCases
import PagedMachine.Proofs.Assembly.Token

/-! The grammar of operands. Each relation says which texts spell a thing of some kind, without regard to how
they are read: the order of alternatives and how far a run of characters goes are no part of it. Whatever is
read off the front of a text has the form that the grammar gives it. -/
namespace PagedMachine.Assembly

-- A digit of a base; those above nine are letters of either case.
def IsDigit (base : Nat) (c : Char) (d : Nat) : Prop :=
  d < base ∧ (c = d.digitChar ∨ c = d.digitChar.toUpper)

instance (base : Nat) (c : Char) (d : Nat) : Decidable (IsDigit base c d) :=
  inferInstanceAs (Decidable (_ ∧ _))

-- The numbers that digits spell in a base, the most significant digit first.
inductive Numeral (base : Nat) : List Char → Nat → Prop where
  | digit {c : Char} {d : Nat} (hc : IsDigit base c d) : Numeral base [c] d
  | snoc {cs : List Char} {c : Char} {n d : Nat} (h : Numeral base cs n) (hc : IsDigit base c d) :
    Numeral base (cs ++ [c]) (n * base + d)

-- A number is written in hexadecimal behind `0x`, or in decimal with or without a minus sign. It is one that
-- a word can stand for, be it as a signed or as an unsigned number.
inductive IntegerForm : List Char → Int → Prop where
  | hexadecimal {x : Char} {cs : List Char} {n : Nat} (hx : x = 'x' ∨ x = 'X') (h : Numeral 16 cs n)
      (hn : n < 2 ^ 32) : IntegerForm ('0' :: x :: cs) n
  | natural {cs : List Char} {n : Nat} (h : Numeral 10 cs n) (hn : n < 2 ^ 32) : IntegerForm cs n
  | negative {cs : List Char} {n : Nat} (h : Numeral 10 cs n) (hn : n ≤ 2 ^ 31) :
    IntegerForm ('-' :: cs) (-n)

def Blanks (s : List Char) : Prop :=
  ∀ c ∈ s, c = ' ' ∨ c = '\t'

inductive Spaced (c : Char) : List Char → Prop where
  | mk {before after : List Char} (hb : Blanks before) (ha : Blanks after) :
    Spaced c (before ++ c :: after)

inductive BaseForm : List Char → Base → Prop where
  | label {l : Label} (hl : isIdentifier l = true) : BaseForm ('@' :: l.toList) (.label l)
  | register (r : Register) : BaseForm r.name.toList (.register r)

inductive IndexForm : List Char → Option Register → Prop where
  | absent : IndexForm [] none
  | present {s : List Char} (r : Register) (hs : Spaced '+' s) : IndexForm (s ++ r.name.toList) (some r)

-- The number behind the sign of an offset may have a sign of its own.
inductive OffsetForm : List Char → Option Word → Prop where
  | absent : OffsetForm [] none
  | plus {s cs : List Char} {n : Int} (hs : Spaced '+' s) (h : IntegerForm cs n) :
    OffsetForm (s ++ cs) (some (BitVec.ofInt 32 n))
  | minus {s cs : List Char} {n : Int} (hs : Spaced '-' s) (h : IntegerForm cs n) :
    OffsetForm (s ++ cs) (some (-BitVec.ofInt 32 n))

-- A memory reference is its parts between brackets.
def bracketed (before base index offset after : List Char) : List Char :=
  '[' :: (before ++ (base ++ (index ++ (offset ++ (after ++ [']'])))))

-- Behind a register there is an index or an offset, behind a label there can be both.
inductive ReferenceForm : List Char → Place → Prop where
  | based {before t d after : List Char} {r : Register} {offset : Option Word} (hb : Blanks before)
      (ht : BaseForm t (.register r)) (hd : OffsetForm d offset) (ha : Blanks after) :
    ReferenceForm (bracketed before t [] d after) (.based r offset)
  | indexed {before t i after : List Char} {r index : Register} (hb : Blanks before)
      (ht : BaseForm t (.register r)) (hi : IndexForm i (some index)) (ha : Blanks after) :
    ReferenceForm (bracketed before t i [] after) (.indexed r index)
  | labeled {before t i d after : List Char} {l : Label} {index : Option Register} {offset : Option Word}
      (hb : Blanks before) (ht : BaseForm t (.label l)) (hi : IndexForm i index)
      (hd : OffsetForm d offset) (ha : Blanks after) :
    ReferenceForm (bracketed before t i d after) (.labeled l index offset)

inductive OperandForm : List Char → Operand → Prop where
  | immediate {cs : List Char} {n : Int} (h : IntegerForm cs n) :
    OperandForm ('#' :: cs) (.immediate (BitVec.ofInt 32 n))
  | address {l : Label} (hl : isIdentifier l = true) : OperandForm ('@' :: l.toList) (.address l)
  | register (r : Register) : OperandForm r.name.toList (.place (.register r))
  | reference {s : List Char} {p : Place} (h : ReferenceForm s p) : OperandForm s (.place p)

/-! Digits. -/

/-- All characters between two digits are digits if they are so one by one. -/
theorem isDigit_of_range (base : Nat) (first last c : Char)
    (h : ∀ n ≤ last.toNat, first.toNat ≤ n → IsDigit base (.ofNat n) ((hexDigit? (.ofNat n)).getD 0))
    (hf : first ≤ c) (hl : c ≤ last) : IsDigit base c ((hexDigit? c).getD 0) := by
  have hc := h c.toNat (UInt32.le_iff_toNat_le.mp hl) (UInt32.le_iff_toNat_le.mp hf)
  rwa [Char.ofNat_toNat] at hc

theorem isDigit_ten (c : Char) (d : Nat) :
    IsDigit 10 c d ↔ c.isDigit = true ∧ (hexDigit? c).getD 0 = d := by
  constructor
  · rintro ⟨hd, rfl | rfl⟩ <;> interval_cases d <;> decide
  · rintro ⟨hc, rfl⟩
    obtain ⟨hf, hl⟩ := Char.isDigit_iff_toNat.mp hc
    exact isDigit_of_range 10 '0' '9' c (by decide) (UInt32.le_iff_toNat_le.mpr hf)
      (UInt32.le_iff_toNat_le.mpr hl)

theorem isDigit_sixteen (c : Char) (d : Nat) :
    IsDigit 16 c d ↔ (hexDigit? c).isSome = true ∧ (hexDigit? c).getD 0 = d := by
  constructor
  · rintro ⟨hd, rfl | rfl⟩ <;> interval_cases d <;> decide
  · rintro ⟨hc, rfl⟩
    unfold hexDigit? at hc
    split_ifs at hc with hd hl hu
    · obtain ⟨hlt, hc⟩ := (isDigit_ten c _).mpr ⟨hd, rfl⟩
      exact ⟨by omega, hc⟩
    · exact isDigit_of_range 16 'a' 'f' c (by decide) hl.1 hl.2
    · exact isDigit_of_range 16 'A' 'F' c (by decide) hu.1 hu.2
    · contradiction

/-- A further digit is added to the base times the value read so far. -/
theorem digitsValue_snoc (base : Nat) (cs : List Char) (c : Char) :
    digitsValue base (cs ++ [c]) = digitsValue base cs * base + (hexDigit? c).getD 0 := by
  simp only [digitsValue, List.foldl_append, List.foldl_cons, List.foldl_nil]

/-- Numerals are runs of the characters that are taken for digits, and stand for what is computed from them. -/
theorem numeral_iff (base : Nat) (isMember : Char → Bool)
    (hm : ∀ c d, IsDigit base c d ↔ isMember c = true ∧ (hexDigit? c).getD 0 = d) (cs : List Char)
    (n : Nat) :
    Numeral base cs n ↔ cs ≠ [] ∧ (∀ c ∈ cs, isMember c = true) ∧ digitsValue base cs = n := by
  constructor
  · intro h
    induction h with
    | digit hc =>
      obtain ⟨hmem, rfl⟩ := (hm _ _).mp hc
      simp [digitsValue, hmem]
    | snoc _ hc ih =>
      obtain ⟨-, hcs, rfl⟩ := ih
      obtain ⟨hmem, rfl⟩ := (hm _ _).mp hc
      refine ⟨by simp, ?_, digitsValue_snoc base _ _⟩
      exact List.forall_mem_append.mpr ⟨hcs, by simpa using hmem⟩
  · rintro ⟨hne, hcs, rfl⟩
    -- The last digit is the one that is added last.
    induction cs using List.reverseRecOn with
    | nil => contradiction
    | append_singleton cs c ih =>
      obtain ⟨hcs, hc⟩ := List.forall_mem_append.mp hcs
      have hd := (hm c _).mpr ⟨hc c List.mem_cons_self, rfl⟩
      by_cases hnil : cs = []
      · subst hnil
        simpa [digitsValue] using Numeral.digit hd
      · rw [digitsValue_snoc]
        exact .snoc (ih hnil hcs) hd

/-- A decimal numeral is a nonempty run of digits with their value. -/
theorem numeral_ten (cs : List Char) (n : Nat) :
    Numeral 10 cs n ↔ cs ≠ [] ∧ (∀ c ∈ cs, c.isDigit = true) ∧ digitsValue 10 cs = n :=
  numeral_iff 10 _ isDigit_ten cs n

/-- A hexadecimal numeral is a nonempty run of hexadecimal digits with their value. -/
theorem numeral_sixteen (cs : List Char) (n : Nat) :
    Numeral 16 cs n ↔
      cs ≠ [] ∧ (∀ c ∈ cs, (hexDigit? c).isSome = true) ∧ digitsValue 16 cs = n :=
  numeral_iff 16 (fun c => (hexDigit? c).isSome) isDigit_sixteen cs n

/-! Parsers that are put together from others. -/

-- Whatever a parser reads off the front of a text is of a given form.
def ReadsOnly {α : Type} (item : Parser α) (form : List Char → α → Prop) : Prop :=
  ∀ s a rest, item s = some (a, rest) → ∃ t, s = t ++ rest ∧ form t a

section Combinators

variable {α β : Type} {item first second : Parser α} {form : List Char → α → Prop}

theorem readsOnly_mono {form' : List Char → α → Prop} (h : ReadsOnly item form)
    (hf : ∀ t a, form t a → form' t a) : ReadsOnly item form' := by
  intro s a rest hs
  obtain ⟨t, ht, ha⟩ := h s a rest hs
  exact ⟨t, ht, hf t a ha⟩

theorem mapped_readsOnly (f : α → β) {form' : List Char → β → Prop} (h : ReadsOnly item form)
    (hf : ∀ t a, form t a → form' t (f a)) : ReadsOnly (mapped f item) form' := by
  intro s b rest hs
  obtain ⟨⟨a, r⟩, ha, he⟩ := Option.map_eq_some_iff.mp hs
  obtain ⟨rfl, rfl⟩ := Prod.mk.inj he
  obtain ⟨t, ht, hform⟩ := h s a r ha
  exact ⟨t, ht, hf t a hform⟩

/-- A choice reads only what both of its branches read only. -/
theorem either_readsOnly (hf : ReadsOnly first form) (hs : ReadsOnly second form) :
    ReadsOnly (either first second) form := by
  intro s a rest h
  unfold either at h
  split at h
  · next hr => exact hf s a rest (hr.trans h)
  · exact hs s a rest h

theorem expect_eq_some {ts s rest : List Char} (h : expect ts s = some rest) : s = ts ++ rest := by
  fun_induction expect ts s with
  | case1 s => simpa using h
  | case2 => contradiction
  | case3 ts c s ih => rw [ih h, List.cons_append]
  | case4 => contradiction

theorem behind_readsOnly (opening : Char) (h : ReadsOnly item form) :
    ReadsOnly (behind opening item) fun t a => ∃ u, t = opening :: u ∧ form u a := by
  intro s a rest hs
  obtain ⟨r, hr, ha⟩ := Option.bind_eq_some_iff.mp hs
  obtain ⟨t, rfl, hform⟩ := h r a rest ha
  have ht : s = opening :: (t ++ rest) := expect_eq_some hr
  exact ⟨opening :: t, ht, t, rfl, hform⟩

theorem isBlank_iff (c : Char) : isBlank c = true ↔ c = ' ' ∨ c = '\t' := by
  simp [isBlank]

/-- Skipping blanks cuts a text behind the blanks at its front. -/
theorem skipBlanks_split (s : List Char) : ∃ b, Blanks b ∧ s = b ++ skipBlanks s := by
  refine ⟨s.takeWhile isBlank, ?_, List.takeWhile_append_dropWhile.symm⟩
  intro c hc
  exact (isBlank_iff c).mp (List.mem_takeWhile_imp hc)

theorem expectSpaced_eq_some {c : Char} {s rest : List Char} (h : expectSpaced c s = some rest) :
    ∃ t, Spaced c t ∧ s = t ++ rest := by
  obtain ⟨r, hr, rfl⟩ := Option.map_eq_some_iff.mp h
  obtain ⟨b, hb, hs⟩ := skipBlanks_split s
  obtain ⟨b', hb', hr'⟩ := skipBlanks_split r
  refine ⟨b ++ c :: b', .mk hb hb', ?_⟩
  rw [expect_eq_some hr] at hs
  simpa [← hr'] using hs

/-- An item behind a spaced character reads that character, the blanks around it and the item. -/
theorem behindSpaced_readsOnly (opening : Char) (h : ReadsOnly item form) :
    ReadsOnly (behindSpaced opening item) fun t a => ∃ u v, t = u ++ v ∧ Spaced opening u ∧ form v a := by
  intro s a rest hs
  obtain ⟨r, hr, ha⟩ := Option.bind_eq_some_iff.mp hs
  obtain ⟨v, rfl, hform⟩ := h r a rest ha
  obtain ⟨u, hu, rfl⟩ := expectSpaced_eq_some hr
  exact ⟨u ++ v, (List.append_assoc u v rest).symm, u, v, rfl, hu, hform⟩

/-- Where an item can be left out, nothing at all is read or the item is. -/
theorem optional_readsOnly {form : List Char → Option α → Prop}
    (h : ReadsOnly item fun t a => form t (some a)) (hn : form [] none) (s : List Char) :
    ∃ t, s = t ++ (optional item s).2 ∧ form t (optional item s).1 := by
  cases hs : item s with
  | none =>
    rw [optional_none hs]
    exact ⟨[], rfl, hn⟩
  | some result =>
    rw [optional_some hs]
    exact h s result.1 result.2 hs

/-- A run is nonempty and holds members only. -/
theorem run_readsOnly (isMember : Char → Bool) :
    ReadsOnly (run isMember) fun t cs => t = cs ∧ cs ≠ [] ∧ ∀ c ∈ cs, isMember c = true := by
  intro s cs rest h
  unfold run at h
  split at h
  · contradiction
  · next hne =>
    obtain ⟨rfl, rfl⟩ := Prod.mk.inj (Option.some.inj h)
    refine ⟨_, List.takeWhile_append_dropWhile.symm, rfl, hne, ?_⟩
    intro c hc
    exact List.mem_takeWhile_imp hc

end Combinators

/-! The parts of an operand, and the operand. -/

theorem identifier_readsOnly :
    ReadsOnly identifier fun t l => t = l.toList ∧ isIdentifier l = true := by
  intro s l rest h
  cases s with
  | nil => contradiction
  | cons c s =>
    rw [identifier, Option.ite_none_right_eq_some, Option.some.injEq, Prod.mk.injEq] at h
    obtain ⟨hc, rfl, rfl⟩ := h
    refine ⟨c :: s.takeWhile isIdentifierPart, ?_, by simp, ?_⟩
    · simp [List.takeWhile_append_dropWhile]
    · simp only [isIdentifier, String.toList_ofList, hc, Bool.true_and, List.all_eq_true]
      intro d hd
      exact List.mem_takeWhile_imp hd

theorem register_readsOnly : ReadsOnly register fun t r => t = r.name.toList := by
  intro s r rest h
  obtain ⟨⟨name, t⟩, hrun, h⟩ := Option.bind_eq_some_iff.mp h
  obtain ⟨q, hq, h⟩ := Option.bind_eq_some_iff.mp h
  obtain ⟨rfl, rfl⟩ := Prod.mk.inj (Option.some.inj h)
  obtain ⟨u, hs, rfl, -⟩ := run_readsOnly _ _ _ _ hrun
  have hname : q.name = String.ofList u := by
    simpa using List.find?_some (p := fun r : Register => r.name == String.ofList u) hq
  exact ⟨u, hs, (String.toList_ofList ▸ congrArg String.toList hname).symm⟩

-- The words that numbers of some form stand for.
def WordForm (t : List Char) (w : Word) : Prop :=
  ∃ n : Int, IntegerForm t n ∧ BitVec.ofInt 32 n = w

/-- A hexadecimal numeral is read only in the range of a word. -/
theorem hexadecimal_readsOnly : ReadsOnly hexadecimal WordForm := by
  intro s w rest h
  unfold hexadecimal at h
  split at h
  · next x s =>
    rw [Option.ite_none_right_eq_some] at h
    obtain ⟨hx, h⟩ := h
    obtain ⟨⟨digits, r⟩, hrun, h⟩ := Option.bind_eq_some_iff.mp h
    simp only [Option.ite_none_right_eq_some, Option.some.injEq, Prod.mk.injEq] at h
    obtain ⟨hlt, rfl, rfl⟩ := h
    obtain ⟨t, rfl, rfl, hne, hdigits⟩ := run_readsOnly _ _ _ _ hrun
    refine ⟨'0' :: x :: t, rfl, digitsValue 16 t, ?_, BitVec.ofInt_natCast 32 _⟩
    exact .hexadecimal hx ((numeral_sixteen t _).mpr ⟨hne, hdigits, rfl⟩) hlt
  · contradiction

/-- A decimal numeral is read only with its sign and in the range of a word. -/
theorem decimal_readsOnly : ReadsOnly decimal WordForm := by
  intro s w rest h
  unfold decimal at h
  split at h
  · next s =>
    obtain ⟨⟨digits, r⟩, hrun, h⟩ := Option.bind_eq_some_iff.mp h
    simp only [Option.ite_none_right_eq_some, Option.some.injEq, Prod.mk.injEq] at h
    obtain ⟨hle, rfl, rfl⟩ := h
    obtain ⟨t, rfl, rfl, hne, hdigits⟩ := run_readsOnly _ _ _ _ hrun
    refine ⟨'-' :: t, rfl, -digitsValue 10 t, ?_, by rw [BitVec.ofInt_neg, BitVec.ofInt_natCast]⟩
    exact .negative ((numeral_ten t _).mpr ⟨hne, hdigits, rfl⟩) hle
  · obtain ⟨⟨digits, r⟩, hrun, h⟩ := Option.bind_eq_some_iff.mp h
    simp only [Option.ite_none_right_eq_some, Option.some.injEq, Prod.mk.injEq] at h
    obtain ⟨hlt, rfl, rfl⟩ := h
    obtain ⟨t, rfl, rfl, hne, hdigits⟩ := run_readsOnly _ _ _ _ hrun
    refine ⟨t, rfl, digitsValue 10 t, ?_, BitVec.ofInt_natCast 32 _⟩
    exact .natural ((numeral_ten t _).mpr ⟨hne, hdigits, rfl⟩) hlt

theorem integer_readsOnly : ReadsOnly integer WordForm :=
  either_readsOnly hexadecimal_readsOnly decimal_readsOnly

theorem labelReference_readsOnly :
    ReadsOnly labelReference fun t l => t = '@' :: l.toList ∧ isIdentifier l = true := by
  apply readsOnly_mono (behind_readsOnly '@' identifier_readsOnly)
  rintro t l ⟨u, rfl, rfl, hl⟩
  exact ⟨rfl, hl⟩

theorem base_readsOnly : ReadsOnly base BaseForm := by
  apply either_readsOnly
  · apply mapped_readsOnly _ labelReference_readsOnly
    rintro t l ⟨rfl, hl⟩
    exact .label hl
  · apply mapped_readsOnly _ register_readsOnly
    rintro t r rfl
    exact .register r

theorem index_readsOnly : ReadsOnly index fun t r => IndexForm t (some r) := by
  apply readsOnly_mono (behindSpaced_readsOnly '+' register_readsOnly)
  rintro t r ⟨u, v, rfl, hu, rfl⟩
  exact .present r hu

theorem offset_readsOnly : ReadsOnly offset fun t d => OffsetForm t (some d) := by
  apply either_readsOnly
  · apply readsOnly_mono (behindSpaced_readsOnly '+' integer_readsOnly)
    rintro t d ⟨u, v, rfl, hu, n, hv, rfl⟩
    exact .plus hu hv
  · apply mapped_readsOnly _ (behindSpaced_readsOnly '-' integer_readsOnly)
    rintro t d ⟨u, v, rfl, hu, n, hv, rfl⟩
    exact .minus hu hv

/-- References are made of the forms of their parts, as far as the parts make up a place. -/
theorem referenceForm_iff (s : List Char) (p : Place) :
    ReferenceForm s p ↔ ∃ before t i d after b index offset,
      (Blanks before ∧ BaseForm t b ∧ IndexForm i index ∧ OffsetForm d offset ∧ Blanks after) ∧
        placeOf? b index offset = some p ∧ s = bracketed before t i d after := by
  constructor
  · intro h
    cases h with
    | based hb ht hd ha => exact ⟨_, _, _, _, _, _, _, _, ⟨hb, ht, .absent, hd, ha⟩, rfl, rfl⟩
    | indexed hb ht hi ha => exact ⟨_, _, _, _, _, _, _, _, ⟨hb, ht, hi, .absent, ha⟩, rfl, rfl⟩
    | labeled hb ht hi hd ha => exact ⟨_, _, _, _, _, _, _, _, ⟨hb, ht, hi, hd, ha⟩, rfl, rfl⟩
  · rintro ⟨before, t, i, d, after, b, index, offset, ⟨hb, ht, hi, hd, ha⟩, hp, rfl⟩
    cases b with
    | label l =>
      cases hp
      exact .labeled hb ht hi hd ha
    | register r =>
      cases hi with
      | absent =>
        cases hp
        exact .based hb ht hd ha
      | present q hs =>
        cases hd with
        | absent =>
          cases hp
          exact .indexed hb ht (.present q hs) ha
        | plus | minus => contradiction

/-- The stages of a reference that was read: the bracket, the base, index and offset, the closing
bracket. -/
theorem reference_eq_some {s rest : List Char} {p : Place} (h : reference s = some (p, rest)) :
    ∃ s₁ b s₂, expect ['['] s = some s₁ ∧ base (skipBlanks s₁) = some (b, s₂) ∧
      placeOf? b (optional index s₂).1 (optional offset (optional index s₂).2).1 = some p ∧
      expect [']'] (skipBlanks (optional offset (optional index s₂).2).2) = some rest := by
  obtain ⟨s₁, h₁, h⟩ := Option.bind_eq_some_iff.mp h
  obtain ⟨⟨b, s₂⟩, h₂, h⟩ := Option.bind_eq_some_iff.mp h
  obtain ⟨s₃, h₃, h⟩ := Option.bind_eq_some_iff.mp h
  obtain ⟨q, hq, h⟩ := Option.bind_eq_some_iff.mp h
  obtain ⟨rfl, rfl⟩ := Prod.mk.inj (Option.some.inj h)
  exact ⟨s₁, b, s₂, h₁, h₂, hq, h₃⟩

/-- A reference is read only in the form the grammar gives it. -/
theorem reference_readsOnly : ReadsOnly reference ReferenceForm := by
  intro s p rest h
  obtain ⟨s₁, b, s₂, h₁, h₂, hp, h₃⟩ := reference_eq_some h
  obtain ⟨before, hbefore, hs₁⟩ := skipBlanks_split s₁
  obtain ⟨t, hs₂, hb⟩ := base_readsOnly _ _ _ h₂
  obtain ⟨i, hti, hi⟩ := optional_readsOnly index_readsOnly .absent s₂
  obtain ⟨d, htd, hd⟩ := optional_readsOnly offset_readsOnly .absent (optional index s₂).2
  obtain ⟨after, hafter, hs₃⟩ := skipBlanks_split (optional offset (optional index s₂).2).2
  refine ⟨bracketed before t i d after, ?_, (referenceForm_iff _ p).mpr ?_⟩
  · rw [expect_eq_some h₃] at hs₃
    rw [expect_eq_some h₁, hs₁, hs₂, hti, htd, hs₃]
    simp [bracketed]
  · exact ⟨before, t, i, d, after, b, _, _, ⟨hbefore, hb, hi, hd, hafter⟩, hp, rfl⟩

/-- An operand is read only in one of the forms the grammar gives it. -/
theorem operand_readsOnly : ReadsOnly operand OperandForm := by
  apply either_readsOnly
  · apply mapped_readsOnly _ (behind_readsOnly '#' integer_readsOnly)
    rintro t w ⟨u, rfl, n, hn, rfl⟩
    exact .immediate hn
  apply either_readsOnly
  · apply mapped_readsOnly _ labelReference_readsOnly
    rintro t l ⟨rfl, hl⟩
    exact .address hl
  apply either_readsOnly
  · exact mapped_readsOnly _ reference_readsOnly fun t p h => .reference h
  · apply mapped_readsOnly _ register_readsOnly
    rintro t r rfl
    exact .register r

end PagedMachine.Assembly
