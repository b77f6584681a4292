import PagedMachine.Assembly.Parser
import PagedMachine.Instruction

/-!
Reading operands: immediates `#12`, label addresses `@name`, registers, and memory references in
brackets, which sum a base, an index register and an offset.
-/

namespace PagedMachine.Assembly

def hexDigit? (c : Char) : Option Nat :=
  if c.isDigit then some (c.toNat - '0'.toNat)
  else if 'a' ≤ c ∧ c ≤ 'f' then some (c.toNat - 'a'.toNat + 10)
  else if 'A' ≤ c ∧ c ≤ 'F' then some (c.toNat - 'A'.toNat + 10)
  else none

-- The number that digits spell in a base, the most significant digit first.
def digitsValue (base : Nat) (digits : List Char) : Nat :=
  digits.foldl (fun n c => n * base + (hexDigit? c).getD 0) 0

-- Reads a hexadecimal number that fits into a word.
def hexadecimal : Parser Word
  | '0' :: x :: s =>
    if x = 'x' ∨ x = 'X' then do
      let (digits, rest) ← run (fun c => (hexDigit? c).isSome) s
      let n := digitsValue 16 digits
      if n < wordCount then some (BitVec.ofNat 32 n, rest) else none
    else none
  | _ => none

theorem hexadecimal_shrinks : Shrinks hexadecimal := by
  intro s w rest h
  unfold hexadecimal at h
  split at h
  · next x s =>
    split at h
    · obtain ⟨⟨digits, r⟩, hr, he⟩ := Option.bind_eq_some_iff.1 h
      have hl := run_shrinks _ _ _ _ hr
      simp only [Option.ite_none_right_eq_some, Option.some.injEq, Prod.mk.injEq] at he
      rw [← he.2.2, List.length_cons, List.length_cons]
      omega
    · simp at h
  · simp at h

-- Reads a decimal number that some reading of a word's bits can have: from the least signed to the greatest
-- unsigned value.
def decimal : Parser Word
  | '-' :: s => do
    let (digits, rest) ← run Char.isDigit s
    let n := digitsValue 10 digits
    if n ≤ wordCount / 2 then some (-BitVec.ofNat 32 n, rest) else none
  | s => do
    let (digits, rest) ← run Char.isDigit s
    let n := digitsValue 10 digits
    if n < wordCount then some (BitVec.ofNat 32 n, rest) else none

theorem decimal_shrinks : Shrinks decimal := by
  intro s w rest h
  unfold decimal at h
  split at h
  · next s =>
    obtain ⟨⟨digits, r⟩, hr, he⟩ := Option.bind_eq_some_iff.1 h
    have hl := run_shrinks _ _ _ _ hr
    simp only [Option.ite_none_right_eq_some, Option.some.injEq, Prod.mk.injEq] at he
    rw [← he.2.2, List.length_cons]
    omega
  · obtain ⟨⟨digits, r⟩, hr, he⟩ := Option.bind_eq_some_iff.1 h
    have hl := run_shrinks _ _ _ _ hr
    simp only [Option.ite_none_right_eq_some, Option.some.injEq, Prod.mk.injEq] at he
    rw [← he.2.2]
    exact hl

-- Reads a number. What is no hexadecimal number may still start with a decimal one.
def integer : Parser Word :=
  either hexadecimal decimal

theorem integer_shrinks : Shrinks integer :=
  either_shrinks hexadecimal_shrinks decimal_shrinks

-- Reads a register, whose name ends only where letters and digits do.
def register : Parser Register := fun s => do
  let (name, rest) ← run Char.isAlphanum s
  return (← Register.ofName? (String.ofList name), rest)

theorem register_shrinks : Shrinks register := by
  intro s r rest h
  obtain ⟨⟨name, t⟩, ht, he⟩ := Option.bind_eq_some_iff.1 h
  obtain ⟨q, _, hq⟩ := Option.bind_eq_some_iff.1 he
  have hl := run_shrinks _ _ _ _ ht
  simp only [pure, Option.some.injEq, Prod.mk.injEq] at hq
  exact hq.2 ▸ hl

def behind {α : Type} (opening : Char) (item : Parser α) : Parser α := fun s => do
  item (← expect [opening] s)

theorem behind_shrinks {α : Type} (opening : Char) {item : Parser α} (hi : Shrinks item) :
    Shrinks (behind opening item) := by
  intro s a rest h
  obtain ⟨r, hr, ha⟩ := Option.bind_eq_some_iff.1 h
  have he := length_of_expect hr
  have hl := hi r a rest ha
  simp only [List.length_singleton] at he
  omega

-- Reads an item behind a character that may have blanks around it.
def behindSpaced {α : Type} (opening : Char) (item : Parser α) : Parser α := fun s => do
  item (← expectSpaced opening s)

theorem behindSpaced_shrinks {α : Type} (opening : Char) {item : Parser α} (hi : Shrinks item) :
    Shrinks (behindSpaced opening item) := by
  intro s a rest h
  obtain ⟨r, hr, ha⟩ := Option.bind_eq_some_iff.1 h
  exact Nat.le_trans (hi r a rest ha) (Nat.le_of_lt (length_of_expectSpaced hr))

def labelReference : Parser Label :=
  behind '@' identifier

theorem labelReference_shrinks : Shrinks labelReference :=
  behind_shrinks '@' identifier_shrinks

def index : Parser Register :=
  behindSpaced '+' register

theorem index_shrinks : Shrinks index :=
  behindSpaced_shrinks '+' register_shrinks

-- Reads an offset behind its sign. The number may have a sign of its own.
def offset : Parser Word :=
  either (behindSpaced '+' integer) (mapped (- ·) (behindSpaced '-' integer))

theorem offset_shrinks : Shrinks offset :=
  either_shrinks (behindSpaced_shrinks '+' integer_shrinks)
    (mapped_shrinks _ (behindSpaced_shrinks '-' integer_shrinks))

inductive Base where
  | label (l : Label)
  | register (r : Register)

def base : Parser Base :=
  either (mapped .label labelReference) (mapped .register register)

theorem base_shrinks : Shrinks base :=
  either_shrinks (mapped_shrinks _ labelReference_shrinks) (mapped_shrinks _ register_shrinks)

-- The place that the parts of a memory reference make up. A register base takes an index or an offset, not
-- both.
def placeOf? : Base → Option Register → Option Word → Option Place
  | .label l, i, d => some (.labeled l i d)
  | .register r, none, d => some (.based r d)
  | .register r, some i, none => some (.indexed r i)
  | .register _, some _, some _ => none

def reference : Parser Place := fun s => do
  let s ← expect ['['] s
  let (b, s) ← base (skipBlanks s)
  let (i, s) := optional index s
  let (d, s) := optional offset s
  let s ← expect [']'] (skipBlanks s)
  return (← placeOf? b i d, s)

/-- A bracketed reference consumes at least its opening bracket. -/
theorem reference_shrinks : Shrinks reference := by
  intro s p rest h
  obtain ⟨s₁, h₁, h⟩ := Option.bind_eq_some_iff.1 h
  obtain ⟨⟨b, s₂⟩, h₂, h⟩ := Option.bind_eq_some_iff.1 h
  obtain ⟨s₃, h₃, h⟩ := Option.bind_eq_some_iff.1 h
  obtain ⟨q, _, h⟩ := Option.bind_eq_some_iff.1 h
  simp only [pure, Option.some.injEq, Prod.mk.injEq] at h
  have e₁ := length_of_expect h₁
  have e₂ := base_shrinks _ _ _ h₂
  have e₃ : s₃.length + 1 = (skipBlanks (optional offset (optional index s₂).2).2).length :=
    length_of_expect h₃
  have hb := length_skipBlanks_le s₁
  have hi := length_optional_le index_shrinks s₂
  have hd := length_optional_le offset_shrinks (optional index s₂).2
  have hc := length_skipBlanks_le (optional offset (optional index s₂).2).2
  rw [← h.2]
  omega

def immediate : Parser Word :=
  behind '#' integer

theorem immediate_shrinks : Shrinks immediate :=
  behind_shrinks '#' integer_shrinks

def operand : Parser Operand :=
  either (mapped .immediate immediate) <| either (mapped .address labelReference) <|
    either (mapped .place reference) (mapped (fun r => .place (.register r)) register)

/-- Every operand consumes something, so a list of operands is finite. -/
theorem operand_shrinks : Shrinks operand :=
  either_shrinks (mapped_shrinks _ immediate_shrinks) <|
    either_shrinks (mapped_shrinks _ labelReference_shrinks) <|
      either_shrinks (mapped_shrinks _ reference_shrinks) (mapped_shrinks _ register_shrinks)

end PagedMachine.Assembly
