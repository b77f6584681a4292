import Mathlib.Tactic.SplitIfs
import PagedMachine.Assembly.Operand

/-! Tokens read back. A token is followed by a text that does not go on with it; under that condition alone
identifiers, registers and numbers are read exactly as far as they were written. -/
namespace PagedMachine.Assembly

-- Whether a text can stand behind a token: no letter, digit or underscore goes on with the token.
def Ends (rest : List Char) : Prop :=
  ∀ c ∈ rest.head?, isIdentifierPart c = false

theorem ends_nil : Ends [] := by
  simp [Ends]

theorem ends_cons (c : Char) (s : List Char) : Ends (c :: s) ↔ isIdentifierPart c = false := by
  simp [Ends]

-- A parser reads a text off the front, whatever can stand behind a token follows.
def Reads {α : Type} (item : Parser α) (text : List Char) (a : α) : Prop :=
  ∀ rest, Ends rest → item (text ++ rest) = some (a, rest)

-- A parser finds nothing where a text stands.
def Rejects {α : Type} (item : Parser α) (text : List Char) : Prop :=
  ∀ rest, Ends rest → item (text ++ rest) = none

section Combinators

variable {α β : Type} {item first second : Parser α} {text : List Char} {a : α}

theorem mapped_reads (f : α → β) (h : Reads item text a) : Reads (mapped f item) text (f a) := by
  intro rest hrest
  simp only [mapped, h rest hrest, Option.map_some]

theorem mapped_rejects (f : α → β) (h : Rejects item text) : Rejects (mapped f item) text := by
  intro rest hrest
  simp only [mapped, h rest hrest, Option.map_none]

theorem either_reads_first (h : Reads first text a) : Reads (either first second) text a := by
  intro rest hrest
  simp only [either, h rest hrest]

/-- A choice reads with its second branch what the first rejects. -/
theorem either_reads_second (hf : Rejects first text) (h : Reads second text a) :
    Reads (either first second) text a := by
  intro rest hrest
  simp only [either, hf rest hrest, h rest hrest]

theorem expect_append (ts s : List Char) : expect ts (ts ++ s) = some s := by
  induction ts with
  | nil => rfl
  | cons t ts ih => simpa only [List.cons_append, expect, ↓reduceIte] using ih

theorem expect_other (t c : Char) (ts s : List Char) (h : t ≠ c) : expect (t :: ts) (c :: s) = none := by
  simp only [expect, h, ↓reduceIte]

theorem behind_reads (opening : Char) (h : Reads item text a) :
    Reads (behind opening item) (opening :: text) a := by
  intro rest hrest
  have he : expect [opening] (opening :: text ++ rest) = some (text ++ rest) := expect_append [opening] _
  simp only [behind, he, Option.bind_eq_bind, Option.bind_some, h rest hrest]

theorem behind_rejects (opening c : Char) (hc : opening ≠ c) :
    Rejects (behind opening item) (c :: text) := by
  intro rest _
  simp only [behind, List.cons_append, expect_other opening c [] _ hc, Option.bind_eq_bind,
    Option.bind_none]

theorem optional_some {s rest : List Char} (h : item s = some (a, rest)) :
    optional item s = (some a, rest) := by
  simp only [optional, h]

theorem optional_none {s : List Char} (h : item s = none) : optional item s = (none, s) := by
  simp only [optional, h]

end Combinators

-- The characters of printed operands and directives, other than blanks.
def isSolid (c : Char) : Bool :=
  isIdentifierPart c || "#@[]+-.,".toList.contains c

-- A text without blanks, as operands and mnemonics are.
structure IsWord (text : List Char) : Prop where
  nonempty : text ≠ []
  solid : ∀ c ∈ text, isSolid c = true

theorem isWord_of_all {t : List Char} (hne : t ≠ []) (h : t.all isSolid = true) : IsWord t :=
  ⟨hne, List.all_eq_true.mp h⟩

theorem isWord_append {s t : List Char} (hs : IsWord s) (ht : ∀ c ∈ t, isSolid c = true) :
    IsWord (s ++ t) := by
  constructor
  · simp [hs.nonempty]
  · exact List.forall_mem_append.mpr ⟨hs.solid, ht⟩

theorem isWord_cons {c : Char} {t : List Char} (hc : isSolid c = true) (ht : ∀ c ∈ t, isSolid c = true) :
    IsWord (c :: t) :=
  ⟨List.cons_ne_nil c t, List.forall_mem_cons.mpr ⟨hc, ht⟩⟩

theorem isSolid_of_part {c : Char} (h : isIdentifierPart c = true) : isSolid c = true := by
  simp only [isSolid, h, Bool.true_or]

theorem isBlank_solid {c : Char} (h : isSolid c = true) : isBlank c = false := by
  cases hb : isBlank c with
  | false => rfl
  | true =>
    simp only [isBlank, Bool.or_eq_true, beq_iff_eq] at hb
    rcases hb with rfl | rfl
    · exact absurd h (by decide)
    · exact absurd h (by decide)

theorem skipBlanks_word {t : List Char} (h : IsWord t) (rest : List Char) :
    skipBlanks (t ++ rest) = t ++ rest := by
  cases t with
  | nil => exact absurd rfl h.nonempty
  | cons c t =>
    have hc := isBlank_solid (h.solid c List.mem_cons_self)
    simp only [skipBlanks, List.cons_append, List.dropWhile_cons, hc, Bool.false_eq_true, ↓reduceIte]

/-- A run of members is cut where the next text ends it. -/
theorem span_token (isMember : Char → Bool) (hm : ∀ c, isMember c = true → isIdentifierPart c = true)
    (cs rest : List Char) (hcs : ∀ c ∈ cs, isMember c = true) (hrest : Ends rest) :
    (cs ++ rest).takeWhile isMember = cs ∧ (cs ++ rest).dropWhile isMember = rest := by
  rw [List.takeWhile_append_of_pos hcs, List.dropWhile_append_of_pos hcs]
  -- The run goes up to the end of the token, and what follows does not go on with it.
  cases rest with
  | nil => simp
  | cons c rest =>
    have hc : ¬isMember c = true := by
      intro h
      rw [ends_cons, hm c h] at hrest
      contradiction
    simp [hc]

/-- A nonempty run of members is read as it is written. -/
theorem run_reads (isMember : Char → Bool) (hm : ∀ c, isMember c = true → isIdentifierPart c = true)
    (cs : List Char) (hne : cs ≠ []) (hcs : ∀ c ∈ cs, isMember c = true) :
    Reads (run isMember) cs cs := by
  intro rest hrest
  obtain ⟨htake, hdrop⟩ := span_token isMember hm cs rest hcs hrest
  simp only [run, htake, hdrop]

theorem part_of_alphanum (c : Char) (h : c.isAlphanum = true) : isIdentifierPart c = true := by
  simp only [isIdentifierPart, h, Bool.true_or]

theorem part_of_digit (c : Char) (h : c.isDigit = true) : isIdentifierPart c = true := by
  apply part_of_alphanum
  simp only [Char.isAlphanum, h, Bool.or_true]

theorem part_of_alpha (c : Char) (h : c.isAlpha = true) : isIdentifierPart c = true := by
  apply part_of_alphanum
  simp only [Char.isAlphanum, h, Bool.true_or]

theorem part_of_start (c : Char) (h : isIdentifierStart c = true) : isIdentifierPart c = true := by
  simp only [isIdentifierStart, Bool.or_eq_true] at h
  rcases h with h | h
  · exact part_of_alpha c h
  · simp only [isIdentifierPart, h, Bool.or_true]

-- Whether a label can be written in assembly.
def isIdentifier (l : Label) : Bool :=
  match l.toList with
  | [] => false
  | c :: cs => isIdentifierStart c && cs.all isIdentifierPart

/-- An identifier is read as it is written. -/
theorem identifier_reads (l : Label) (h : isIdentifier l = true) : Reads identifier l.toList l := by
  intro rest hrest
  cases hl : l.toList with
  | nil => simp only [isIdentifier, hl, Bool.false_eq_true] at h
  | cons c cs =>
    simp only [isIdentifier, hl, Bool.and_eq_true, List.all_eq_true] at h
    obtain ⟨hc, hcs⟩ := h
    obtain ⟨htake, hdrop⟩ := span_token isIdentifierPart (fun _ => id) cs rest hcs hrest
    have hl' : String.ofList (c :: cs) = l := by rw [← hl, String.ofList_toList]
    simp only [identifier, List.cons_append, hc, ↓reduceIte, htake, hdrop, hl']

theorem isWord_identifier (l : Label) (h : isIdentifier l = true) : IsWord l.toList := by
  cases hl : l.toList with
  | nil => simp only [isIdentifier, hl, Bool.false_eq_true] at h
  | cons c cs =>
    simp only [isIdentifier, hl, Bool.and_eq_true, List.all_eq_true] at h
    obtain ⟨hc, hcs⟩ := h
    exact isWord_cons (isSolid_of_part (part_of_start c hc)) fun c hc => isSolid_of_part (hcs c hc)

theorem register_reads (r : Register) : Reads register r.name.toList r := by
  intro rest hrest
  have hname : r.name.toList ≠ [] ∧ r.name.toList.all Char.isAlphanum = true := by
    cases r <;> decide
  have halnum := List.all_eq_true.mp hname.2
  have hrun := run_reads Char.isAlphanum part_of_alphanum _ hname.1 halnum rest hrest
  have hof : Register.ofName? r.name = some r := by
    cases r <;> decide
  simp only [register, hrun, Option.bind_eq_bind, Option.bind_some, String.ofList_toList, hof]
  rfl

theorem isWord_register (r : Register) : IsWord r.name.toList := by
  cases r <;> exact isWord_of_all (by decide) (by decide)

/-- A text whose second character is no `x` is no hexadecimal number. -/
theorem hexadecimal_none (s : List Char) (h : ∀ c ∈ s.tail.head?, c ≠ 'x' ∧ c ≠ 'X') :
    hexadecimal s = none := by
  unfold hexadecimal
  split
  · next x s =>
    obtain ⟨hl, hu⟩ := h x rfl
    simp only [hl, hu, or_self, ↓reduceIte]
  · rfl

/-- Plain digits are no hexadecimal numeral: its mark is missing. -/
theorem hexadecimal_rejects_digits (cs : List Char) (hne : cs ≠ [])
    (hcs : ∀ c ∈ cs, c.isDigit = true) : Rejects hexadecimal cs := by
  intro rest hrest
  apply hexadecimal_none
  -- The second character is a further digit, or it stands behind the number.
  have hx (c : Char) (h : c.isDigit = true ∨ isIdentifierPart c = false) : c ≠ 'x' ∧ c ≠ 'X' := by
    constructor
    · rintro rfl
      exact absurd h (by decide)
    · rintro rfl
      exact absurd h (by decide)
  intro c hc
  apply hx
  cases cs with
  | nil => exact absurd rfl hne
  | cons d ds =>
    cases ds with
    | nil => exact Or.inr (hrest c hc)
    | cons d' ds =>
      have hd : c = d' := by simpa [eq_comm] using hc
      exact Or.inl (hd ▸ hcs d' (by simp))

/-- Digits with a value in the range of a word are read as that value. -/
theorem natural_reads (cs : List Char) (hne : cs ≠ []) (hcs : ∀ c ∈ cs, c.isDigit = true)
    (h : digitsValue 10 cs < wordCount) : Reads integer cs (BitVec.ofNat 32 (digitsValue 10 cs)) := by
  apply either_reads_second (hexadecimal_rejects_digits cs hne hcs)
  intro rest hrest
  have hrun := run_reads Char.isDigit part_of_digit cs hne hcs rest hrest
  unfold decimal
  split
  · -- There is no sign: the text starts with a digit.
    next s hs =>
    cases cs with
    | nil => contradiction
    | cons d ds =>
      rw [List.cons_append, List.cons.injEq] at hs
      have hminus := hcs d List.mem_cons_self
      rw [hs.1] at hminus
      exact absurd hminus (by decide)
  · simp only [hrun, Option.bind_eq_bind, Option.bind_some, h, ↓reduceIte]

/-- Digits behind a minus are read as the negation of their value, down to the least word. -/
theorem negative_reads (cs : List Char) (hne : cs ≠ []) (hcs : ∀ c ∈ cs, c.isDigit = true)
    (h : digitsValue 10 cs ≤ wordCount / 2) :
    Reads integer ('-' :: cs) (-BitVec.ofNat 32 (digitsValue 10 cs)) := by
  apply either_reads_second
  · intro rest _
    rfl
  · intro rest hrest
    have hrun := run_reads Char.isDigit part_of_digit cs hne hcs rest hrest
    simp only [List.cons_append, decimal, hrun, Option.bind_eq_bind, Option.bind_some, h, ↓reduceIte]

end PagedMachine.Assembly
