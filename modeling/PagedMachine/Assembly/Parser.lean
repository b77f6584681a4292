import PagedMachine.Source

/-!
Parsers over lists of characters. A parser takes what it reads off the front of its input and
returns the rest; it fails without taking anything. Choice is ordered and never taken back.

`Shrinks` says that a parser leaves no more than it was given, `Progresses` that it leaves less; only a
parser that progresses can be repeated.
-/

namespace PagedMachine.Assembly

abbrev Parser (α : Type) := List Char → Option (α × List Char)

def Shrinks {α : Type} (item : Parser α) : Prop :=
  ∀ s a rest, item s = some (a, rest) → rest.length ≤ s.length

def Progresses {α : Type} (item : Parser α) : Prop :=
  ∀ s a rest, item s = some (a, rest) → rest.length < s.length

def expect : List Char → List Char → Option (List Char)
  | [], s => some s
  | _ :: _, [] => none
  | t :: ts, c :: s => if t = c then expect ts s else none

theorem length_of_expect {ts s rest : List Char} (h : expect ts s = some rest) :
    rest.length + ts.length = s.length := by
  fun_induction expect ts s with
  | case1 s => simp_all
  | case2 => simp at h
  | case3 ts c s ih =>
    have := ih h
    simp only [List.length_cons]
    omega
  | case4 => simp at h

-- Blanks between the parts of a statement are spaces and tabs only.
def isBlank (c : Char) : Bool :=
  c == ' ' || c == '\t'

def skipBlanks (s : List Char) : List Char :=
  s.dropWhile isBlank

theorem length_skipBlanks_le (s : List Char) : (skipBlanks s).length ≤ s.length :=
  (List.dropWhile_sublist isBlank).length_le

-- Skips blanks, of which there has to be one.
def expectBlanks : List Char → Option (List Char)
  | [] => none
  | c :: s => if isBlank c then some (skipBlanks s) else none

def expectSpaced (t : Char) (s : List Char) : Option (List Char) :=
  (expect [t] (skipBlanks s)).map skipBlanks

theorem length_of_expectSpaced {t : Char} {s rest : List Char}
    (h : expectSpaced t s = some rest) : rest.length < s.length := by
  obtain ⟨r, hr, rfl⟩ := Option.map_eq_some_iff.1 h
  have he := length_of_expect hr
  have hs := length_skipBlanks_le s
  have hb := length_skipBlanks_le r
  simp only [List.length_singleton] at he
  omega

-- Reads the longest run of characters of a class, which must not be empty.
def run (isMember : Char → Bool) (s : List Char) : Option (List Char × List Char) :=
  match s.takeWhile isMember with
  | [] => none
  | cs => some (cs, s.dropWhile isMember)

theorem run_shrinks (isMember : Char → Bool) : Shrinks (run isMember) := by
  intro s cs rest h
  unfold run at h
  split at h
  · simp at h
  · simp only [Option.some.injEq, Prod.mk.injEq] at h
    exact h.2 ▸ (List.dropWhile_sublist isMember).length_le

def optional {α : Type} (item : Parser α) (s : List Char) : Option α × List Char :=
  match item s with
  | some (a, rest) => (some a, rest)
  | none => (none, s)

/-- An optional item never leaves more than it was given. -/
theorem length_optional_le {α : Type} {item : Parser α} (hi : Shrinks item) (s : List Char) :
    (optional item s).2.length ≤ s.length := by
  unfold optional
  split
  · next a rest h => exact hi s a rest h
  · exact Nat.le_refl _

def many {α : Type} (item : Parser α) (hi : Progresses item) (s : List Char) :
    List α × List Char :=
  match h : item s with
  | none => ([], s)
  | some (a, rest) =>
    have := hi s a rest h
    let (as, rest) := many item hi rest
    (a :: as, rest)
termination_by s.length

def behindComma {α : Type} (item : Parser α) : Parser α := fun s => do
  item (← expectSpaced ',' s)

/-- The comma alone makes a repetition of items behind commas end. -/
theorem behindComma_progresses {α : Type} {item : Parser α} (hi : Shrinks item) :
    Progresses (behindComma item) := by
  intro s a rest h
  obtain ⟨r, hr, ha⟩ := Option.bind_eq_some_iff.1 h
  exact Nat.lt_of_le_of_lt (hi r a rest ha) (length_of_expectSpaced hr)

-- Reads one or more items with commas between them. A comma that no item follows is left.
def separated {α : Type} (item : Parser α) (hi : Shrinks item) : Parser (List α) := fun s => do
  let (a, s) ← item s
  let (as, s) := many (behindComma item) (behindComma_progresses hi) s
  return (a :: as, s)

def mapped {α β : Type} (f : α → β) (item : Parser α) : Parser β := fun s =>
  (item s).map fun (a, rest) => (f a, rest)

theorem mapped_shrinks {α β : Type} (f : α → β) {item : Parser α} (hi : Shrinks item) :
    Shrinks (mapped f item) := by
  intro s b rest h
  obtain ⟨⟨a, r⟩, ha, he⟩ := Option.map_eq_some_iff.1 h
  simp only [Prod.mk.injEq] at he
  exact he.2 ▸ hi s a r ha

def either {α : Type} (first second : Parser α) : Parser α := fun s =>
  match first s with
  | some result => some result
  | none => second s

theorem either_shrinks {α : Type} {first second : Parser α} (hf : Shrinks first)
    (hs : Shrinks second) : Shrinks (either first second) := by
  intro s a rest h
  unfold either at h
  split at h
  · next hr => exact hf s a rest (hr.trans h)
  · exact hs s a rest h

def isIdentifierStart (c : Char) : Bool :=
  c.isAlpha || c == '_'

def isIdentifierPart (c : Char) : Bool :=
  c.isAlphanum || c == '_'

-- Reads an identifier: letters, digits and underscores, not starting with a digit.
def identifier : Parser Label
  | [] => none
  | c :: s =>
    if isIdentifierStart c then
      some (String.ofList (c :: s.takeWhile isIdentifierPart), s.dropWhile isIdentifierPart)
    else none

theorem identifier_shrinks : Shrinks identifier := by
  intro s l rest h
  cases s with
  | nil => simp [identifier] at h
  | cons c s =>
    rw [identifier] at h
    split at h
    · simp only [Option.some.injEq, Prod.mk.injEq] at h
      have hd := (List.dropWhile_sublist (l := s) isIdentifierPart).length_le
      rw [← h.2, List.length_cons]
      omega
    · simp at h

end PagedMachine.Assembly
