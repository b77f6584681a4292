import Mathlib.Data.List.TakeWhile
import PagedMachine.Module
import PagedMachine.Proofs.Assembly.Reader
import PagedMachine.Proofs.Assembly.Statement

/-! Lines read back. Printed statements are words with blanks between them: they survive trimming, hold no
comment and no colon, so that the labels in front of them are read and nothing else is taken for one. -/
namespace PagedMachine.Assembly

/-- The solid characters are visible ones of a single byte, and no signs of lines. -/
theorem solid_range (c : Char) (h : isSolid c = true) :
    33 ≤ c.toNat ∧ c.toNat ≤ 126 ∧ c ≠ ';' ∧ c ≠ ':' := by
  have hne : c ≠ ';' ∧ c ≠ ':' := by
    constructor
    · rintro rfl
      exact absurd h (by decide)
    · rintro rfl
      exact absurd h (by decide)
  simp only [isSolid, isIdentifierPart, Bool.or_eq_true, beq_iff_eq, List.contains_iff_mem] at h
  rcases h with (h | rfl) | h
  · delta Char.isAlphanum Char.isAlpha Char.isUpper Char.isLower Char.isDigit at h
    simp only [Bool.or_eq_true, Bool.and_eq_true, decide_eq_true_eq, UInt32.le_iff_toNat_le,
      ge_iff_le] at h
    change (((65 ≤ c.toNat ∧ c.toNat ≤ 90) ∨ (97 ≤ c.toNat ∧ c.toNat ≤ 122)) ∨
      (48 ≤ c.toNat ∧ c.toNat ≤ 57)) at h
    refine ⟨?_, ?_, hne⟩ <;> omega
  · decide
  · have hall : "#@[]+-.,".toList.all (fun c => 33 ≤ c.toNat ∧ c.toNat ≤ 126) = true := by decide
    obtain ⟨hlow, hhigh⟩ := of_decide_eq_true (List.all_eq_true.mp hall c h)
    exact ⟨hlow, hhigh, hne⟩

theorem isWhitespace_solid (c : Char) (h : isSolid c = true) : Text.isWhitespace c = false := by
  obtain ⟨hlow, hhigh, -⟩ := solid_range c h
  simp [Text.isWhitespace, Text.whitespaceRanges]
  omega

-- Words with blanks between them.
structure IsPhrase (text : List Char) : Prop where
  solid : ∀ c ∈ text, isSolid c = true ∨ c = ' '
  first : ∃ c ∈ text.head?, isSolid c = true
  last : ∃ c ∈ text.getLast?, isSolid c = true

theorem isPhrase_word {text : List Char} (h : IsWord text) : IsPhrase text where
  solid c hc := Or.inl (h.solid c hc)
  first := ⟨text.head h.nonempty, List.head?_eq_some_head h.nonempty, h.solid _ (List.head_mem _)⟩
  last := ⟨text.getLast h.nonempty, List.getLast?_eq_some_getLast h.nonempty,
    h.solid _ (List.getLast_mem _)⟩

theorem isPhrase_spaced {s t : List Char} (hs : IsPhrase s) (ht : IsPhrase t) :
    IsPhrase (s ++ ' ' :: t) where
  solid := by
    rw [List.forall_mem_append, List.forall_mem_cons]
    exact ⟨hs.solid, Or.inr rfl, ht.solid⟩
  first := by
    obtain ⟨c, hc, hsolid⟩ := hs.first
    refine ⟨c, ?_, hsolid⟩
    rw [Option.mem_def] at hc ⊢
    rw [List.head?_append, hc, Option.some_or]
  last := by
    obtain ⟨c, hc, hsolid⟩ := ht.last
    refine ⟨c, ?_, hsolid⟩
    rw [Option.mem_def] at hc ⊢
    rw [List.getLast?_append, List.getLast?_cons, hc, Option.getD_some, Option.some_or]

theorem trimStart_phrase {text : List Char} (h : IsPhrase text) : Text.trimStart text = text := by
  obtain ⟨c, hc, hsolid⟩ := h.first
  cases text with
  | nil => simp at hc
  | cons c' text =>
    have hc' : c' = c := by simpa using hc
    subst hc'
    simp [Text.trimStart, isWhitespace_solid _ hsolid]

theorem trimEnd_phrase {text : List Char} (h : IsPhrase text) : Text.trimEnd text = text := by
  obtain ⟨c, hc, hsolid⟩ := h.last
  obtain ⟨s, rfl⟩ := List.getLast?_eq_some_iff.mp hc
  simp [Text.trimEnd, isWhitespace_solid _ hsolid]

theorem mem_of_mem_identifier {s rest : List Char} {l : Label} (h : identifier s = some (l, rest)) :
    ∀ c ∈ rest, c ∈ s := by
  cases s with
  | nil => simp [identifier] at h
  | cons c s =>
    rw [identifier] at h
    split_ifs at h
    obtain ⟨-, rfl⟩ := Prod.mk.inj (Option.some.inj h)
    intro c' hc'
    exact List.mem_cons_of_mem c ((List.dropWhile_sublist isIdentifierPart).subset hc')

/-- What has no colon declares no label. -/
theorem labelDeclaration_none {s : List Char} (h : ':' ∉ s) : labelDeclaration s = none := by
  rw [Option.eq_none_iff_forall_ne_some]
  rintro ⟨l, rest⟩ hl
  obtain ⟨⟨k, s₁⟩, h₁, hl⟩ := Option.bind_eq_some_iff.1 hl
  obtain ⟨s₂, h₂, hl⟩ := Option.bind_eq_some_iff.1 hl
  apply h
  have hskip (t : List Char) : ∀ c ∈ skipBlanks t, c ∈ t :=
    fun c hc => (List.dropWhile_sublist isBlank).subset hc
  have hcolon : ':' ∈ skipBlanks s₁ := by
    revert h₂
    cases skipBlanks s₁ with
    | nil => simp [expect]
    | cons c t =>
      intro h₂
      simp only [expect] at h₂
      split_ifs at h₂ with hc
      exact List.mem_cons.mpr (Or.inl hc)
  exact hskip s _ (mem_of_mem_identifier h₁ _ (hskip s₁ _ hcolon))

def isPrinted (c : Char) : Bool :=
  isSolid c || isBlank c || c == ':'

theorem isPrinted_phrase {text : List Char} (h : IsPhrase text) : ∀ c ∈ text, isPrinted c = true := by
  intro c hc
  rcases h.solid c hc with hs | rfl
  · simp only [isPrinted, hs, Bool.true_or]
  · decide

/-- A printed character starts no comment and ends no line. -/
theorem printed_ne (c : Char) (h : isPrinted c = true) : c ≠ ';' ∧ c ≠ '\n' ∧ c ≠ '\r' := by
  refine ⟨?_, ?_, ?_⟩
  · rintro rfl
    exact absurd h (by decide)
  · rintro rfl
    exact absurd h (by decide)
  · rintro rfl
    exact absurd h (by decide)

def IsGap (text : List Char) : Prop :=
  ∀ c ∈ text, isBlank c = true

theorem isGap_nil : IsGap [] := by
  simp [IsGap]

theorem skipBlanks_gap {front : List Char} (h : IsGap front) (s : List Char) :
    skipBlanks (front ++ s) = skipBlanks s :=
  List.dropWhile_append_of_pos h

theorem colon_notMem_gap {front : List Char} (h : IsGap front) : ':' ∉ front := by
  intro hc
  exact absurd (h ':' hc) (by decide)

theorem trimStart_gap {front : List Char} (h : IsGap front) (s : List Char) :
    Text.trimStart (front ++ s) = Text.trimStart s := by
  apply List.dropWhile_append_of_pos
  intro c hc
  have hblank := h c hc
  simp only [isBlank, Bool.or_eq_true, beq_iff_eq] at hblank
  rcases hblank with rfl | rfl
  · decide
  · decide

/-- An identifier with a colon behind it is read as a label declaration, with or without a gap
before it. -/
theorem labelDeclaration_reads (l : Label) (h : isIdentifier l = true) (front rest : List Char)
    (hfront : IsGap front) :
    labelDeclaration (front ++ (l.toList ++ ':' :: rest)) = some (l, rest) := by
  have hskip : skipBlanks (front ++ (l.toList ++ ':' :: rest)) = l.toList ++ ':' :: rest := by
    rw [skipBlanks_gap hfront, skipBlanks_word (isWord_identifier l h)]
  have hread := identifier_reads l h (':' :: rest) ((ends_cons _ _).mpr (by decide))
  have hcolon : expect [':'] (skipBlanks (':' :: rest)) = some rest := rfl
  simp only [labelDeclaration, hskip, hread, Option.bind_eq_bind, Option.bind_some, hcolon]
  rfl

theorem labelsText_toList (gap : String) (ls : List Label) :
    (labelsText gap ls).toList = ls.flatMap fun l => l.toList ++ ':' :: gap.toList := by
  simp [labelsText, List.flatMap_map]

/-- Declarations are read up to a text without a colon; a gap may be left in front of it. -/
theorem many_labels (gap : String) (hgap : IsGap gap.toList) (ls : List Label)
    (hls : ∀ l ∈ ls, isIdentifier l = true) (text front : List Char) (htext : ':' ∉ text)
    (hfront : IsGap front) :
    ∃ front', IsGap front' ∧
      many labelDeclaration labelDeclaration_progresses (front ++ ((labelsText gap ls).toList ++ text)) =
        (ls, front' ++ text) := by
  rw [labelsText_toList]
  induction ls generalizing front with
  | nil =>
    refine ⟨front, hfront, ?_⟩
    apply many_none
    apply labelDeclaration_none
    simpa using And.intro (colon_notMem_gap hfront) htext
  | cons l ls ih =>
    -- The gap behind a colon is left to the next declaration.
    obtain ⟨hl, hls⟩ := List.forall_mem_cons.mp hls
    obtain ⟨front', hfront', hrest⟩ := ih hls gap.toList hgap
    refine ⟨front', hfront', ?_⟩
    have hread := labelDeclaration_reads l hl front
      (gap.toList ++ ((ls.flatMap fun l => l.toList ++ ':' :: gap.toList) ++ text)) hfront
    have hassoc : front ++ (((l :: ls).flatMap fun l => l.toList ++ ':' :: gap.toList) ++ text) =
        front ++ (l.toList ++
          ':' :: (gap.toList ++ ((ls.flatMap fun l => l.toList ++ ':' :: gap.toList) ++ text))) := by
      simp
    rw [hassoc, many_some _ hread, hrest]

theorem isPrinted_labels (gap : String) (hgap : IsGap gap.toList) (ls : List Label)
    (hls : ∀ l ∈ ls, isIdentifier l = true) : ∀ c ∈ (labelsText gap ls).toList, isPrinted c = true := by
  rw [labelsText_toList]
  intro c hc
  obtain ⟨l, hl, hc⟩ := List.mem_flatMap.mp hc
  rcases List.mem_append.mp hc with hc | hc
  · exact isPrinted_phrase (isPhrase_word (isWord_identifier l (hls l hl))) c hc
  · rcases List.mem_cons.mp hc with rfl | hc
    · decide
    · simp only [isPrinted, hgap c hc, Bool.or_true, Bool.true_or]

/-- A line of labels and a statement says what its labels and its statement say. -/
theorem readLine_statement (gap : String) (hgap : IsGap gap.toList) (ls : List Label)
    (hls : ∀ l ∈ ls, isIdentifier l = true) (number : Nat) (text : List Char) (st : Statement)
    (ht : IsPhrase text) (hst : Statement.parse? text = some st) :
    ∃ span, readLine number ((labelsText gap ls).toList ++ text) =
      match st.directives span with
      | .error problem => .error ⟨number, problem⟩
      | .ok directives => .ok (ls.map .label ++ directives) := by
  have hcolon : ':' ∉ text := by
    intro h
    rcases ht.solid ':' h with hs | hs
    · exact (solid_range ':' hs).2.2.2 rfl
    · exact absurd hs (by decide)
  have hcode : ((labelsText gap ls).toList ++ text).takeWhile (· != ';') =
      (labelsText gap ls).toList ++ text := by
    have hprinted := List.forall_mem_append.mpr
      ⟨isPrinted_labels gap hgap ls hls, isPrinted_phrase ht⟩
    rw [List.takeWhile_eq_self_iff]
    intro c hc
    simpa using (printed_ne c (hprinted c hc)).1
  obtain ⟨front, hfront, hlabels⟩ := many_labels gap hgap ls hls text [] hcolon isGap_nil
  rw [List.nil_append] at hlabels
  have hstart : Text.trimStart (front ++ text) = text := by
    rw [trimStart_gap hfront, trimStart_phrase ht]
  have hempty : text.isEmpty = false := by
    obtain ⟨c, hc, -⟩ := ht.first
    cases text with
    | nil => simp at hc
    | cons => rfl
  have hdeclared : declaredLabels ((labelsText gap ls).toList ++ text) = ls := by
    rw [declaredLabels, hcode, hlabels]
  have htext : statementText ((labelsText gap ls).toList ++ text) = text := by
    rw [statementText, statementRest, hcode, hlabels, hstart, trimEnd_phrase ht]
  refine ⟨statementSpan number ((labelsText gap ls).toList ++ text), ?_⟩
  cases hsaid : st.directives (statementSpan number ((labelsText gap ls).toList ++ text)) with
  | error problem => simp [readLine, htext, hempty, hst, hsaid]
  | ok directives => simp [readLine, htext, hempty, hst, hsaid, hdeclared]

end PagedMachine.Assembly
