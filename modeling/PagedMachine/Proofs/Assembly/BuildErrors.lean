import PagedMachine.Proofs.Assembly.Contents

/-! The lines that are blamed for a module. A problem of the module as a whole is told alone, and on a line that
has to do with it: dangling labels on the line of the last one, an import that is defined as well on the first line
that imports it. -/
namespace PagedMachine.Assembly

-- The names that lines have, each with the number of its line; the first line has the given number.
def namesFrom (names : List Char → List Label) (number : Nat) (lines : List (List Char)) :
    List (Label × Nat) :=
  (lines.zipIdx number).flatMap fun q => (names q.1).map (·, q.2)

section Names

variable (names : List Char → List Label)

theorem namesFrom_cons (number : Nat) (line : List Char) (lines : List (List Char)) :
    namesFrom names number (line :: lines) =
      (names line).map (·, number) ++ namesFrom names (number + 1) lines := rfl

theorem namesFrom_fst (number : Nat) (lines : List (List Char)) :
    (namesFrom names number lines).map Prod.fst = lines.flatMap names := by
  induction lines generalizing number with
  | nil => rfl
  | cons line lines ih =>
    rw [namesFrom_cons, List.map_append, ih, List.flatMap_cons]
    simp [Function.comp_def]

/-- The last name of all stands on the last line that has one, and is the last one there. -/
theorem namesFrom_last (number : Nat) (lines : List (List Char)) (l : Label) (n : Nat)
    (h : (namesFrom names number lines).getLast? = some (l, n)) :
    ∃ before line after, lines = before ++ line :: after ∧ n = number + before.length ∧
      (names line).getLast? = some l ∧ ∀ later ∈ after, names later = [] := by
  induction lines generalizing number with
  | nil => contradiction
  | cons line lines ih =>
    rw [namesFrom_cons, List.getLast?_append, Option.or_eq_some_iff] at h
    rcases h with h | ⟨hnone, h⟩
    · obtain ⟨before, line', after, rfl, rfl, hlast, hafter⟩ := ih (number + 1) h
      refine ⟨line :: before, line', after, rfl, ?_, hlast, hafter⟩
      rw [List.length_cons]
      omega
    · -- No line behind this one has a name.
      have hempty : lines.flatMap names = [] := by
        rw [← namesFrom_fst names (number + 1) lines, List.getLast?_eq_none_iff.mp hnone, List.map_nil]
      rw [List.getLast?_map, Option.map_eq_some_iff] at h
      obtain ⟨k, hk, he⟩ := h
      obtain ⟨rfl, rfl⟩ := Prod.mk.inj he
      exact ⟨[], line, lines, rfl, rfl, hk, List.flatMap_eq_nil_iff.mp hempty⟩

/-- The first occurrence of a name stands on the first line that has it. -/
theorem namesFrom_first (number : Nat) (lines : List (List Char)) (l : Label) (q : Label × Nat)
    (h : (namesFrom names number lines).find? (·.1 == l) = some q) :
    ∃ before line after, lines = before ++ line :: after ∧ q.2 = number + before.length ∧
      l ∈ names line ∧ ∀ earlier ∈ before, l ∉ names earlier := by
  induction lines generalizing number with
  | nil => contradiction
  | cons line lines ih =>
    rw [namesFrom_cons, List.find?_append, Option.or_eq_some_iff] at h
    rcases h with h | ⟨hnone, h⟩
    · have hq := List.mem_of_find?_eq_some h
      have hl : (q.1 == l) = true := List.find?_some (p := fun (x : Label × Nat) => x.1 == l) h
      obtain ⟨k, hk, rfl⟩ := List.mem_map.mp hq
      exact ⟨[], line, lines, rfl, rfl, beq_iff_eq.mp hl ▸ hk, by simp⟩
    · have hl : l ∉ names line := by
        intro hmem
        have hne := List.find?_eq_none.mp hnone (l, number) (List.mem_map_of_mem hmem)
        simp at hne
      obtain ⟨before, line', after, rfl, hn, hmem, hbefore⟩ := ih (number + 1) h
      refine ⟨line :: before, line', after, rfl, ?_, hmem, List.forall_mem_cons.mpr ⟨hl, hbefore⟩⟩
      rw [hn, List.length_cons]
      omega

/-- What is picked from a text, with its lines, if each line has certain names to be picked. -/
theorem contents_names (pick : Directive → Option Label)
    (h : ∀ number line, (lineDirectives number line).filterMap pick = names line) (text : String) :
    ((contents text).filterMap fun d => (pick d.directive).map (·, d.line)) =
      namesFrom names 1 (Text.lines text.toList) := by
  rw [contents, List.filterMap_flatMap, namesFrom]
  apply List.flatMap_congr
  intro q _
  rw [← h q.2 q.1, List.filterMap_map, List.map_filterMap]
  rfl

/-- What a kind of directive names in a text is what its lines name, in order. -/
theorem contents_picked (pick : Directive → Option Label)
    (h : ∀ number line, (lineDirectives number line).filterMap pick = names line) (text : String) :
    ((contents text).map (·.directive)).filterMap pick = (Text.lines text.toList).flatMap names := by
  rw [← namesFrom_fst names 1, ← contents_names names pick h text, List.map_filterMap, List.filterMap_map]
  simp [Function.comp_def]

end Names

theorem isLabel_eq (x : Directive) : x.isLabel = x.label?.isSome := by
  cases x <;> rfl

/-- The last label is looked for from the end. -/
theorem blamed_label (ds : List Located) (labels : List Label) :
    blamedLine ds (.danglingLabels labels) =
      ((ds.filterMap fun d => d.directive.label?.map (·, d.line)).getLast?.map Prod.snd).getD 0 := by
  simp only [blamedLine, isLabel_eq, List.getLast?_filterMap]
  congr 1
  induction ds.reverse with
  | nil => rfl
  | cons d ds ih =>
    rw [List.find?_cons, List.findSome?_cons]
    cases d.directive.label? with
    | none => exact ih
    | some l => rfl

/-- A shadowed import is blamed on the first line that declares it. -/
theorem blamed_import (ds : List Located) (l : Label) :
    blamedLine ds (.importDefinedLocally l) =
      (((ds.filterMap fun d => d.directive.import?.map (·, d.line)).find? (·.1 == l)).map
        Prod.snd).getD 0 := by
  have hsame : (fun d : Located => d.directive == .imports l) =
      fun d => (d.directive.import?.map (·, d.line)).any (·.1 == l) := by
    funext d
    cases h : d.directive <;> simp [Directive.import?]
  rw [blamedLine, List.find?_filterMap, hsame]
  cases hfind : ds.find? fun d => (d.directive.import?.map (·, d.line)).any (·.1 == l) with
  | none => rfl
  | some d =>
    have hd := List.find?_some hfind
    cases hi : d.directive.import? with
    | none => simp [hi] at hd
    | some k => simp [hi]

-- The line that a problem of the module is to be blamed on. Of the labels of the text some at the end
-- dangle, and the line is the last one with a label. Of the imports of the text the label is the first that
-- some line declares, and the line is the first that imports it.
def Blames (lines : List (List Char)) (line : Nat) : BuildError → Prop
  | .danglingLabels labels =>
    labels ≠ [] ∧ labels <:+ lines.flatMap declaredLabels ∧
      ∃ before content after, lines = before ++ content :: after ∧ line = before.length + 1 ∧
        (declaredLabels content).getLast? = labels.getLast? ∧
        ∀ later ∈ after, declaredLabels later = []
  | .importDefinedLocally l =>
    (∃ before content after, lines = before ++ content :: after ∧ line = before.length + 1 ∧
      l ∈ importedNames content ∧ ∀ earlier ∈ before, l ∉ importedNames earlier) ∧
    ∃ earlier later, lines.flatMap importedNames = earlier ++ l :: later ∧
      l ∈ lines.flatMap declaredLabels ∧ ∀ k ∈ earlier, k ∉ lines.flatMap declaredLabels
  | .malformedInstruction _ _ => False

theorem contents_labels (text : String) :
    ((contents text).map (·.directive)).filterMap (·.label?) =
      (Text.lines text.toList).flatMap declaredLabels :=
  contents_picked _ _ lineDirectives_labels text

theorem contents_imports (text : String) :
    ((contents text).map (·.directive)).filterMap (·.import?) =
      (Text.lines text.toList).flatMap importedNames :=
  contents_picked _ _ lineDirectives_imports text

theorem contents_wellFormed (text : String) :
    ∀ i ∈ ((contents text).map (·.directive)).filterMap (·.instruction?), i.isWellFormed = true := by
  intro i hi
  rw [List.filterMap_map] at hi
  obtain ⟨d, hd, hdi⟩ := List.mem_filterMap.mp hi
  obtain ⟨q, -, hq⟩ := List.mem_flatMap.mp hd
  obtain ⟨x, hx, rfl⟩ := List.mem_map.mp hq
  cases x <;> cases hdi
  exact lineDirectives_wellFormed q.2 q.1 i hx

/-- Labels at the end of all are blamed on the last line with a label. -/
theorem label_blamed (text : String) (labels : List Label) (hne : labels ≠ [])
    (hsuffix : labels <:+ (Text.lines text.toList).flatMap declaredLabels) :
    ∃ before content after, Text.lines text.toList = before ++ content :: after ∧
      blamedLine (contents text) (.danglingLabels labels) = before.length + 1 ∧
      (declaredLabels content).getLast? = labels.getLast? ∧
      ∀ later ∈ after, declaredLabels later = [] := by
  obtain ⟨front, hfront⟩ := hsuffix
  have hlast : (namesFrom declaredLabels 1 (Text.lines text.toList)).getLast?.map Prod.fst =
      labels.getLast? := by
    rw [← List.getLast?_map, namesFrom_fst, ← hfront, List.getLast?_append_of_ne_nil _ hne]
  obtain ⟨l, hl⟩ := Option.ne_none_iff_exists'.mp (mt List.getLast?_eq_none_iff.mp hne)
  obtain ⟨q, hq, rfl⟩ := Option.map_eq_some_iff.mp (hlast.trans hl)
  obtain ⟨before, content, after, hlines, hn, hcontent, hafter⟩ := namesFrom_last _ _ _ _ _ hq
  refine ⟨before, content, after, hlines, ?_, hcontent.trans hl.symm, hafter⟩
  rw [blamed_label, contents_names _ _ lineDirectives_labels, hq, Option.map_some, Option.getD_some,
    hn, Nat.add_comm]

/-- An import is blamed on the first line that has it. -/
theorem import_blamed (text : String) (l : Label)
    (h : l ∈ (Text.lines text.toList).flatMap importedNames) :
    ∃ before content after, Text.lines text.toList = before ++ content :: after ∧
      blamedLine (contents text) (.importDefinedLocally l) = before.length + 1 ∧
      l ∈ importedNames content ∧ ∀ earlier ∈ before, l ∉ importedNames earlier := by
  have hfound : ((namesFrom importedNames 1 (Text.lines text.toList)).find? (·.1 == l)).isSome := by
    rw [← namesFrom_fst importedNames 1, List.mem_map] at h
    obtain ⟨q, hq, rfl⟩ := h
    exact List.find?_isSome.mpr ⟨q, hq, beq_self_eq_true q.1⟩
  obtain ⟨q, hq⟩ := Option.isSome_iff_exists.mp hfound
  obtain ⟨before, content, after, hlines, hn, hcontent, hearlier⟩ := namesFrom_first _ _ _ _ _ hq
  refine ⟨before, content, after, hlines, ?_, hcontent, hearlier⟩
  rw [blamed_import, contents_names _ _ lineDirectives_imports, hq, Option.map_some, Option.getD_some,
    hn, Nat.add_comm]

/-- The blamed line is the one the builder's complaint is about. -/
theorem contents_blames (name text : String) (e : BuildError)
    (h : (Draft.ofDirectives name ((contents text).map (·.directive))).build = .error e) :
    Blames (Text.lines text.toList) (blamedLine (contents text) e) e := by
  cases e with
  | danglingLabels labels =>
    obtain ⟨hne, hwaiting⟩ := (ofDirectives_dangling_iff _ _ _).mp h
    have hsuffix : labels <:+ (Text.lines text.toList).flatMap declaredLabels := by
      rw [← hwaiting, ← contents_labels]
      exact awaiting_none_suffix _ _ _
    exact ⟨hne, hsuffix, label_blamed text labels hne hsuffix⟩
  | importDefinedLocally l =>
    obtain ⟨-, -, before, after, hsplit, hlabel, hbefore⟩ := (ofDirectives_shadowed_iff _ _ _).mp h
    have hdeclared (k : Label) : k ∈ (Text.lines text.toList).flatMap declaredLabels ↔
        .label k ∈ (contents text).map (·.directive) := by
      rw [← contents_labels, mem_labels]
    have himports : (Text.lines text.toList).flatMap importedNames =
        before.filterMap (·.import?) ++ l :: after.filterMap (·.import?) := by
      rw [← contents_imports, hsplit, List.filterMap_append]
      rfl
    refine ⟨import_blamed text l (by simp [himports]), _, _, himports, (hdeclared l).mpr hlabel, ?_⟩
    intro k hk
    obtain ⟨x, hx, hxk⟩ := List.mem_filterMap.mp hk
    cases x <;> cases hxk
    rw [hdeclared]
    exact hbefore k hx
  | malformedInstruction n i =>
    obtain ⟨-, before, after, hsplit, -, hbad, -⟩ := (ofDirectives_malformed_iff _ _ _ _).mp h
    have hwell := contents_wellFormed text i (by simp [hsplit])
    rw [hwell] at hbad
    contradiction

theorem blames_within (lines : List (List Char)) (line : Nat) (e : BuildError) (h : Blames lines line e) :
    1 ≤ line ∧ line ≤ lines.length := by
  cases e with
  | danglingLabels labels =>
    obtain ⟨-, -, before, content, after, rfl, rfl, -⟩ := h
    simp
  | importDefinedLocally l =>
    obtain ⟨⟨before, content, after, rfl, rfl, -⟩, -⟩ := h
    simp
  | malformedInstruction n i => exact h.elim

/-- A problem of the module as a whole is the only one that is reported, and it is blamed on a line of the text:
on the one with the last label that dangles, or on the first one that imports the first name of those that are
imported and declared. It is never about an ill-formed instruction. -/
theorem build_error_blames (name text : String) (line : Nat) (e : BuildError)
    (h : ⟨line, .build e⟩ ∈ reported (read name text)) :
    read name text = .error [⟨line, .build e⟩] ∧
    1 ≤ line ∧ line ≤ (Text.lines text.toList).length ∧
    (∀ n i, e ≠ .malformedInstruction n i) ∧
    Blames (Text.lines text.toList) line e := by
  by_cases hgood : lineErrors text = []
  · rw [read_good_text name text hgood] at h ⊢
    cases hbuild : (Draft.ofDirectives name ((contents text).map (·.directive))).build with
    | ok m =>
      rw [hbuild] at h
      contradiction
    | error e' =>
      rw [hbuild] at h
      obtain ⟨rfl, he⟩ := AssemblyError.mk.inj (List.mem_singleton.mp h)
      obtain rfl := Problem.build.inj he
      have hblames := contents_blames name text e hbuild
      obtain ⟨hpos, hle⟩ := blames_within _ _ _ hblames
      refine ⟨rfl, hpos, hle, ?_, hblames⟩
      rintro n i rfl
      exact hblames
  · -- The errors are those of lines, and no line is to blame for the module.
    rw [read_bad_lines name text hgood] at h
    obtain ⟨-, content, -, hproblem⟩ := (mem_errorsFrom 1 _ _).mp h
    exact absurd hproblem (lineProblem_ne_build content e)

/-- A text that imports two labels of its own, one of them twice, and a text with labels at its end that stand on
two lines and have an empty one between them. -/
theorem shared_and_dangling_blamed :
    ⟨2, .build (.importDefinedLocally "f")⟩ ∈
      reported (read "main" "nop\n.import g, f\nk: f: nop ; here\n.import k, f") ∧
    Blames (Text.lines "nop\n.import g, f\nk: f: nop ; here\n.import k, f".toList) 2
      (.importDefinedLocally "f") ∧
    ⟨4, .build (.danglingLabels ["b", "c", "d"])⟩ ∈ reported (read "main" "a: nop\nb: c:\n\n d :\n;") ∧
    Blames (Text.lines "a: nop\nb: c:\n\n d :\n;".toList) 4 (.danglingLabels ["b", "c", "d"]) := by
  have hshared : ⟨2, .build (.importDefinedLocally "f")⟩ ∈
      reported (read "main" "nop\n.import g, f\nk: f: nop ; here\n.import k, f") := by
    decide +kernel
  have hdangling : ⟨4, .build (.danglingLabels ["b", "c", "d"])⟩ ∈
      reported (read "main" "a: nop\nb: c:\n\n d :\n;") := by
    decide +kernel
  obtain ⟨-, -, -, -, hblames⟩ := build_error_blames _ _ _ _ hshared
  obtain ⟨-, -, -, -, hblames'⟩ := build_error_blames _ _ _ _ hdangling
  exact ⟨hshared, hblames, hdangling, hblames'⟩

end PagedMachine.Assembly
