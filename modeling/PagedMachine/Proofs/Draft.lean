import Mathlib.Data.List.Nodup
import PagedMachine.Draft

/-! What the checks at the end of a draft guarantee of the finished module, and how a module can be drafted
again: from the directives that list what it holds, up to the spans of its instructions. -/
namespace PagedMachine

theorem malformed_none_iff (m : Module) :
    m.malformed? = none ↔ ∀ i ∈ m.instructions, i.instruction.isWellFormed = true := by
  simp only [Module.malformed?, List.find?_eq_none, Bool.not_eq_true', Bool.not_eq_false]
  constructor
  · intro h i hi
    obtain ⟨n, hn⟩ := List.mem_iff_getElem?.mp hi
    exact h (i, n) (List.mk_mem_zipIdx_iff_getElem?.mpr hn)
  · intro h q hin
    obtain ⟨i, n⟩ := q
    exact h i (List.mem_of_getElem? (List.mk_mem_zipIdx_iff_getElem?.mp hin))

theorem shadowed_none_iff (m : Module) :
    m.shadowed? = none ↔ ∀ l ∈ m.imports, l ∉ m.definedLabels := by
  simp only [Module.shadowed?, List.find?_eq_none, Std.ExtTreeSet.contains_ofList,
    List.contains_iff_mem]

/-- A draft becomes a module exactly if no label waits for an item, all instructions are well formed and
no import is defined as well; the module then is what the draft says. -/
theorem build_ok_iff (d : Draft) (m : Module) :
    d.build = .ok m ↔
      d.pendingLabels = #[] ∧ (∀ i ∈ m.instructions, i.instruction.isWellFormed = true) ∧
        (∀ l ∈ m.imports, l ∉ m.definedLabels) ∧ d.contents = m := by
  rw [← malformed_none_iff, ← shadowed_none_iff]
  constructor
  · intro h
    simp only [Draft.build] at h
    split at h
    · next hpending =>
      split at h
      · contradiction
      · next hm =>
        split at h
        · contradiction
        · next hs =>
          cases h
          exact ⟨Array.isEmpty_iff.mp hpending, hm, hs, rfl⟩
    · contradiction
  · intro h
    obtain ⟨hp, hm, hs, rfl⟩ := h
    simp only [Draft.build, hp, hm, hs, Array.isEmpty_empty, ↓reduceIte]

-- A module that some sequence of directives gives rise to.
def Module.IsBuilt (m : Module) : Prop :=
  ∃ name directives, (Draft.ofDirectives name directives).build = .ok m

theorem addName_nodup (names : Array Label) (name : Label) (h : names.toList.Nodup) :
    (addName names name).toList.Nodup := by
  simp only [addName]
  split_ifs with hname
  · exact h
  · have hfresh : name ∉ names.toList := by simpa using hname
    rw [Array.toList_push]
    exact List.nodup_append_comm.mp (List.nodup_cons.mpr ⟨hfresh, h⟩)

/-- The names that a draft shares with other modules are listed once. -/
theorem add_nodup (d : Draft) (x : Directive) (h : d.imports.toList.Nodup ∧ d.exports.toList.Nodup) :
    (d.add x).imports.toList.Nodup ∧ (d.add x).exports.toList.Nodup := by
  cases x with
  | imports l => exact ⟨addName_nodup d.imports l h.1, h.2⟩
  | exports l => exact ⟨h.1, addName_nodup d.exports l h.2⟩
  | label l => exact h
  | entry => exact h
  | span s => exact h
  | instruction i => exact h
  | literal v w => exact h

theorem foldl_add_nodup (xs : List Directive) (d : Draft)
    (h : d.imports.toList.Nodup ∧ d.exports.toList.Nodup) :
    (xs.foldl Draft.add d).imports.toList.Nodup ∧ (xs.foldl Draft.add d).exports.toList.Nodup := by
  induction xs generalizing d with
  | nil => exact h
  | cons x xs ih => exact ih _ (add_nodup d x h)

/-- A built module lists each import and each export once. -/
theorem isBuilt_nodup (m : Module) (h : m.IsBuilt) : m.imports.Nodup ∧ m.exports.Nodup := by
  obtain ⟨name, directives, hbuild⟩ := h
  obtain ⟨-, -, -, rfl⟩ := (build_ok_iff _ m).mp hbuild
  exact foldl_add_nodup directives (Draft.empty name) ⟨List.nodup_nil, List.nodup_nil⟩

def LabeledInstruction.unspanned (i : LabeledInstruction) : LabeledInstruction :=
  { i with span := none }

-- A module without the spans of its instructions.
def Module.unspanned (m : Module) : Module :=
  { m with instructions := m.instructions.map (·.unspanned) }

def Draft.unspanned (d : Draft) : Draft :=
  { d with instructions := d.instructions.map (·.unspanned), pendingSpan := none }

def Directive.isSpan : Directive → Bool
  | .span _ => true
  | _ => false

theorem add_span_unspanned (d : Draft) (x : Directive) (h : x.isSpan = true) :
    (d.add x).unspanned = d.unspanned := by
  cases x with
  | span s => rfl
  | _ => contradiction

/-- Spans play no part in what a directive adds. -/
theorem add_unspanned (d : Draft) (x : Directive) (h : x.isSpan = false) :
    (d.add x).unspanned = d.unspanned.add x := by
  cases x with
  | span s => contradiction
  | instruction i => simp [Draft.unspanned, Draft.add, LabeledInstruction.unspanned]
  | _ => rfl

/-- Spans leave nothing behind but spans. -/
theorem foldl_add_unspanned (xs : List Directive) (d : Draft) :
    (xs.foldl Draft.add d).unspanned = (xs.filter (!·.isSpan)).foldl Draft.add d.unspanned := by
  induction xs generalizing d with
  | nil => rfl
  | cons x xs ih =>
    cases hx : x.isSpan with
    | true =>
      rw [List.foldl_cons, ih, add_span_unspanned d x hx, List.filter_cons_of_neg (by simp [hx])]
    | false =>
      rw [List.foldl_cons, ih, add_unspanned d x hx, List.filter_cons_of_pos (by simp [hx]),
        List.foldl_cons]

/-- Without its spans, a draft is drafted from the directives without theirs. -/
theorem ofDirectives_unspanned (name : String) (xs : List Directive) :
    (Draft.ofDirectives name xs).unspanned = Draft.ofDirectives name (xs.filter (!·.isSpan)) := by
  have hempty : (Draft.empty name).unspanned = Draft.empty name := by
    simp [Draft.empty, Draft.unspanned]
  rw [Draft.ofDirectives, foldl_add_unspanned, hempty, Draft.ofDirectives]

theorem contents_unspanned (d : Draft) : d.contents.unspanned = d.unspanned.contents := by
  simp [Draft.contents, Draft.unspanned, Module.unspanned]

theorem definedLabels_unspanned (m : Module) : m.unspanned.definedLabels = m.definedLabels := by
  simp [Module.definedLabels, Module.unspanned, LabeledInstruction.unspanned, List.flatMap_map]

-- What an instruction is drafted from: its labels come first.
def LabeledInstruction.directives (i : LabeledInstruction) : List Directive :=
  i.labels.map .label ++ [.instruction i.instruction]

def LabeledLiteral.directives (l : LabeledLiteral) : List Directive :=
  l.labels.map .label ++ [.literal l.value l.width]

-- Directives that list what a module holds, without spans.
def Module.directives (m : Module) : List Directive :=
  (if m.isEntry then [.entry] else []) ++ m.imports.map .imports ++ m.exports.map .exports
    ++ m.instructions.flatMap (·.directives) ++ m.literals.flatMap (·.directives)

theorem foldl_addName (ls : List Label) (names : Array Label) (h : (names.toList ++ ls).Nodup) :
    ls.foldl addName names = names ++ ls.toArray := by
  induction ls generalizing names with
  | nil => simp
  | cons l ls ih =>
    have hfresh : l ∉ names.toList := by
      intro hl
      exact (List.nodup_append.mp h).2.2 l hl l List.mem_cons_self rfl
    have hadd : addName names l = names.push l := by
      simpa [addName] using hfresh
    rw [List.foldl_cons, hadd, ih _ (by simpa using h)]
    simp

theorem foldl_imports (ls : List Label) (d : Draft) :
    (ls.map .imports).foldl Draft.add d = { d with imports := ls.foldl addName d.imports } := by
  induction ls generalizing d with
  | nil => rfl
  | cons l ls ih =>
    rw [List.map_cons, List.foldl_cons, ih]
    rfl

theorem foldl_exports (ls : List Label) (d : Draft) :
    (ls.map .exports).foldl Draft.add d = { d with exports := ls.foldl addName d.exports } := by
  induction ls generalizing d with
  | nil => rfl
  | cons l ls ih =>
    rw [List.map_cons, List.foldl_cons, ih]
    rfl

theorem foldl_labels (ls : List Label) (d : Draft) :
    (ls.map .label).foldl Draft.add d = { d with pendingLabels := d.pendingLabels ++ ls.toArray } := by
  induction ls generalizing d with
  | nil => simp
  | cons l ls ih =>
    rw [List.map_cons, List.foldl_cons, ih]
    simp [Draft.add]

/-- Between items nothing waits, so that each item gets its own labels and no others. -/
theorem foldl_instructions (is : List LabeledInstruction) (d : Draft) (hl : d.pendingLabels = #[])
    (hs : d.pendingSpan = none) :
    (is.flatMap (·.directives)).foldl Draft.add d =
      { d with instructions := d.instructions ++ (is.map (·.unspanned)).toArray } := by
  induction is generalizing d with
  | nil => simp
  | cons i is ih =>
    have hi : i.directives.foldl Draft.add d =
        { d with instructions := d.instructions.push i.unspanned } := by
      rw [LabeledInstruction.directives, List.foldl_append, foldl_labels]
      simp [Draft.add, hl, hs, LabeledInstruction.unspanned]
    rw [List.flatMap_cons, List.foldl_append, hi,
      ih { d with instructions := d.instructions.push i.unspanned } hl hs]
    simp

theorem foldl_literals (ls : List LabeledLiteral) (d : Draft) (hl : d.pendingLabels = #[]) :
    (ls.flatMap (·.directives)).foldl Draft.add d =
      { d with literals := d.literals ++ ls.toArray } := by
  induction ls generalizing d with
  | nil => simp
  | cons l ls ih =>
    have hadd : l.directives.foldl Draft.add d = { d with literals := d.literals.push l } := by
      rw [LabeledLiteral.directives, List.foldl_append, foldl_labels]
      simp [Draft.add, hl]
    rw [List.flatMap_cons, List.foldl_append, hadd, ih { d with literals := d.literals.push l } hl]
    simp

/-- A module that lists no name twice is what its directives say. -/
theorem ofDirectives_directives (m : Module) (hi : m.imports.Nodup) (he : m.exports.Nodup) :
    Draft.ofDirectives m.name m.directives =
      ⟨m.name, (m.instructions.map (·.unspanned)).toArray, m.literals.toArray, m.exports.toArray,
        m.imports.toArray, m.isEntry, #[], none⟩ := by
  have hentry : (if m.isEntry then [Directive.entry] else []).foldl Draft.add (Draft.empty m.name) =
      { Draft.empty m.name with isEntry := m.isEntry } := by
    cases m.isEntry <;> rfl
  have himports := foldl_addName m.imports #[] (by simpa using hi)
  have hexports := foldl_addName m.exports #[] (by simpa using he)
  rw [Draft.ofDirectives, Module.directives, List.foldl_append, List.foldl_append, List.foldl_append,
    List.foldl_append, hentry, foldl_imports, foldl_exports, foldl_instructions _ _ rfl rfl,
    foldl_literals _ _ rfl]
  simp [Draft.empty, himports, hexports]

end PagedMachine
