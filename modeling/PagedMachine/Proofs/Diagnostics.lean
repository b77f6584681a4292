import Mathlib.Data.List.Count
import Mathlib.Data.List.Nodup
import PagedMachine.Proofs.Linkage

/-! What linking reports. The problems that a module has on its own page are those it has when linked
alone, whatever modules surround it, and an import without an export is reported once for its page. -/
namespace PagedMachine

-- Whether an error is about one module on its own page.
def LinkError.isOwn : LinkError → Bool
  | .duplicateLabel _ _ | .moduleTooLarge _ | .importDefinedLocally _ _ | .undefinedExport _ _ => true
  | _ => false

-- The diagnostics of a linkage whose errors satisfy a condition, in order.
def Linkage.found (k : Linkage) (p : LinkError → Bool) : List (Diagnostic LinkError) :=
  k.diagnostics.toList.filter fun d => p d.issue

-- The complaint about an export that the module does not define, unless it may have been cut off.
def Module.exportErrors (m : Module) (lay : Layout) (l : Label) : List (Diagnostic LinkError) :=
  if lay.fits && !lay.page.labels.contains l then [⟨.undefinedExport m.name l, none⟩] else []

-- The problems that a module has on a page of its own.
def Module.ownErrors (m : Module) (id : Nat) : List (Diagnostic LinkError) :=
  m.layoutErrors (m.layOut id) ++ m.exports.flatMap (m.exportErrors (m.layOut id))

section Reports

-- Which module owns an exported label depends on all modules, so that error is left out of account.
variable (p : LinkError → Bool) (hp : ∀ l first second, p (.duplicateExport l first second) = false)

include hp

theorem addExport_found (m : Module) (lay : Layout) (k : Linkage) (l : Label) :
    (k.addExport m lay l).found p =
      k.found p ++ (m.exportErrors lay l).filter fun d => p d.issue := by
  rw [Module.exportErrors, symbolTable_contains]
  cases hd : lay.page.labels.get? l with
  | none =>
    cases hf : lay.fits <;> simp [Linkage.addExport, hd, hf, Linkage.report, Linkage.found]
  | some a =>
    cases hx : k.program.exports.get? l with
    | none =>
      obtain ⟨t, ht, -, -⟩ := insert_fresh_label k.program.exports l a hx
      simp [Linkage.addExport, hd, ht, Linkage.found]
    | some b =>
      simp [Linkage.addExport, hd, insert_bound_label _ l a b hx, Linkage.report, Linkage.found, hp]

theorem foldl_addExport_found (m : Module) (lay : Layout) (ls : List Label) (k : Linkage) :
    (ls.foldl (Linkage.addExport m lay) k).found p =
      k.found p ++ (ls.flatMap (m.exportErrors lay)).filter fun d => p d.issue := by
  induction ls generalizing k with
  | nil => simp
  | cons l ls ih =>
    rw [List.foldl_cons, ih, addExport_found p hp, List.append_assoc, ← List.filter_append,
      List.flatMap_cons]

/-- A module appends its own diagnostics to those found. -/
theorem addModule_found (k : Linkage) (q : Nat × Module) :
    (k.addModule q).found p =
      k.found p ++ (q.2.ownErrors q.1).filter fun d => p d.issue := by
  let k' : Linkage :=
    { k with diagnostics := k.diagnostics ++ q.2.layoutErrors (q.2.layOut q.1) }
  have hk' : k'.found p =
      k.found p ++ (q.2.layoutErrors (q.2.layOut q.1)).filter fun d => p d.issue := by
    simp [k', Linkage.found]
  calc (k.addModule q).found p
      _ = (q.2.exports.foldl (Linkage.addExport q.2 (q.2.layOut q.1)) k').found p := rfl
      _ = k.found p ++ (q.2.ownErrors q.1).filter fun d => p d.issue := by
        rw [foldl_addExport_found p hp, hk', List.append_assoc, ← List.filter_append]
        rfl

/-- Modules append their own diagnostics one after another. -/
theorem foldl_addModule_found (qs : List (Nat × Module)) (k : Linkage) :
    (qs.foldl Linkage.addModule k).found p =
      k.found p ++ (qs.flatMap fun q => q.2.ownErrors q.1).filter fun d => p d.issue := by
  induction qs generalizing k with
  | nil => simp
  | cons q qs ih =>
    rw [List.foldl_cons, ih, addModule_found p hp, List.append_assoc, ← List.filter_append,
      List.flatMap_cons]

end Reports

theorem foldl_report_found (p : LinkError → Bool) (es : List LinkError) (k : Linkage) :
    (es.foldl Linkage.report k).found p = k.found p ++ (es.filter p).map (⟨·, none⟩) := by
  induction es generalizing k with
  | nil => simp
  | cons e es ih =>
    rw [List.foldl_cons, ih]
    cases he : p e <;> simp [Linkage.found, Linkage.report, he]

/-- Up to shared exports, linking reports what is wrong with the list of modules, then with each module on
its page, and then the imports that nothing satisfies. -/
theorem link_found (p : LinkError → Bool)
    (hp : ∀ l first second, p (.duplicateExport l first second) = false) (modules : List Module) :
    (link modules).found p =
      ((assignmentErrors modules).filter p).map (⟨·, none⟩) ++
        ((assignPages modules).flatMap fun q => q.2.ownErrors q.1).filter (fun d => p d.issue) ++
        ((link modules).program.unresolvedImports.filter p).map (⟨·, none⟩) := by
  have hstart : (⟨.empty, ((assignmentErrors modules).map (⟨·, none⟩)).toArray⟩ : Linkage).found p =
      ((assignmentErrors modules).filter p).map (⟨·, none⟩) := by
    simp [Linkage.found, List.filter_map, Function.comp_def]
  have hlink : link modules =
      (placed modules).program.unresolvedImports.foldl Linkage.report (placed modules) := rfl
  rw [link_program, hlink, foldl_report_found, placed, foldl_addModule_found p hp, hstart]

-- A definition without its address.
def Definition.source (d : Definition) : Label × Option Span :=
  (d.label, d.span)

theorem placeFrom_moved (base base' : Address) (offset : Nat) (ls : List LabeledLiteral) :
    (placeFrom base offset ls).1.map Prod.fst = (placeFrom base' offset ls).1.map Prod.fst := by
  induction ls generalizing offset with
  | nil => rfl
  | cons l ls ih =>
    simp only [placeFrom]
    split_ifs
    · rw [List.map_cons, List.map_cons, ih]
    · rfl

theorem definitions_source (is : List (LabeledInstruction × Address))
    (ls : List (LabeledLiteral × Address)) :
    (definitions is ls).map Definition.source =
      ((is.map Prod.fst).flatMap fun i => i.labels.map (·, i.span)) ++
        (ls.map Prod.fst).flatMap fun l => l.labels.map (·, none) := by
  simp only [definitions, List.map_append, List.map_flatMap, List.map_map, List.flatMap_map,
    Function.comp_def, Definition.source]

/-- A page's number moves its definitions, but adds and loses none. -/
theorem placedDefinitions_source (m : Module) (id id' : Nat) :
    (m.placedDefinitions id).map Definition.source =
      (m.placedDefinitions id').map Definition.source := by
  have hinstructions : (m.placeInstructions (pageBase id)).map Prod.fst =
      (m.placeInstructions (pageBase id')).map Prod.fst := by
    simp only [Module.placeInstructions, List.map_map, Function.comp_def]
  have hliterals : (m.placeLiterals (pageBase id)).1.map Prod.fst =
      (m.placeLiterals (pageBase id')).1.map Prod.fst := by
    simp only [Module.placeLiterals]
    split_ifs
    · exact placeFrom_moved _ _ _ _
    · rfl
  rw [Module.placedDefinitions, Module.placedDefinitions, definitions_source, definitions_source,
    hinstructions, hliterals]

/-- Which definitions come too late is a matter of their labels, not of their addresses. -/
theorem foldl_define_source (ds ds' : List Definition) (s s' : SymbolTable × Array Definition)
    (hds : ds.map Definition.source = ds'.map Definition.source)
    (ht : ∀ l, (s.1.get? l).isSome = (s'.1.get? l).isSome)
    (hs : s.2.toList.map Definition.source = s'.2.toList.map Definition.source) :
    (ds.foldl define s).2.toList.map Definition.source =
      (ds'.foldl define s').2.toList.map Definition.source := by
  induction ds generalizing ds' s s' with
  | nil =>
    rw [List.map_nil] at hds
    rw [List.map_eq_nil_iff.mp hds.symm]
    exact hs
  | cons d ds ih =>
    obtain ⟨d', ds', rfl, hd, hds⟩ := List.map_eq_cons_iff.mp hds.symm
    have hlabel : d'.label = d.label := congrArg Prod.fst hd
    -- Both tables bind the same labels, so that a label comes late for both or for neither.
    have hbound := ht d.label
    rw [List.foldl_cons, List.foldl_cons]
    cases hg : s.1.get? d.label with
    | some a =>
      rw [hg, Option.isSome_some] at hbound
      obtain ⟨a', hg'⟩ := Option.isSome_iff_exists.mp hbound.symm
      have hstep : define s d = (s.1, s.2.push d) := by
        simp only [define, insert_bound_label s.1 d.label d.address a hg]
      have hstep' : define s' d' = (s'.1, s'.2.push d') := by
        simp only [define, hlabel, insert_bound_label s'.1 d.label d'.address a' hg']
      apply ih _ _ _ hds.symm
      · simpa only [hstep, hstep'] using ht
      · simp only [hstep, hstep', Array.toList_push, List.map_append, List.map_singleton, hs, hd]
    | none =>
      rw [hg, Option.isSome_none] at hbound
      have hg' := Option.isSome_eq_false_iff.mp hbound.symm
      obtain ⟨t, hins, hget, -⟩ := insert_fresh_label s.1 d.label d.address hg
      obtain ⟨t', hins', hget', -⟩ :=
        insert_fresh_label s'.1 d.label d'.address (Option.isNone_iff_eq_none.mp hg')
      have hstep : define s d = (t, s.2) := by simp only [define, hins]
      have hstep' : define s' d' = (t', s'.2) := by simp only [define, hlabel, hins']
      apply ih _ _ _ hds.symm
      · intro l
        simp only [hstep, hstep', hget, hget']
        split_ifs
        · rfl
        · exact ht l
      · simpa only [hstep, hstep'] using hs

/-- Which definitions are duplicates does not depend on the page. -/
theorem layOut_duplicates_source (m : Module) (id id' : Nat) :
    (m.layOut id).duplicates.map Definition.source =
      (m.layOut id').duplicates.map Definition.source :=
  foldl_define_source _ _ (.empty, #[]) (.empty, #[]) (placedDefinitions_source m id id')
    (fun _ => rfl) rfl

theorem layOut_contains (m : Module) (id : Nat) (l : Label) :
    (m.layOut id).page.labels.contains l = true ↔
      l ∈ ((m.placedDefinitions id).map Definition.source).map Prod.fst := by
  have hlabels : ((m.placedDefinitions id).map Definition.source).map Prod.fst =
      (m.placements id).flatMap Prod.fst := by
    rw [← labels_placedDefinitions, List.map_map]
    rfl
  rw [hlabels, symbolTable_contains, layOut_labels_get, Module.address?, Option.isSome_map,
    List.find?_isSome, List.mem_flatMap]
  simp only [decide_eq_true_eq]

/-- A module has the same problems on every page. -/
theorem ownErrors_moved (m : Module) (id id' : Nat) : m.ownErrors id = m.ownErrors id' := by
  have hfits : (m.layOut id).fits = (m.layOut id').fits := by
    rw [Bool.eq_iff_iff, layOut_fits, layOut_fits]
  have hcontains : (m.layOut id).page.labels.contains = (m.layOut id').page.labels.contains := by
    funext l
    rw [Bool.eq_iff_iff, layOut_contains, layOut_contains, placedDefinitions_source m id id']
  have hduplicates :
      ((m.layOut id).duplicates.map fun d => (⟨.duplicateLabel m.name d.label, d.span⟩ :
        Diagnostic LinkError)) =
      (m.layOut id').duplicates.map fun d => ⟨.duplicateLabel m.name d.label, d.span⟩ := by
    have h := congrArg
      (List.map fun q => (⟨.duplicateLabel m.name q.1, q.2⟩ : Diagnostic LinkError))
      (layOut_duplicates_source m id id')
    rw [List.map_map, List.map_map] at h
    exact h
  have hexports : m.exportErrors (m.layOut id) = m.exportErrors (m.layOut id') := by
    funext l
    rw [Module.exportErrors, Module.exportErrors, hfits, hcontains]
  rw [Module.ownErrors, Module.ownErrors, Module.layoutErrors, Module.layoutErrors, hduplicates,
    hfits, hcontains, hexports]

/-- What a module reports of itself is of its own kind. -/
theorem ownErrors_isOwn (m : Module) (id : Nat) : ∀ d ∈ m.ownErrors id, d.issue.isOwn = true := by
  intro d hd
  simp only [Module.ownErrors, Module.layoutErrors, Module.exportErrors, List.mem_append,
    List.mem_map, List.mem_flatMap] at hd
  rcases hd with ((⟨_, -, rfl⟩ | hd) | ⟨_, -, rfl⟩) | ⟨l, -, hd⟩
  · rfl
  · split_ifs at hd
    · simp at hd
    · rw [List.mem_singleton.mp hd]
      rfl
  · rfl
  · split_ifs at hd
    · rw [List.mem_singleton.mp hd]
      rfl
    · simp at hd

theorem assignmentErrors_cases (modules : List Module) : ∀ e ∈ assignmentErrors modules,
    e = .noEntryPoint ∨ (∃ names, e = .multipleEntryPoints names) ∨ e = .tooManyModules := by
  intro e he
  simp only [assignmentErrors, List.mem_append] at he
  rcases he with he | he
  · split at he
    · exact Or.inl (List.mem_singleton.mp he)
    · simp at he
    · exact Or.inr (Or.inl ⟨_, List.mem_singleton.mp he⟩)
  · split_ifs at he
    · simp at he
    · exact Or.inr (Or.inr (List.mem_singleton.mp he))

theorem unresolvedImports_cases (p : Program) : ∀ e ∈ p.unresolvedImports,
    ∃ owner l, e = .unresolvedImport owner l := by
  intro e he
  obtain ⟨page, -, hpage⟩ := List.mem_flatMap.mp he
  obtain ⟨l, -, rfl⟩ := List.mem_map.mp hpage
  exact ⟨page.name, l, rfl⟩

/-- The modules' own diagnostics are found in the order of their pages. -/
theorem link_own (modules : List Module) :
    (link modules).found LinkError.isOwn = (assignPages modules).flatMap fun q => q.2.ownErrors q.1 := by
  have hassignment : (assignmentErrors modules).filter LinkError.isOwn = [] := by
    rw [List.filter_eq_nil_iff]
    intro e he
    rcases assignmentErrors_cases modules e he with rfl | ⟨names, rfl⟩ | rfl <;> simp [LinkError.isOwn]
  have himports : (link modules).program.unresolvedImports.filter LinkError.isOwn = [] := by
    rw [List.filter_eq_nil_iff]
    intro e he
    obtain ⟨owner, l, rfl⟩ := unresolvedImports_cases _ e he
    simp [LinkError.isOwn]
  have hown : ((assignPages modules).flatMap fun q => q.2.ownErrors q.1).filter
      (fun d => d.issue.isOwn) = (assignPages modules).flatMap fun q => q.2.ownErrors q.1 := by
    rw [List.filter_eq_self]
    intro d hd
    obtain ⟨q, -, hq⟩ := List.mem_flatMap.mp hd
    exact ownErrors_isOwn q.2 q.1 d hq
  rw [link_found LinkError.isOwn (fun _ _ _ => rfl), hassignment, himports, hown]
  simp

/-- A module linked alone reports what it reports on any page. -/
theorem link_alone (m : Module) (id : Nat) : (link [m]).found LinkError.isOwn = m.ownErrors id := by
  have hmax : maxPage = 32702 := by decide
  rw [link_own]
  -- Alone, an entry point gets page 0 and any other module page 1.
  cases he : m.isEntry with
  | true =>
    have hpages : assignPages [m] = [(0, m)] := by simp [assignPages, he]
    rw [hpages, List.flatMap_singleton]
    exact ownErrors_moved m 0 id
  | false =>
    have hpages : assignPages [m] = [(1, m)] := by simp [assignPages, he, hmax]
    rw [hpages, List.flatMap_singleton]
    exact ownErrors_moved m 1 id

/-- A page reports a label once if it has to, however often the module imports it. -/
theorem count_page_unresolved (exports : SymbolTable) (page : Page) (owner : String) (l : Label) :
    ((page.imports.toList.filter fun l => !page.labels.contains l && !exports.contains l).map
        (LinkError.unresolvedImport page.name ·)).count (.unresolvedImport owner l) =
      if page.name = owner ∧ page.imports.contains l = true ∧ page.labels.get? l = none ∧
        exports.get? l = none then 1 else 0 := by
  have hnodup : page.imports.toList.Nodup := by
    apply Std.ExtTreeSet.distinct_toList.imp
    intro a b hne he
    exact hne (Std.compare_eq_iff_eq.mpr he)
  by_cases hname : page.name = owner
  · subst hname
    -- The imports are a set, and so there is at most one report for a label.
    have hinj : Function.Injective (LinkError.unresolvedImport page.name) := fun _ _ h => by
      cases h
      rfl
    rw [List.count_map_of_injective _ _ hinj, (hnodup.filter _).count]
    simp [List.mem_filter, Std.ExtTreeSet.mem_toList]
  · have hother : LinkError.unresolvedImport owner l ∉
        (page.imports.toList.filter fun l => !page.labels.contains l && !exports.contains l).map
          (LinkError.unresolvedImport page.name ·) := by
      intro h
      obtain ⟨k, -, hk⟩ := List.mem_map.mp h
      cases hk
      exact hname rfl
    rw [List.count_eq_zero_of_not_mem hother, if_neg fun h => hname h.1]

/-- An unresolved import is reported once for each page of that name that misses it. -/
theorem count_unresolvedImports (p : Program) (owner : String) (l : Label) :
    p.unresolvedImports.count (.unresolvedImport owner l) =
      p.pages.countP fun page => page.name = owner ∧ page.imports.contains l = true ∧
        page.labels.get? l = none ∧ p.exports.get? l = none := by
  rw [Program.unresolvedImports]
  induction p.pages with
  | nil => rfl
  | cons page pages ih =>
    rw [List.flatMap_cons, List.count_append, count_page_unresolved, ih, List.countP_cons, Nat.add_comm]
    simp only [decide_eq_true_eq]

theorem count_link_unresolved (modules : List Module) (owner : String) (l : Label) :
    ((link modules).diagnostics.toList.map (·.issue)).count (.unresolvedImport owner l) =
      (link modules).program.unresolvedImports.count (.unresolvedImport owner l) := by
  let p : LinkError → Bool := (· == .unresolvedImport owner l)
  have hcount : ((link modules).diagnostics.toList.map (·.issue)).count (.unresolvedImport owner l) =
      ((link modules).found p).length := by
    rw [List.count, List.countP_map, List.countP_eq_length_filter]
    rfl
  have hassignment : (assignmentErrors modules).filter p = [] := by
    rw [List.filter_eq_nil_iff]
    intro e he
    rcases assignmentErrors_cases modules e he with rfl | ⟨names, rfl⟩ | rfl <;> simp [p]
  -- Neither the earlier checks report an import nor does the layout of a page.
  have hown : ((assignPages modules).flatMap fun q => q.2.ownErrors q.1).filter
      (fun d => p d.issue) = [] := by
    rw [List.filter_eq_nil_iff]
    intro d hd hp
    obtain ⟨q, -, hq⟩ := List.mem_flatMap.mp hd
    have hisOwn := ownErrors_isOwn q.2 q.1 d hq
    rw [beq_iff_eq.mp hp] at hisOwn
    cases hisOwn
  rw [hcount, link_found p (fun _ _ _ => beq_eq_false_iff_ne.mpr LinkError.noConfusion), hassignment,
    hown, List.count, List.countP_eq_length_filter]
  simp [p]

/-- No problem hides another. What linking has to say about a module's own page is what it says of the
module alone, one module after the other in the order of pages; and an import is reported exactly once
for each page that imports it, has no place that carries it, and finds it among no exports. -/
theorem link_reports_unmasked (modules : List Module) :
    (link modules).found LinkError.isOwn =
      ((assignPages modules).flatMap fun q => (link [q.2]).found LinkError.isOwn) ∧
    ∀ owner l,
      ((link modules).diagnostics.toList.map (·.issue)).count (.unresolvedImport owner l) =
        (assignPages modules).countP fun q => q.2.name = owner ∧ l ∈ q.2.imports ∧
          q.2.address? q.1 l = none ∧ (link modules).program.exports.get? l = none := by
  refine ⟨?_, ?_⟩
  · rw [link_own]
    apply List.flatMap_congr
    intro q _
    exact (link_alone q.2 q.1).symm
  · intro owner l
    rw [count_link_unresolved, count_unresolvedImports, link_pages, List.countP_map]
    apply List.countP_congr
    intro q _
    simp only [Function.comp_apply, decide_eq_true_eq, layOut_imports_contains, layOut_labels_get]
    rfl

end PagedMachine
