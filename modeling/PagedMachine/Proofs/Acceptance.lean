import Mathlib.Data.List.Perm.Basic
import PagedMachine.Proofs.Resolution

/-! Which lists of modules link without a problem. Every loop of the linker reports nothing exactly under
a condition on the modules it has seen; together the conditions say when a program may be run. -/
namespace PagedMachine

-- What a module can do on its own part for a program without problems.
structure Module.Tidy (m : Module) : Prop where
  -- Instructions and literals end on the page.
  fits : m.extent ≤ pageSize
  labels_nodup : m.definedLabels.Nodup
  imports_foreign : ∀ l ∈ m.imports, l ∉ m.definedLabels
  exports_defined : ∀ l ∈ m.exports, l ∈ m.definedLabels

-- The conditions under which linking has nothing to report.
structure Linkable (modules : List Module) : Prop where
  one_entry : modules.countP (·.isEntry) = 1
  enough_pages : modules.length ≤ maxPage + 1
  tidy : ∀ m ∈ modules, m.Tidy
  exports_nodup : (modules.flatMap (·.exports)).Nodup
  imports_exported : ∀ m ∈ modules, ∀ l ∈ m.imports, ∃ m' ∈ modules, l ∈ m'.exports

/-- A layout reports nothing exactly for a module that fits and names each label once. -/
theorem layoutErrors_nil (m : Module) (id : Nat) :
    m.layoutErrors (m.layOut id) = [] ↔
      m.extent ≤ pageSize ∧ m.definedLabels.Nodup ∧ ∀ l ∈ m.imports, l ∉ m.definedLabels := by
  have hfit : (if (m.layOut id).fits then [] else [(⟨.moduleTooLarge m.name, none⟩ :
      Diagnostic LinkError)]) = [] ↔ m.extent ≤ pageSize := by
    rw [← layOut_fits m id]
    split_ifs with h <;> simp [h]
  simp only [Module.layoutErrors, List.append_eq_nil_iff, List.map_eq_nil_iff, hfit]
  -- Duplicates and imports are looked up among the placed labels; in a module that fits these are all.
  constructor
  · intro h
    obtain ⟨⟨hd, he⟩, hi⟩ := h
    refine ⟨he, (layOut_duplicates m id he).mp hd, ?_⟩
    intro l hl hdef
    have hs := (address_isSome m id l he).mpr hdef
    rw [← layOut_labels_get, ← symbolTable_contains] at hs
    exact List.filter_eq_nil_iff.mp hi l hl hs
  · intro h
    obtain ⟨he, hd, hi⟩ := h
    refine ⟨⟨(layOut_duplicates m id he).mpr hd, he⟩, List.filter_eq_nil_iff.mpr ?_⟩
    intro l hl hs
    rw [symbolTable_contains, layOut_labels_get] at hs
    exact hi l hl ((address_isSome m id l he).mp hs)

theorem addExport_keeps (m : Module) (lay : Layout) (k : Linkage) (l : Label)
    (h : (k.addExport m lay l).diagnostics = #[]) : k.diagnostics = #[] := by
  simp only [Linkage.addExport, Linkage.report] at h
  split at h
  · split_ifs at h
    · simp at h
    · exact h
  · split at h
    · exact h
    · simp at h

theorem foldl_addExport_keeps (m : Module) (lay : Layout) (ls : List Label) (k : Linkage)
    (h : (ls.foldl (Linkage.addExport m lay) k).diagnostics = #[]) : k.diagnostics = #[] := by
  induction ls generalizing k with
  | nil => exact h
  | cons l ls ih => exact addExport_keeps m lay k l (ih _ h)

/-- The exports of a module that fits cause no report exactly if they are defined, pairwise different and
new to the table. -/
theorem foldl_addExport_clean (m : Module) (lay : Layout) (hf : lay.fits = true) (ls : List Label)
    (k : Linkage) :
    (ls.foldl (Linkage.addExport m lay) k).diagnostics = #[] ↔
      k.diagnostics = #[] ∧ (∀ l ∈ ls, (lay.page.labels.get? l).isSome = true) ∧ ls.Nodup ∧
        ∀ l ∈ ls, k.program.exports.get? l = none := by
  induction ls generalizing k with
  | nil => simp
  | cons l ls ih =>
    rw [List.foldl_cons]
    simp only [List.forall_mem_cons, List.nodup_cons]
    cases hd : lay.page.labels.get? l with
    | none =>
      have hk : (k.addExport m lay l).diagnostics ≠ #[] := by
        simp [Linkage.addExport, hd, hf, Linkage.report]
      refine ⟨fun h => absurd (foldl_addExport_keeps m lay ls _ h) hk, ?_⟩
      intro h
      obtain ⟨-, ⟨hs, -⟩, -⟩ := h
      simp at hs
    | some a =>
      cases hx : k.program.exports.get? l with
      | some b =>
        have hk : (k.addExport m lay l).diagnostics ≠ #[] := by
          simp [Linkage.addExport, hd, insert_bound_label _ l a b hx, Linkage.report]
        refine ⟨fun h => absurd (foldl_addExport_keeps m lay ls _ h) hk, ?_⟩
        intro h
        obtain ⟨-, -, -, hn, -⟩ := h
        simp at hn
      | none =>
        -- Only this branch goes on; the label joins the table, and the rest must avoid it.
        obtain ⟨t, ht, hget, -⟩ := insert_fresh_label k.program.exports l a hx
        have hk : k.addExport m lay l = { k with program := { k.program with exports := t } } := by
          simp only [Linkage.addExport, hd, ht]
        have hfresh := fresh_after_insert k.program.exports t l a ls hget
        rw [ih, hk, hfresh]
        simp only [Option.isSome_some, true_and]
        tauto

/-- A module leaves a clean linkage clean exactly when it is tidy and its exports are new and
listed once. -/
theorem addModule_clean (k : Linkage) (q : Nat × Module) :
    (k.addModule q).diagnostics = #[] ↔
      k.diagnostics = #[] ∧ q.2.Tidy ∧ q.2.exports.Nodup ∧
        ∀ l ∈ q.2.exports, k.program.exports.get? l = none := by
  obtain ⟨id, m⟩ := q
  let k' : Linkage := { k with diagnostics := k.diagnostics ++ m.layoutErrors (m.layOut id) }
  have hk' : k'.diagnostics = #[] ↔ k.diagnostics = #[] ∧ m.layoutErrors (m.layOut id) = [] := by
    simp [k', ← Array.toList_eq_nil_iff]
  change (m.exports.foldl (Linkage.addExport m (m.layOut id)) k').diagnostics = #[] ↔ _
  constructor
  · intro h
    obtain ⟨hk, hl⟩ := hk'.mp (foldl_addExport_keeps m _ _ k' h)
    obtain ⟨he, hd, hi⟩ := (layoutErrors_nil m id).mp hl
    obtain ⟨-, hx, hn, hfresh⟩ :=
      (foldl_addExport_clean m _ ((layOut_fits m id).mpr he) m.exports k').mp h
    refine ⟨hk, ⟨he, hd, hi, ?_⟩, hn, hfresh⟩
    intro l hl
    have hs := hx l hl
    rw [layOut_labels_get] at hs
    exact (address_isSome m id l he).mp hs
  · intro h
    obtain ⟨hk, ⟨he, hd, hi, hx⟩, hn, hfresh⟩ := h
    apply (foldl_addExport_clean m _ ((layOut_fits m id).mpr he) m.exports k').mpr
    refine ⟨hk'.mpr ⟨hk, (layoutErrors_nil m id).mpr ⟨he, hd, hi⟩⟩, ?_, hn, hfresh⟩
    intro l hl
    rw [layOut_labels_get]
    exact (address_isSome m id l he).mpr (hx l hl)

/-- A tidy module exports what it defines, so exactly its exports are new in the table. -/
theorem addModule_exports_none (k : Linkage) (q : Nat × Module) (hq : q.2.Tidy) (l : Label) :
    (k.addModule q).program.exports.get? l = none ↔
      k.program.exports.get? l = none ∧ l ∉ q.2.exports := by
  have hx : exportOf? l q = none ↔ l ∉ q.2.exports := by
    simp only [exportOf?]
    split_ifs with hl
    · have hs := (address_isSome q.2 q.1 l hq.fits).mpr (hq.exports_defined l hl)
      simp only [hl, not_true_eq_false, iff_false]
      exact Option.isSome_iff_ne_none.mp hs
    · simp only [hl, not_false_eq_true]
  rw [addModule_exports_get, Option.or_eq_none_iff, hx]

/-- Modules leave a clean linkage clean exactly when each is tidy and each export is new when it
is made. -/
theorem foldl_addModule_clean (qs : List (Nat × Module)) (k : Linkage) :
    (qs.foldl Linkage.addModule k).diagnostics = #[] ↔
      k.diagnostics = #[] ∧ (∀ q ∈ qs, q.2.Tidy) ∧ (qs.flatMap (·.2.exports)).Nodup ∧
        ∀ l ∈ qs.flatMap (·.2.exports), k.program.exports.get? l = none := by
  induction qs generalizing k with
  | nil => simp
  | cons q qs ih =>
    rw [List.foldl_cons, ih, addModule_clean, List.flatMap_cons, List.nodup_append]
    simp only [List.forall_mem_cons, List.mem_append]
    -- The table after the first module refuses its exports, which is what keeps the rest apart.
    constructor
    · intro h
      obtain ⟨⟨hk, hq, hn, hfresh⟩, hqs, hns, hrest⟩ := h
      have hnone (l : Label) (hl : l ∈ qs.flatMap (·.2.exports)) :
          k.program.exports.get? l = none ∧ l ∉ q.2.exports :=
        (addModule_exports_none k q hq l).mp (hrest l hl)
      refine ⟨hk, ⟨hq, hqs⟩, ⟨hn, hns, ?_⟩, ?_⟩
      · intro l hl l' hl' he
        subst he
        exact (hnone l hl').2 hl
      · intro l hl
        rcases hl with hl | hl
        · exact hfresh l hl
        · exact (hnone l hl).1
    · intro h
      obtain ⟨hk, ⟨hq, hqs⟩, ⟨hn, hns, hdisj⟩, hfresh⟩ := h
      refine ⟨⟨hk, hq, hn, fun l hl => hfresh l (Or.inl hl)⟩, hqs, hns, ?_⟩
      intro l hl
      apply (addModule_exports_none k q hq l).mpr
      exact ⟨hfresh l (Or.inr hl), fun hl' => hdisj l hl' l hl rfl⟩

/-- Taking the entry module out and putting it first loses no module. -/
theorem find_append_eraseP_perm (p : Module → Bool) (ms : List Module) :
    ((ms.find? p).toList ++ ms.eraseP p).Perm ms := by
  induction ms with
  | nil => exact List.Perm.refl _
  | cons m ms ih =>
    cases hp : p m with
    | true => simp [hp]
    | false =>
      rw [List.find?_cons_of_neg (by simp [hp]), List.eraseP_cons_of_neg (by simp [hp])]
      exact List.perm_middle.trans (ih.cons m)

/-- With enough pages, every module gets exactly one. -/
theorem assignPages_perm (modules : List Module)
    (h : (modules.eraseP (·.isEntry)).length ≤ maxPage) :
    ((assignPages modules).map Prod.snd).Perm modules := by
  have hsnd : (assignPages modules).map Prod.snd =
      (modules.find? (·.isEntry)).toList ++ modules.eraseP (·.isEntry) := by
    simp only [assignPages, List.map_append, List.map_map, Function.comp_def, List.map_id',
      List.take_of_length_le h]
    congr 1
    exact List.zipIdx_map_fst 1 _
  rw [hsnd]
  exact find_append_eraseP_perm _ _

theorem others_le_maxPage_iff (modules : List Module) (h : modules.countP (·.isEntry) = 1) :
    (modules.eraseP (·.isEntry)).length ≤ maxPage ↔ modules.length ≤ maxPage + 1 := by
  have hpos : 0 < modules.countP (·.isEntry) := by omega
  obtain ⟨m, hm, he⟩ := List.countP_pos_iff.mp hpos
  have hlen : (modules.eraseP (·.isEntry)).length = modules.length - 1 :=
    List.length_eraseP_of_mem hm he
  omega

theorem moduleOn_of_mem (modules : List Module) (m : Module)
    (hone : modules.countP (·.isEntry) = 1) (hlen : modules.length ≤ maxPage + 1)
    (hm : m ∈ modules) : ∃ id, moduleOn? modules id = some m := by
  have hp := (others_le_maxPage_iff modules hone).mpr hlen
  have hmem := (assignPages_perm modules hp).mem_iff.mpr hm
  obtain ⟨⟨id, m'⟩, hq, rfl⟩ := List.mem_map.mp hmem
  exact ⟨id, (mem_assignPages modules id m').mp hq⟩

/-- The assignment of pages succeeds exactly with one entry module and enough pages for the
others. -/
theorem assignmentErrors_nil (modules : List Module) :
    assignmentErrors modules = [] ↔
      modules.countP (·.isEntry) = 1 ∧ (modules.eraseP (·.isEntry)).length ≤ maxPage := by
  simp only [assignmentErrors, List.append_eq_nil_iff, List.countP_eq_length_filter]
  have hpages : (if (modules.eraseP (·.isEntry)).length ≤ maxPage then []
      else [LinkError.tooManyModules]) = [] ↔ (modules.eraseP (·.isEntry)).length ≤ maxPage := by
    split_ifs with h <;> simp [h]
  rw [hpages]
  generalize modules.filter (·.isEntry) = es
  rcases es with _ | ⟨m, _ | ⟨m', ms⟩⟩ <;> simp

/-- The loop over the pages reports nothing exactly if the modules are tidy and share no export. -/
theorem placed_clean (modules : List Module) :
    (placed modules).diagnostics = #[] ↔
      modules.countP (·.isEntry) = 1 ∧ modules.length ≤ maxPage + 1 ∧ (∀ m ∈ modules, m.Tidy) ∧
        (modules.flatMap (·.exports)).Nodup := by
  have hstart : ((assignmentErrors modules).map fun e =>
      (⟨e, none⟩ : Diagnostic LinkError)).toArray = #[] ↔ assignmentErrors modules = [] := by simp
  have htable (l : Label) : Program.empty.exports.get? l = none := symbolTable_get_empty l
  rw [placed, foldl_addModule_clean, hstart, assignmentErrors_nil]
  simp only [htable, implies_true, and_true]
  -- Both sides bound the number of modules, and within the bound pages are only a reordering.
  have hperm (hp : (modules.eraseP (·.isEntry)).length ≤ maxPage) :
      ((∀ q ∈ assignPages modules, q.2.Tidy) ↔ ∀ m ∈ modules, m.Tidy) ∧
      (((assignPages modules).flatMap (·.2.exports)).Nodup ↔
        (modules.flatMap (·.exports)).Nodup) := by
    have h := assignPages_perm modules hp
    refine ⟨?_, ?_⟩
    · rw [← List.forall_mem_map (P := Module.Tidy)]
      exact forall_congr' fun m => imp_congr_left h.mem_iff
    · rw [← List.flatMap_map]
      exact (h.flatMap_right _).nodup_iff
  constructor
  · intro h
    obtain ⟨⟨hone, hp⟩, htidy, hn⟩ := h
    have hlen := (others_le_maxPage_iff modules hone).mp hp
    exact ⟨hone, hlen, (hperm hp).1.mp htidy, (hperm hp).2.mp hn⟩
  · intro h
    obtain ⟨hone, hlen, htidy, hn⟩ := h
    have hp := (others_le_maxPage_iff modules hone).mpr hlen
    exact ⟨⟨hone, hp⟩, (hperm hp).1.mpr htidy, (hperm hp).2.mpr hn⟩

theorem foldl_report_clean (es : List LinkError) (k : Linkage) :
    (es.foldl Linkage.report k).diagnostics = #[] ↔ k.diagnostics = #[] ∧ es = [] := by
  induction es generalizing k with
  | nil => simp
  | cons e es ih =>
    rw [List.foldl_cons, ih]
    simp [Linkage.report]

theorem link_clean (modules : List Module) :
    (link modules).diagnostics = #[] ↔
      (placed modules).diagnostics = #[] ∧ (link modules).program.unresolvedImports = [] := by
  rw [link_program]
  exact foldl_report_clean _ _

theorem mem_pages (p : Program) (page : Page) : page ∈ p.pages ↔ ∃ id, p.page? id = some page := by
  simp only [Program.pages, List.mem_append, Option.mem_toList, Array.mem_toList_iff]
  constructor
  · intro h
    rcases h with h | h
    · exact ⟨0, h⟩
    · obtain ⟨n, hn⟩ := Array.mem_iff_getElem?.mp h
      exact ⟨n + 1, hn⟩
  · intro h
    obtain ⟨id, h⟩ := h
    cases id with
    | zero => exact Or.inl h
    | succ n => exact Or.inr (Array.mem_of_getElem? h)

/-- Nothing is unresolved exactly when each import is defined on its page or exported. -/
theorem unresolvedImports_nil (p : Program) :
    p.unresolvedImports = [] ↔
      ∀ id page l, p.page? id = some page → page.imports.contains l = true →
        (page.labels.get? l).isSome = true ∨ (p.exports.get? l).isSome = true := by
  simp only [Program.unresolvedImports, List.flatMap_eq_nil_iff, mem_pages, List.map_eq_nil_iff,
    List.filter_eq_nil_iff, Std.ExtTreeSet.mem_toList, symbolTable_contains]
  constructor
  · intro h id page l hp hl
    have hn := h page ⟨id, hp⟩ l hl
    simp only [Bool.and_eq_true, Bool.not_eq_true', not_and_or, Bool.not_eq_false] at hn
    exact hn
  · intro h page hpage l hl hn
    obtain ⟨id, hp⟩ := hpage
    simp only [Bool.and_eq_true, Bool.not_eq_true'] at hn
    rcases h id page l hp hl with hs | hs
    · simp [hn.1] at hs
    · simp [hn.2] at hs

theorem link_unresolvedImports_nil (modules : List Module) :
    (link modules).program.unresolvedImports = [] ↔
      ∀ id m l, moduleOn? modules id = some m → l ∈ m.imports →
        (m.address? id l).isSome = true ∨ (exportedAddress? modules l).isSome = true := by
  rw [unresolvedImports_nil]
  simp only [link_page, link_exports_get, Option.map_eq_some_iff]
  constructor
  · intro h id m l hm hl
    have hs := h id _ l ⟨m, hm, rfl⟩ ((layOut_imports_contains m id l).mpr hl)
    rwa [layOut_labels_get] at hs
  · intro h id page l hpage hl
    obtain ⟨m, hm, rfl⟩ := hpage
    rw [layOut_labels_get]
    exact h id m l hm ((layOut_imports_contains m id l).mp hl)

/-- A tidy module exports an address for every name it lists. -/
theorem exportedAddress_isSome (modules : List Module) (l : Label) (id : Nat) (m : Module)
    (hm : moduleOn? modules id = some m) (ht : m.Tidy) (hl : l ∈ m.exports) :
    (exportedAddress? modules l).isSome = true := by
  rw [exportedAddress?, List.findSome?_isSome_iff]
  refine ⟨(id, m), (mem_assignPages modules id m).mpr hm, ?_⟩
  simp only [exportOf?, hl, ↓reduceIte]
  exact (address_isSome m id l ht.fits).mpr (ht.exports_defined l hl)

/-- Each clause of `Linkable` is read off the diagnostics that are absent. -/
theorem linkable_of_isRunnable (modules : List Module) (h : (link modules).isRunnable = true) :
    Linkable modules := by
  simp only [Linkage.isRunnable, Bool.and_eq_true, Array.isEmpty_iff] at h
  obtain ⟨hplaced, himports⟩ := (link_clean modules).mp h.1
  obtain ⟨hone, hlen, htidy, hn⟩ := (placed_clean modules).mp hplaced
  refine ⟨hone, hlen, htidy, hn, ?_⟩
  intro m hm l hl
  obtain ⟨id, hid⟩ := moduleOn_of_mem modules m hone hlen hm
  rcases (link_unresolvedImports_nil modules).mp himports id m l hid hl with hs | hs
  · -- A tidy module defines none of its imports.
    have hdef := (address_isSome m id l (htidy m hm).fits).mp hs
    exact absurd hdef ((htidy m hm).imports_foreign l hl)
  · obtain ⟨a, ha⟩ := Option.isSome_iff_exists.mp hs
    obtain ⟨id', m', hm', hx, -⟩ := exportedAddress_definer modules l a ha
    exact ⟨m', moduleOn_mem modules id' m' hm', hx⟩

theorem isRunnable_of_linkable (modules : List Module) (h : Linkable modules) :
    (link modules).isRunnable = true := by
  have hplaced : (placed modules).diagnostics = #[] :=
    (placed_clean modules).mpr ⟨h.one_entry, h.enough_pages, h.tidy, h.exports_nodup⟩
  have himports : (link modules).program.unresolvedImports = [] := by
    apply (link_unresolvedImports_nil modules).mpr
    intro id m l hm hl
    obtain ⟨m', hm', hx⟩ := h.imports_exported m (moduleOn_mem modules id m hm) l hl
    obtain ⟨id', hid'⟩ := moduleOn_of_mem modules m' h.one_entry h.enough_pages hm'
    exact Or.inr (exportedAddress_isSome modules l id' m' hid' (h.tidy m' hm') hx)
  have hentry : (link modules).program.entry.isSome = true := by
    have hpos : 0 < modules.countP (·.isEntry) := by
      have hone := h.one_entry
      omega
    obtain ⟨m, hm, he⟩ := List.countP_pos_iff.mp hpos
    have hpage : (link modules).program.entry = _ := link_page modules 0
    rw [hpage, Option.isSome_map]
    exact List.find?_isSome.mpr ⟨m, hm, he⟩
  simp only [Linkage.isRunnable, Bool.and_eq_true, Array.isEmpty_iff]
  exact ⟨(link_clean modules).mpr ⟨hplaced, himports⟩, hentry⟩

/-- Acceptance is exact: a list of modules links to a program that may be run if and only if exactly one
module is an entry point, there are pages for all, each module is tidy, no label is exported twice, and
every import is exported somewhere. -/
theorem isRunnable_iff_linkable (modules : List Module) :
    (link modules).isRunnable = true ↔ Linkable modules :=
  ⟨linkable_of_isRunnable modules, isRunnable_of_linkable modules⟩

end PagedMachine
