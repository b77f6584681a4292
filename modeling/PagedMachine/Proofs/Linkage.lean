import PagedMachine.Proofs.Layout

/-! The program that linking leads to, whatever problems are found on the way: which module stands on
which page, and what the table of exports binds. -/
namespace PagedMachine

-- The module that gets a page: the first entry point page 0, the others in their order the pages from 1 on,
-- as far as there are pages.
def moduleOn? (modules : List Module) : Nat → Option Module
  | 0 => modules.find? (·.isEntry)
  | n + 1 => ((modules.eraseP (·.isEntry)).take maxPage)[n]?

-- What the module on a page has to offer under an exported label.
def exportOf? (l : Label) (q : Nat × Module) : Option Address :=
  if l ∈ q.2.exports then q.2.address? q.1 l else none

-- The address of an export: the first module in page order that exports the label and has a place for it
-- decides.
def exportedAddress? (modules : List Module) (l : Label) : Option Address :=
  (assignPages modules).findSome? (exportOf? l)

def numbered (ms : List Module) (n : Nat) : List (Nat × Module) :=
  (ms.zipIdx n).map Prod.swap

/-- The entry module has page zero and the others follow from page one on, as long as there are
pages. -/
theorem assignPages_eq (modules : List Module) :
    assignPages modules = (modules.find? (·.isEntry)).toList.map ((0, ·)) ++
      numbered ((modules.eraseP (·.isEntry)).take maxPage) 1 := rfl

theorem mem_numbered (ms : List Module) (n id : Nat) (m : Module) :
    (id, m) ∈ numbered ms n ↔ n ≤ id ∧ ms[id - n]? = some m := by
  rw [numbered, List.mem_map, ← List.mk_mem_zipIdx_iff_le_and_getElem?_sub]
  constructor
  · intro h
    obtain ⟨⟨m', id'⟩, hq, he⟩ := h
    cases he
    exact hq
  · intro h
    exact ⟨(m, id), h, rfl⟩

/-- The module on a page is the one assigned to it. -/
theorem mem_assignPages (modules : List Module) (id : Nat) (m : Module) :
    (id, m) ∈ assignPages modules ↔ moduleOn? modules id = some m := by
  rw [assignPages_eq, List.mem_append, mem_numbered]
  cases id with
  | zero => simp [moduleOn?, eq_comm]
  | succ n => simp [moduleOn?]

theorem moduleOn_le_maxPage (modules : List Module) (id : Nat) (m : Module)
    (h : moduleOn? modules id = some m) : id ≤ maxPage := by
  cases id with
  | zero => exact Nat.zero_le _
  | succ n =>
    obtain ⟨hn, -⟩ := List.getElem?_eq_some_iff.mp h
    exact Nat.le_trans hn (List.length_take_le _ _)

theorem moduleOn_mem (modules : List Module) (id : Nat) (m : Module)
    (h : moduleOn? modules id = some m) : m ∈ modules := by
  cases id with
  | zero => exact List.mem_of_find?_eq_some h
  | succ n => exact List.mem_of_mem_eraseP (List.mem_of_mem_take (List.mem_of_getElem? h))

/-- Recording an export leaves the pages alone. -/
theorem addExport_program (m : Module) (lay : Layout) (k : Linkage) (l : Label) :
    ∃ exports, (k.addExport m lay l).program = { k.program with exports } := by
  simp only [Linkage.addExport]
  split
  · split_ifs
    · exact ⟨k.program.exports, rfl⟩
    · exact ⟨k.program.exports, rfl⟩
  · split
    · next exports _ => exact ⟨exports, rfl⟩
    · exact ⟨k.program.exports, rfl⟩

theorem foldl_addExport_program (m : Module) (lay : Layout) (ls : List Label) (k : Linkage) :
    ∃ exports, (ls.foldl (Linkage.addExport m lay) k).program = { k.program with exports } := by
  induction ls generalizing k with
  | nil => exact ⟨k.program.exports, rfl⟩
  | cons l ls ih =>
    obtain ⟨exports, hrest⟩ := ih (k.addExport m lay l)
    obtain ⟨exports', hl⟩ := addExport_program m lay k l
    refine ⟨exports, ?_⟩
    rw [List.foldl_cons, hrest, hl]

/-- A module adds its page to the program and may change the export table. -/
theorem addModule_program (k : Linkage) (q : Nat × Module) :
    ∃ exports, (k.addModule q).program =
      { k.program with exports }.addPage (q.2.layOut q.1).page := by
  obtain ⟨exports, h⟩ := foldl_addExport_program q.2 (q.2.layOut q.1) q.2.exports
    { k with diagnostics := k.diagnostics ++ q.2.layoutErrors (q.2.layOut q.1) }
  exact ⟨exports, congrArg (·.addPage (q.2.layOut q.1).page) h⟩

/-- Modules with consecutive numbers from a positive one on end up side by side behind page 0. -/
theorem foldl_addModule_numbered (ms : List Module) (n : Nat) (hn : 0 < n) (k : Linkage) :
    ((numbered ms n).foldl Linkage.addModule k).program.entry = k.program.entry ∧
    ((numbered ms n).foldl Linkage.addModule k).program.others.toList =
      k.program.others.toList ++ (numbered ms n).map fun q => (q.2.layOut q.1).page := by
  induction ms generalizing n k with
  | nil => simp [numbered]
  | cons m ms ih =>
    -- A positive number never makes its page the entry, so the page joins the others.
    obtain ⟨exports, hk⟩ := addModule_program k (n, m)
    have hid : (m.layOut n).page.id ≠ 0 := Nat.ne_of_gt hn
    have hcons : numbered (m :: ms) n = (n, m) :: numbered ms (n + 1) := rfl
    obtain ⟨hentry, hothers⟩ := ih (n + 1) (Nat.succ_pos n) (k.addModule (n, m))
    rw [hcons, List.foldl_cons, hentry, hothers, hk]
    simp [Program.addPage, hid]

theorem foldl_report_program (es : List LinkError) (k : Linkage) :
    (es.foldl Linkage.report k).program = k.program := by
  induction es generalizing k with
  | nil => rfl
  | cons e es ih => exact ih (k.report e)

-- Linking stopped before the check of imports.
def placed (modules : List Module) : Linkage :=
  (assignPages modules).foldl Linkage.addModule
    ⟨.empty, ((assignmentErrors modules).map (⟨·, none⟩)).toArray⟩

theorem link_program (modules : List Module) : (link modules).program = (placed modules).program :=
  foldl_report_program _ _

/-- The entry's page stands apart from the pages of the others, which come in order. -/
theorem link_entry_others (modules : List Module) :
    (link modules).program.entry =
      (modules.find? (·.isEntry)).map (fun m => (m.layOut 0).page) ∧
    (link modules).program.others.toList =
      (numbered ((modules.eraseP (·.isEntry)).take maxPage) 1).map fun q => (q.2.layOut q.1).page := by
  let ms := (modules.eraseP (·.isEntry)).take maxPage
  let start : Linkage := ⟨.empty, ((assignmentErrors modules).map (⟨·, none⟩)).toArray⟩
  let k := ((modules.find? (·.isEntry)).toList.map ((0, ·))).foldl Linkage.addModule start
  -- Once the entry is placed, only page 0 can be taken.
  have hk : k.program.entry = (modules.find? (·.isEntry)).map (fun m => (m.layOut 0).page) ∧
      k.program.others = #[] := by
    cases he : modules.find? (·.isEntry) with
    | none =>
      have hk' : k = start := by
        simp only [k, he, Option.toList_none, List.map_nil, List.foldl_nil]
      rw [hk']
      exact ⟨rfl, rfl⟩
    | some m =>
      obtain ⟨exports, hm⟩ := addModule_program start (0, m)
      have hid : (m.layOut 0).page.id = 0 := rfl
      have hk' : k = start.addModule (0, m) := by
        simp only [k, he, Option.toList_some, List.map_cons, List.map_nil, List.foldl_cons,
          List.foldl_nil]
      rw [hk', hm]
      simp [Program.addPage, hid, start, Program.empty]
  have hsplit : (placed modules).program =
      ((numbered ms 1).foldl Linkage.addModule k).program := by
    simp only [placed, assignPages_eq, List.foldl_append, k, ms, start]
  obtain ⟨hentry, hothers⟩ := foldl_addModule_numbered ms 1 Nat.one_pos k
  rw [link_program, hsplit, hentry, hothers, hk.1, hk.2]
  exact ⟨rfl, rfl⟩

/-- Each page of the program is the layout of the module that was given the page. -/
theorem link_page (modules : List Module) (id : Nat) :
    (link modules).program.page? id = (moduleOn? modules id).map fun m => (m.layOut id).page := by
  obtain ⟨hentry, hothers⟩ := link_entry_others modules
  cases id with
  | zero => exact hentry
  | succ n =>
    have hlist := congrArg (·[n]?) hothers
    simp only [numbered, List.getElem?_map, List.getElem?_zipIdx, Array.getElem?_toList,
      Option.map_map, Function.comp_def, Prod.fst_swap, Prod.snd_swap, Nat.add_comm 1 n] at hlist
    exact hlist

/-- The pages of the program are the layouts of the modules that were given a page. -/
theorem link_pages (modules : List Module) :
    (link modules).program.pages = (assignPages modules).map fun q => (q.2.layOut q.1).page := by
  obtain ⟨hentry, hothers⟩ := link_entry_others modules
  rw [Program.pages, hentry, hothers, assignPages_eq, List.map_append]
  cases modules.find? (·.isEntry) <;> rfl

/-- Pages are given out in ascending order. -/
theorem assignPages_ascending (modules : List Module) :
    (assignPages modules).Pairwise fun q q' => q.1 < q'.1 := by
  have hnumbers (ms : List Module) : (numbered ms 1).Pairwise fun q q' => q.1 < q'.1 := by
    have hrange : (numbered ms 1).map Prod.fst = List.range' 1 ms.length := by
      simp [numbered, Function.comp_def, List.zipIdx_map_snd]
    have hlt : (List.range' 1 ms.length).Pairwise (· < ·) := List.pairwise_lt_range'
    rw [← hrange, List.pairwise_map] at hlt
    exact hlt
  rw [assignPages_eq, List.pairwise_append]
  refine ⟨?_, hnumbers _, ?_⟩
  · cases modules.find? (·.isEntry) <;> simp
  · intro q hq q' hq'
    obtain ⟨m, -, rfl⟩ := List.mem_map.mp hq
    exact ((mem_numbered _ 1 q'.1 q'.2).mp hq').1

/-- An export binds a name that was free and leaves every other. -/
theorem addExport_get (m : Module) (lay : Layout) (k : Linkage) (l l' : Label) :
    (k.addExport m lay l).program.exports.get? l' =
      (k.program.exports.get? l').or (if l' = l then lay.page.labels.get? l else none) := by
  cases hd : lay.page.labels.get? l with
  | none =>
    have hk : (k.addExport m lay l).program = k.program := by
      simp only [Linkage.addExport, hd]
      split <;> rfl
    rw [hk, ite_self, Option.or_none]
  | some a =>
    have hk : (k.addExport m lay l).program.exports = k.program.exports.tryInsert l a := by
      simp only [Linkage.addExport, hd, SymbolTable.tryInsert]
      cases k.program.exports.insert l a with
      | ok t => rfl
      | error b => rfl
    rw [hk, tryInsert_get]

/-- The first binding of an exported name stays. -/
theorem foldl_addExport_get (m : Module) (lay : Layout) (ls : List Label) (k : Linkage) (l : Label) :
    (ls.foldl (Linkage.addExport m lay) k).program.exports.get? l =
      (k.program.exports.get? l).or (if l ∈ ls then lay.page.labels.get? l else none) := by
  induction ls generalizing k with
  | nil => simp
  | cons l' ls ih =>
    rw [List.foldl_cons, ih, addExport_get, Option.or_assoc]
    congr 1
    by_cases hl : l = l'
    · -- Exported twice by its module, a label gets the same address each time.
      subst hl
      cases lay.page.labels.get? l <;> simp
    · simp [hl]

theorem addModule_exports_get (k : Linkage) (q : Nat × Module) (l : Label) :
    (k.addModule q).program.exports.get? l = (k.program.exports.get? l).or (exportOf? l q) := by
  have hpage (p : Program) (page : Page) : (p.addPage page).exports = p.exports := by
    simp only [Program.addPage]
    split <;> rfl
  let k' : Linkage :=
    { k with diagnostics := k.diagnostics ++ q.2.layoutErrors (q.2.layOut q.1) }
  calc (k.addModule q).program.exports.get? l
      _ = (q.2.exports.foldl (Linkage.addExport q.2 (q.2.layOut q.1)) k').program.exports.get? l :=
        congrArg (·.get? l) (hpage _ _)
      _ = (k.program.exports.get? l).or (exportOf? l q) := by
        rw [foldl_addExport_get, layOut_labels_get, exportOf?]

/-- The first module to export a label keeps it. -/
theorem foldl_addModule_exports_get (qs : List (Nat × Module)) (k : Linkage) (l : Label) :
    (qs.foldl Linkage.addModule k).program.exports.get? l =
      (k.program.exports.get? l).or (qs.findSome? (exportOf? l)) := by
  induction qs generalizing k with
  | nil => simp
  | cons q qs ih =>
    rw [List.foldl_cons, ih, addModule_exports_get, Option.or_assoc, List.findSome?_cons]
    cases exportOf? l q <;> rfl

/-- The export table holds the address of the first page that exports a name. -/
theorem link_exports_get (modules : List Module) (l : Label) :
    (link modules).program.exports.get? l = exportedAddress? modules l := by
  have hempty : Program.empty.exports.get? l = none := symbolTable_get_empty l
  rw [link_program, placed, foldl_addModule_exports_get, hempty, Option.none_or, exportedAddress?]

end PagedMachine
