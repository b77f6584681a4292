import PagedMachine.Proofs.Diagnostics
import PagedMachine.Proofs.Resolution

/-! Who is blamed for a label that is exported twice. The export that came first is looked up on the pages that
are there already, and the page of a module joins them only when all exports of the module are recorded. So the
first module is named right, unless it is the second one as well: then it has no name yet. -/
namespace PagedMachine

-- A linkage reports a label as exported by both of two modules.
def Linkage.Shares (k : Linkage) (l : Label) (first second : String) : Prop :=
  .duplicateExport l first second ∈ k.diagnostics.toList.map (·.issue)

-- The name of the module that an address belongs to, which is empty if there is none.
def Program.ownerName (p : Program) (a : Address) : String :=
  ((p.pageAt? a).map (·.name)).getD ""

theorem ownerName_exports (p : Program) (exports : SymbolTable) (a : Address) :
    { p with exports }.ownerName a = p.ownerName a := rfl

section Exports

variable (m : Module) (lay : Layout) (l : Label) (first second : String)

/-- An export reports a clash exactly with the owner of an earlier binding of its name. -/
theorem addExport_shares (k : Linkage) (l' : Label) :
    (k.addExport m lay l').Shares l first second ↔ k.Shares l first second ∨
      l' = l ∧ second = m.name ∧ (lay.page.labels.get? l).isSome = true ∧
        ∃ b, k.program.exports.get? l = some b ∧ first = k.program.ownerName b := by
  by_cases hl : l' = l
  · subst hl
    cases hd : lay.page.labels.get? l' with
    | none => cases hf : lay.fits <;> simp [Linkage.addExport, Linkage.Shares, Linkage.report, hd, hf]
    | some a =>
      cases hx : k.program.exports.get? l' with
      | none =>
        obtain ⟨t, ht, -, -⟩ := insert_fresh_label k.program.exports l' a hx
        simp [Linkage.addExport, Linkage.Shares, hd, ht]
      | some b =>
        simp [Linkage.addExport, Linkage.Shares, Linkage.report, Program.ownerName, hd,
          insert_bound_label _ l' a b hx, and_comm]
  · -- Whatever is reported is about another label.
    simp only [Linkage.addExport, Linkage.Shares]
    split
    · split_ifs <;> simp [Linkage.report, hl]
    · split
      · simp [hl]
      · simp [Linkage.report, hl, Ne.symm hl]

theorem addExport_ownerName (k : Linkage) (l' : Label) (a : Address) :
    (k.addExport m lay l').program.ownerName a = k.program.ownerName a := by
  obtain ⟨exports, h⟩ := addExport_program m lay k l'
  rw [h, ownerName_exports]

/-- A label that is bound already is in the way of every export of it. -/
theorem foldl_addExport_bound (ls : List Label) (k : Linkage) (b : Address)
    (hb : k.program.exports.get? l = some b) :
    (ls.foldl (Linkage.addExport m lay) k).Shares l first second ↔ k.Shares l first second ∨
      second = m.name ∧ (lay.page.labels.get? l).isSome = true ∧ l ∈ ls ∧
        first = k.program.ownerName b := by
  induction ls generalizing k with
  | nil => simp
  | cons l' ls ih =>
    have hb' : (k.addExport m lay l').program.exports.get? l = some b := by
      rw [addExport_get, hb, Option.some_or]
    rw [List.foldl_cons, ih _ hb', addExport_shares, addExport_ownerName, hb]
    simp only [Option.some.injEq, exists_eq_left', List.mem_cons, eq_comm (a := l')]
    tauto

/-- A label that is new is bound by the first export of it, and is then in the way of the others. -/
theorem foldl_addExport_fresh (ls : List Label) (k : Linkage) (hk : k.program.exports.get? l = none) :
    (ls.foldl (Linkage.addExport m lay) k).Shares l first second ↔ k.Shares l first second ∨
      second = m.name ∧ 2 ≤ ls.count l ∧
        ∃ a, lay.page.labels.get? l = some a ∧ first = k.program.ownerName a := by
  induction ls generalizing k with
  | nil => simp
  | cons l' ls ih =>
    have hget := addExport_get m lay k l' l
    rw [hk, Option.none_or] at hget
    have hshares := addExport_shares m lay l first second k l'
    simp only [hk, reduceCtorEq, false_and, exists_false, and_false, or_false] at hshares
    rw [List.foldl_cons]
    by_cases hl : l = l'
    · -- From here on the label is bound, if the page has a place for it.
      subst hl
      rw [if_pos rfl] at hget
      cases hd : lay.page.labels.get? l with
      | none =>
        rw [ih _ (hget.trans hd), hshares, hd]
        simp
      | some a =>
        rw [foldl_addExport_bound m lay l first second ls _ a (hget.trans hd), hshares, hd,
          addExport_ownerName, List.count_cons_self]
        have hcount : 2 ≤ ls.count l + 1 ↔ l ∈ ls := by
          rw [← List.count_pos_iff]
          omega
        simp [hcount]
    · rw [if_neg hl] at hget
      rw [ih _ hget, hshares, List.count_cons_of_ne (Ne.symm hl)]
      simp only [addExport_ownerName]

end Exports

-- A module that is added to a program clashes with it, or with itself, over an export.
def Program.Clashes (p : Program) (q : Nat × Module) (l : Label) (first second : String) : Prop :=
  second = q.2.name ∧ ∃ a, q.2.address? q.1 l = some a ∧
    ((∃ b, p.exports.get? l = some b ∧ l ∈ q.2.exports ∧ first = p.ownerName b) ∨
      p.exports.get? l = none ∧ 2 ≤ q.2.exports.count l ∧ first = p.ownerName a)

theorem layoutErrors_shares (m : Module) (lay : Layout) (l : Label) (first second : String) :
    .duplicateExport l first second ∉ (m.layoutErrors lay).map (·.issue) := by
  simp only [Module.layoutErrors, List.map_append, List.mem_append, List.map_map, List.mem_map]
  rintro ((⟨d, -, hd⟩ | ⟨d, hd, he⟩) | ⟨d, -, hd⟩)
  · cases hd
  · split_ifs at hd
    · simp at hd
    · rw [List.mem_singleton.mp hd] at he
      cases he
  · cases hd

/-- A module reports exactly the clashes of its own exports. -/
theorem addModule_shares (k : Linkage) (q : Nat × Module) (l : Label) (first second : String) :
    (k.addModule q).Shares l first second ↔
      k.Shares l first second ∨ k.program.Clashes q l first second := by
  let k' : Linkage :=
    { k with diagnostics := k.diagnostics ++ q.2.layoutErrors (q.2.layOut q.1) }
  have hk' : k'.Shares l first second ↔ k.Shares l first second := by
    have hnone := layoutErrors_shares q.2 (q.2.layOut q.1) l first second
    simp only [Linkage.Shares, k', Array.toList_appendList, List.map_append, List.mem_append, hnone, or_false]
  have hfold : (k.addModule q).Shares l first second ↔
      (q.2.exports.foldl (Linkage.addExport q.2 (q.2.layOut q.1)) k').Shares l first second := Iff.rfl
  rw [hfold]
  cases hx : k.program.exports.get? l with
  | some b =>
    rw [foldl_addExport_bound _ _ _ _ _ _ k' b hx, hk', Program.Clashes, hx, layOut_labels_get]
    cases q.2.address? q.1 l <;> simp [k']
  | none =>
    rw [foldl_addExport_fresh _ _ _ _ _ _ k' hx, hk', Program.Clashes, hx, layOut_labels_get]
    cases q.2.address? q.1 l <;> simp [k']

/-- Each module clashes with the program that the modules in front of it are linked into. -/
theorem foldl_addModule_shares (qs : List (Nat × Module)) (k : Linkage) (l : Label)
    (first second : String) :
    (qs.foldl Linkage.addModule k).Shares l first second ↔ k.Shares l first second ∨
      ∃ before q after, qs = before ++ q :: after ∧
        (before.foldl Linkage.addModule k).program.Clashes q l first second := by
  induction qs generalizing k with
  | nil => simp
  | cons q qs ih =>
    rw [List.foldl_cons, ih, addModule_shares, or_assoc]
    apply or_congr_right
    constructor
    · rintro (h | ⟨before, q', after, rfl, h⟩)
      · exact ⟨[], q, qs, rfl, h⟩
      · exact ⟨q :: before, q', after, rfl, h⟩
    · rintro ⟨before, q', after, hqs, h⟩
      cases before with
      | nil =>
        obtain ⟨rfl, rfl⟩ := List.cons.inj hqs
        exact Or.inl h
      | cons q'' before =>
        obtain ⟨rfl, rfl⟩ := List.cons.inj hqs
        exact Or.inr ⟨before, q', after, rfl, h⟩

/-! The program in front of a module. -/

theorem addExport_program_congr (m : Module) (lay : Layout) (k k' : Linkage) (l : Label)
    (h : k.program = k'.program) :
    (k.addExport m lay l).program = (k'.addExport m lay l).program := by
  simp only [Linkage.addExport, h]
  split
  · split_ifs
    · exact h
    · exact h
  · split
    · rfl
    · exact h

theorem foldl_addExport_program_congr (m : Module) (lay : Layout) (ls : List Label) (k k' : Linkage)
    (h : k.program = k'.program) :
    (ls.foldl (Linkage.addExport m lay) k).program =
      (ls.foldl (Linkage.addExport m lay) k').program := by
  induction ls generalizing k k' with
  | nil => exact h
  | cons l ls ih => exact ih _ _ (addExport_program_congr m lay k k' l h)

/-- What was reported before has no influence on the program. -/
theorem foldl_addModule_program_congr (qs : List (Nat × Module)) (k k' : Linkage)
    (h : k.program = k'.program) :
    (qs.foldl Linkage.addModule k).program = (qs.foldl Linkage.addModule k').program := by
  induction qs generalizing k k' with
  | nil => exact h
  | cons q qs ih =>
    have hexports := foldl_addExport_program_congr q.2 (q.2.layOut q.1) q.2.exports
      { k with diagnostics := k.diagnostics ++ q.2.layoutErrors (q.2.layOut q.1) }
      { k' with diagnostics := k'.diagnostics ++ q.2.layoutErrors (q.2.layOut q.1) } h
    exact ih _ _ (congrArg (·.addPage (q.2.layOut q.1).page) hexports)

theorem numbered_append (ms ms' : List Module) (n : Nat) :
    numbered (ms ++ ms') n = numbered ms n ++ numbered ms' (n + ms.length) := by
  rw [numbered, List.zipIdx_append, List.map_append]
  rfl

theorem numbered_snd (ms : List Module) (n : Nat) : (numbered ms n).map Prod.snd = ms := by
  simp [numbered, Function.comp_def, List.zipIdx_map_fst]

/-- The front of numbered modules are the modules in front, numbered. -/
theorem numbered_front (ms : List Module) (n : Nat) (before after : List (Nat × Module))
    (h : numbered ms n = before ++ after) :
    before = numbered (before.map Prod.snd) n ∧ before.map Prod.snd <+: ms := by
  have hms : ms = before.map Prod.snd ++ after.map Prod.snd := by
    rw [← List.map_append, ← h, numbered_snd]
  refine ⟨?_, ⟨_, hms.symm⟩⟩
  rw [hms, numbered_append] at h
  exact (List.append_inj_left h.symm (by simp [numbered]))

/-- Modules that come first in the order of pages get the same pages on their own. -/
theorem assignPages_front (modules : List Module) (before after : List (Nat × Module))
    (h : assignPages modules = before ++ after) :
    assignPages (before.map Prod.snd) = before := by
  have hshort (ms : List Module) (hms : ms <+: (modules.eraseP (·.isEntry)).take maxPage) :
      ms.take maxPage = ms := by
    apply List.take_of_length_le
    exact Nat.le_trans hms.length_le (List.length_take_le _ _)
  rw [assignPages_eq] at h
  -- The first entry point, if there is one, is also the first of all modules that have a page.
  cases he : modules.find? (·.isEntry) with
  | none =>
    rw [he] at h
    obtain ⟨hbefore, hinitial⟩ := numbered_front _ 1 before after h
    have hothers : ∀ m ∈ before.map Prod.snd, ¬m.isEntry = true := by
      intro m hm
      have hmem := List.mem_of_mem_eraseP (List.mem_of_mem_take (hinitial.subset hm))
      exact List.find?_eq_none.mp he m hmem
    rw [assignPages_eq, List.find?_eq_none.mpr hothers, List.eraseP_of_forall_not hothers,
      hshort _ hinitial]
    exact hbefore.symm
  | some e =>
    rw [he] at h
    cases before with
    | nil => rfl
    | cons q before =>
      obtain ⟨rfl, htail⟩ := List.cons.inj h
      obtain ⟨hbefore, hinitial⟩ := numbered_front _ 1 before after htail
      have hentry : e.isEntry = true := List.find?_some he
      have hfind : ((0, e) :: before).map Prod.snd = e :: before.map Prod.snd := rfl
      rw [assignPages_eq, hfind, List.find?_cons_of_pos hentry, List.eraseP_cons_of_pos hentry,
        hshort _ hinitial, ← hbefore]
      rfl

/-- What is linked before a module is the program of the modules before it. -/
theorem placed_front (modules : List Module) (before after : List (Nat × Module))
    (h : assignPages modules = before ++ after) (diagnostics : Array (Diagnostic LinkError)) :
    (before.foldl Linkage.addModule ⟨.empty, diagnostics⟩).program =
      (link (before.map Prod.snd)).program := by
  rw [link_program, placed, assignPages_front modules before after h]
  exact foldl_addModule_program_congr before _ _ rfl

theorem foldl_report_shares (es : List LinkError) (k : Linkage) (l : Label) (first second : String)
    (h : .duplicateExport l first second ∉ es) :
    (es.foldl Linkage.report k).Shares l first second ↔ k.Shares l first second := by
  induction es generalizing k with
  | nil => rfl
  | cons e es ih =>
    rw [List.mem_cons, not_or] at h
    rw [List.foldl_cons, ih _ h.2]
    simp [Linkage.Shares, Linkage.report, h.1]

/-- A shared export is one that a module brings into the program of the modules in front of it. -/
theorem link_shares (modules : List Module) (l : Label) (first second : String) :
    (link modules).Shares l first second ↔
      ∃ before q after, assignPages modules = before ++ q :: after ∧
        (link (before.map Prod.snd)).program.Clashes q l first second := by
  have himports : .duplicateExport l first second ∉ (placed modules).program.unresolvedImports := by
    intro h
    obtain ⟨owner, k, hk⟩ := unresolvedImports_cases _ _ h
    cases hk
  have hstart : ¬(⟨.empty, ((assignmentErrors modules).map (⟨·, none⟩)).toArray⟩ : Linkage).Shares
      l first second := by
    intro h
    have h' : LinkError.duplicateExport l first second ∈ assignmentErrors modules := by
      simpa [Linkage.Shares] using h
    rcases assignmentErrors_cases modules _ h' with he | ⟨names, he⟩ | he <;> cases he
  have hlink : link modules =
      (placed modules).program.unresolvedImports.foldl Linkage.report (placed modules) := rfl
  rw [hlink, foldl_report_shares _ _ _ _ _ himports, placed, foldl_addModule_shares, or_iff_right hstart]
  constructor
  · rintro ⟨before, q, after, hsplit, h⟩
    rw [placed_front modules before (q :: after) hsplit] at h
    exact ⟨before, q, after, hsplit, h⟩
  · rintro ⟨before, q, after, hsplit, h⟩
    rw [← placed_front modules before (q :: after) hsplit] at h
    exact ⟨before, q, after, hsplit, h⟩

theorem link_pageAt_address (modules : List Module) (id : Nat) (m : Module) (l : Label) (a : Address)
    (hq : (id, m) ∈ assignPages modules) (ha : m.address? id l = some a) :
    (link modules).program.pageAt? a = some (m.layOut id).page := by
  have hm := (mem_assignPages modules id m).mp hq
  have hpage := address_on_page m id l a (moduleOn_le_maxPage modules id m hm) ha
  simp only [link_pageAt, hpage, Option.bind_some, hm, Option.map_some]

section Split

variable (modules : List Module) (before after : List (Nat × Module)) (id : Nat) (m : Module)
  (hsplit : assignPages modules = before ++ (id, m) :: after)

include hsplit

theorem split_ids (q : Nat × Module) (hq : q ∈ before) : q.1 ≠ id := by
  have hascending := assignPages_ascending modules
  rw [hsplit, List.pairwise_append] at hascending
  exact Nat.ne_of_lt (hascending.2.2 q hq (id, m) List.mem_cons_self)

/-- An export of an earlier module has its page in both programs, and it is another page. -/
theorem split_owner (l : Label) (b : Address) (hb : before.findSome? (exportOf? l) = some b) :
    ∃ owner, (link modules).program.pageAt? b = some owner ∧ owner.id ≠ id ∧
      (link (before.map Prod.snd)).program.ownerName b = owner.name := by
  obtain ⟨⟨id', m'⟩, hq, he⟩ := List.exists_of_findSome?_eq_some hb
  simp only [exportOf?] at he
  split_ifs at he with hl
  have hfront := assignPages_front modules before _ hsplit
  have hq' : (id', m') ∈ assignPages modules := by
    rw [hsplit]
    exact List.mem_append_left _ hq
  refine ⟨_, link_pageAt_address modules id' m' l b hq' he, ?_, ?_⟩
  · exact split_ids modules before after id m hsplit (id', m') hq
  · have hpage := link_pageAt_address (before.map Prod.snd) id' m' l b (hfront.symm ▸ hq) he
    rw [Program.ownerName, hpage]
    rfl

/-- The page of a module is not there yet while its exports are recorded. -/
theorem split_unnamed (l : Label) (a : Address) (ha : m.address? id l = some a) :
    (link (before.map Prod.snd)).program.ownerName a = "" := by
  have hm : (id, m) ∈ assignPages modules := by simp [hsplit]
  have hid := moduleOn_le_maxPage modules id m ((mem_assignPages modules id m).mp hm)
  have hpage := address_on_page m id l a hid ha
  have hnone : moduleOn? (before.map Prod.snd) id = none := by
    rw [Option.eq_none_iff_forall_ne_some]
    intro m' hm'
    rw [← mem_assignPages, assignPages_front modules before _ hsplit] at hm'
    exact split_ids modules before after id m hsplit _ hm' rfl
  rw [Program.ownerName, link_pageAt, hpage, Option.bind_some, hnone]
  rfl

/-- The export table takes the binding before a module, then its own, then those behind it. -/
theorem split_exports (l : Label) :
    (link modules).program.exports.get? l =
      (before.findSome? (exportOf? l)).or
        ((exportOf? l (id, m)).or (after.findSome? (exportOf? l))) := by
  rw [link_exports_get, exportedAddress?, hsplit, List.findSome?_append, List.findSome?_cons]
  cases exportOf? l (id, m) <;> rfl

end Split

/-- A label is reported as exported twice exactly if a module brings it that either is not the one whose page the
table of exports leads to, which is then named, or that lists the label more than once, and then no name is
given for the first of the two. -/
theorem duplicate_export_names (modules : List Module) (l : Label) (first second : String) :
    .duplicateExport l first second ∈ (link modules).diagnostics.toList.map (·.issue) ↔
      ∃ a owner id m, (link modules).program.exports.get? l = some a ∧
        (link modules).program.pageAt? a = some owner ∧
        (id, m) ∈ assignPages modules ∧ m.name = second ∧ l ∈ m.exports ∧
        (m.address? id l).isSome = true ∧
        (owner.id ≠ id ∧ owner.name = first ∨ owner.id = id ∧ 2 ≤ m.exports.count l ∧ first = "") := by
  change (link modules).Shares l first second ↔ _
  rw [link_shares]
  constructor
  · rintro ⟨before, ⟨id, m⟩, after, hsplit, rfl, a, ha, hclash⟩
    have hexports := split_exports modules before after id m hsplit l
    have hm : (id, m) ∈ assignPages modules := by simp [hsplit]
    rw [link_exports_get, exportedAddress?, assignPages_front modules before _ hsplit] at hclash
    rcases hclash with ⟨b, hb, hl, rfl⟩ | ⟨hnone, hcount, rfl⟩
    · -- An earlier module has the label, and its page is there.
      obtain ⟨owner, howner, hid, hname⟩ := split_owner modules before after id m hsplit l b hb
      rw [hb, Option.some_or] at hexports
      exact ⟨b, owner, id, m, hexports, howner, hm, rfl, hl, by simp [ha], Or.inl ⟨hid, hname.symm⟩⟩
    · -- The module itself has bound the label just before.
      have hl : l ∈ m.exports := List.count_pos_iff.mp (Nat.lt_of_lt_of_le Nat.two_pos hcount)
      have hown : exportOf? l (id, m) = some a := by rw [exportOf?, if_pos hl, ha]
      rw [hnone, Option.none_or, hown, Option.some_or] at hexports
      refine ⟨a, _, id, m, hexports, link_pageAt_address modules id m l a hm ha, hm, rfl, hl,
        by simp [ha], Or.inr ⟨rfl, hcount, ?_⟩⟩
      exact split_unnamed modules before after id m hsplit l a ha
  · rintro ⟨b, owner, id, m, hb, howner, hm, rfl, hl, hsome, hcase⟩
    obtain ⟨a, ha⟩ := Option.isSome_iff_exists.mp hsome
    obtain ⟨before, after, hsplit⟩ := List.append_of_mem hm
    have hexports := split_exports modules before after id m hsplit l
    have hown : exportOf? l (id, m) = some a := by rw [exportOf?, if_pos hl, ha]
    refine ⟨before, (id, m), after, hsplit, rfl, a, ha, ?_⟩
    rw [link_exports_get, exportedAddress?, assignPages_front modules before _ hsplit]
    rw [hb, hown] at hexports
    -- The table leads to an earlier module if there is one, and to this module otherwise.
    cases hbefore : before.findSome? (exportOf? l) with
    | some c =>
      rw [hbefore, Option.some_or, Option.some.injEq] at hexports
      subst hexports
      obtain ⟨owner', howner', hid, hname⟩ := split_owner modules before after id m hsplit l b hbefore
      rw [howner, Option.some.injEq] at howner'
      subst howner'
      rcases hcase with ⟨-, rfl⟩ | ⟨hsame, -⟩
      · exact Or.inl ⟨b, rfl, hl, hname.symm⟩
      · exact absurd hsame hid
    | none =>
      rw [hbefore, Option.none_or, Option.some_or, Option.some.injEq] at hexports
      subst hexports
      rw [link_pageAt_address modules id m l b hm ha, Option.some.injEq] at howner
      subst howner
      rcases hcase with ⟨hid, -⟩ | ⟨-, hcount, rfl⟩
      · exact absurd rfl hid
      · exact Or.inr ⟨rfl, hcount, (split_unnamed modules before after id m hsplit l b ha).symm⟩

-- A module that lists its only label as an export twice.
def selfExporter : Module :=
  ⟨"main", [⟨.nullary .nop, ["f"], none⟩], [], ["f", "f"], [], true⟩

/-- The name of the first module is not always that of the module whose label the table of exports has. -/
theorem selfExporter_unnamed :
    ¬∀ modules l first second,
      .duplicateExport l first second ∈ (link modules).diagnostics.toList.map (·.issue) →
        ∃ a owner, (link modules).program.exports.get? l = some a ∧
          (link modules).program.pageAt? a = some owner ∧ owner.name = first ∧
          ∃ m ∈ modules, m.name = second ∧ l ∈ m.exports ∧ l ∈ m.definedLabels := by
  intro h
  have hreported : .duplicateExport "f" "" "main" ∈
      (link [selfExporter]).diagnostics.toList.map (·.issue) := by decide +kernel
  have howner : ((link [selfExporter]).program.exports.get? "f").bind
      (fun a => ((link [selfExporter]).program.pageAt? a).map (·.name)) = some "main" := by
    decide +kernel
  obtain ⟨a, owner, ha, hpage, hname, -⟩ := h [selfExporter] "f" "" "main" hreported
  rw [ha, Option.bind_some, hpage, Option.map_some, hname] at howner
  exact absurd howner (by decide)

end PagedMachine
