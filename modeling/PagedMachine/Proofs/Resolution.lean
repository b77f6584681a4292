import PagedMachine.Proofs.Linkage

/-! What a label means in a linked program. A page's own definitions come first; behind them stands, for
the labels that the page imports, the first definition among the exporting modules. -/
namespace PagedMachine

/-- The page at an address is the layout of the module on that page. -/
theorem link_pageAt (modules : List Module) (a : Address) :
    (link modules).program.pageAt? a =
      (pageOf? a).bind fun id => (moduleOn? modules id).map fun m => (m.layOut id).page := by
  have h := funext (link_page modules)
  rw [Program.pageAt?, h]

theorem link_resolve_unlinked (modules : List Module) (c : Address) (l : Label)
    (h : (link modules).program.pageAt? c = none) :
    (link modules).program.resolve? c l = none := by
  simp only [Program.resolve?, h]

/-- From a linked page, a label resolves to its own definition or else to an imported export. -/
theorem link_resolve_linked (modules : List Module) (c : Address) (l : Label) (id : Nat) (m : Module)
    (hc : pageOf? c = some id) (hm : moduleOn? modules id = some m) :
    (link modules).program.resolve? c l =
      (m.address? id l).or (if l ∈ m.imports then exportedAddress? modules l else none) := by
  have hp : (link modules).program.pageAt? c = some (m.layOut id).page := by
    simp only [link_pageAt, hc, Option.bind_some, hm, Option.map_some]
  simp only [Program.resolve?, hp, layOut_labels_get, layOut_imports_contains, link_exports_get]
  cases m.address? id l <;> rfl

/-- An exported address comes from a module that exports and defines the name. -/
theorem exportedAddress_definer (modules : List Module) (l : Label) (a : Address)
    (h : exportedAddress? modules l = some a) :
    ∃ id m, moduleOn? modules id = some m ∧ l ∈ m.exports ∧ m.address? id l = some a := by
  obtain ⟨⟨id, m⟩, hq, he⟩ := List.exists_of_findSome?_eq_some h
  simp only [exportOf?] at he
  split_ifs at he with hl
  exact ⟨id, m, (mem_assignPages modules id m).mp hq, hl, he⟩

theorem link_labelsAt (modules : List Module) (id : Nat) (m : Module) (l : Label) (a : Address)
    (hm : moduleOn? modules id = some m) (ha : m.address? id l = some a) :
    l ∈ (link modules).program.labelsAt a := by
  have hpage := address_on_page m id l a (moduleOn_le_maxPage modules id m hm) ha
  have hp : (link modules).program.pageAt? a = some (m.layOut id).page := by
    simp only [link_pageAt, hpage, Option.bind_some, hm, Option.map_some]
  simp only [Program.labelsAt, hp]
  apply (layOut_labels_consistent m id a l).mpr
  rw [layOut_labels_get]
  exact ha

/-- Whatever a label resolves to is a definition of it on some page; on another page than the asking one
it is an import here and an export there. -/
theorem link_resolve_definer (modules : List Module) (c : Address) (l : Label) (a : Address)
    (h : (link modules).program.resolve? c l = some a) :
    ∃ id m id' m', pageOf? c = some id ∧ moduleOn? modules id = some m ∧
      moduleOn? modules id' = some m' ∧ m'.address? id' l = some a ∧
      (id' ≠ id → l ∈ m.imports ∧ l ∈ m'.exports) := by
  cases hp : (link modules).program.pageAt? c with
  | none =>
    rw [link_resolve_unlinked modules c l hp] at h
    contradiction
  | some page =>
    rw [link_pageAt] at hp
    obtain ⟨id, hc, hm⟩ := Option.bind_eq_some_iff.mp hp
    obtain ⟨m, hm, -⟩ := Option.map_eq_some_iff.mp hm
    rw [link_resolve_linked modules c l id m hc hm] at h
    rcases Option.or_eq_some_iff.mp h with ha | ⟨-, ha⟩
    · -- The page's own definition: there is no other page.
      exact ⟨id, m, id, m, hc, hm, hm, ha, fun hne => absurd rfl hne⟩
    · split_ifs at ha with hl
      obtain ⟨id', m', hm', hx, ha'⟩ := exportedAddress_definer modules l a ha
      exact ⟨id, m, id', m', hc, hm, hm', ha', fun _ => ⟨hl, hx⟩⟩

/-- Resolution is two-tiered, whatever problems the modules have. A label has the address of the page's
first placed definition of it, or else, if the page imports it, that of the first exported definition
in page order. So a label of another page is seen only if it is imported here and exported there, and
wherever it leads, the label is listed. -/
theorem resolve_two_tiers (modules : List Module) (c : Address) (l : Label) (a : Address) :
    ((link modules).program.resolve? c l = some a ↔
      ∃ id m, pageOf? c = some id ∧ (id, m) ∈ assignPages modules ∧
        (m.address? id l = some a ∨
          m.address? id l = none ∧ l ∈ m.imports ∧ exportedAddress? modules l = some a)) ∧
    ((link modules).program.resolve? c l = some a →
      l ∈ (link modules).program.labelsAt a ∧
      ∃ id m id' m', pageOf? c = some id ∧ (id, m) ∈ assignPages modules ∧
        pageOf? a = some id' ∧ (id', m') ∈ assignPages modules ∧
        (id' ≠ id → l ∈ m.imports ∧ l ∈ m'.exports)) := by
  simp only [mem_assignPages]
  refine ⟨⟨?_, ?_⟩, ?_⟩
  · intro h
    obtain ⟨id, m, -, -, hc, hm, -, -, -⟩ := link_resolve_definer modules c l a h
    rw [link_resolve_linked modules c l id m hc hm] at h
    refine ⟨id, m, hc, hm, ?_⟩
    rcases Option.or_eq_some_iff.mp h with ha | ⟨hn, ha⟩
    · exact Or.inl ha
    · split_ifs at ha with hl
      exact Or.inr ⟨hn, hl, ha⟩
  · intro h
    obtain ⟨id, m, hc, hm, hd⟩ := h
    rw [link_resolve_linked modules c l id m hc hm]
    rcases hd with ha | ⟨hn, hl, ha⟩
    · rw [ha, Option.some_or]
    · rw [hn, Option.none_or, if_pos hl, ha]
  · intro h
    obtain ⟨id, m, id', m', hc, hm, hm', ha, hseen⟩ := link_resolve_definer modules c l a h
    have hpage := address_on_page m' id' l a (moduleOn_le_maxPage modules id' m' hm') ha
    exact ⟨link_labelsAt modules id' m' l a hm' ha, id, m, id', m', hc, hm, hpage, hm', hseen⟩

end PagedMachine
