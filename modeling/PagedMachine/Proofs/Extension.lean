import PagedMachine.Proofs.Resolution

/-! More modules behind a list that has an entry point. They get the pages behind those that are taken and
exports that nobody else had, so that whatever was linked before stays as it was. -/
namespace PagedMachine

/-- Behind an entry point, further modules take further pages. -/
theorem assignPages_append (ms ns : List Module) (h : ∃ m ∈ ms, m.isEntry = true) :
    assignPages ms <+: assignPages (ms ++ ns) := by
  obtain ⟨m, hm, he⟩ := h
  have hentry : (ms ++ ns).find? (·.isEntry) = ms.find? (·.isEntry) := by
    rw [List.find?_append]
    obtain ⟨m', hm'⟩ := Option.isSome_iff_exists.mp (List.find?_isSome.mpr ⟨m, hm, he⟩)
    rw [hm', Option.some_or]
  have hothers : (ms ++ ns).eraseP (·.isEntry) = ms.eraseP (·.isEntry) ++ ns :=
    List.eraseP_append_left he _ hm
  rw [assignPages_eq, assignPages_eq, hentry, hothers, List.take_append,
    List.prefix_append_right_inj]
  simp only [numbered, List.zipIdx_append, List.map_append]
  exact List.prefix_append _ _

theorem moduleOn_append (ms ns : List Module) (h : ∃ m ∈ ms, m.isEntry = true) (id : Nat) (m : Module)
    (hm : moduleOn? ms id = some m) : moduleOn? (ms ++ ns) id = some m := by
  rw [← mem_assignPages] at hm ⊢
  exact (assignPages_append ms ns h).subset hm

theorem link_page_append (ms ns : List Module) (h : ∃ m ∈ ms, m.isEntry = true) (id : Nat)
    (page : Page) (hp : (link ms).program.page? id = some page) :
    (link (ms ++ ns)).program.page? id = some page := by
  rw [link_page] at hp ⊢
  obtain ⟨m, hm, rfl⟩ := Option.map_eq_some_iff.mp hp
  rw [moduleOn_append ms ns h id m hm, Option.map_some]

/-- An exported name keeps its address when modules are appended. -/
theorem exportedAddress_append (ms ns : List Module) (h : ∃ m ∈ ms, m.isEntry = true) (l : Label)
    (a : Address) (ha : exportedAddress? ms l = some a) :
    exportedAddress? (ms ++ ns) l = some a := by
  obtain ⟨rest, hrest⟩ := assignPages_append ms ns h
  rw [exportedAddress?] at ha ⊢
  rw [← hrest, List.findSome?_append, ha, Option.some_or]

theorem link_export_append (ms ns : List Module) (h : ∃ m ∈ ms, m.isEntry = true) (l : Label)
    (a : Address) (ha : (link ms).program.exports.get? l = some a) :
    (link (ms ++ ns)).program.exports.get? l = some a := by
  rw [link_exports_get] at ha ⊢
  exact exportedAddress_append ms ns h l a ha

/-- Resolution asks one page and the exports, and answers of neither get lost. -/
theorem resolve_mono (p p' : Program)
    (hpages : ∀ id page, p.page? id = some page → p'.page? id = some page)
    (hexports : ∀ l a, p.exports.get? l = some a → p'.exports.get? l = some a)
    (c : Address) (l : Label) (a : Address) (h : p.resolve? c l = some a) :
    p'.resolve? c l = some a := by
  cases hp : p.pageAt? c with
  | none =>
    simp only [Program.resolve?, hp] at h
    contradiction
  | some page =>
    obtain ⟨id, hid, hpage⟩ := Option.bind_eq_some_iff.mp hp
    have hp' : p'.pageAt? c = some page :=
      Option.bind_eq_some_iff.mpr ⟨id, hid, hpages id page hpage⟩
    simp only [Program.resolve?, hp, hp'] at h ⊢
    cases hl : page.labels.get? l with
    | some b => simpa only [hl] using h
    | none =>
      simp only [hl] at h ⊢
      split_ifs at h ⊢
      exact hexports l a h

/-- Linking is stable. Whatever modules are added behind a list with an entry point, further entry points
and exports among them, the pages are the first pages of the larger program, the exports keep their
addresses, and every label that meant something means the same. -/
theorem link_append_stable (ms ns : List Module) (h : ∃ m ∈ ms, m.isEntry = true) :
    (link ms).program.pages <+: (link (ms ++ ns)).program.pages ∧
    (∀ id page, (link ms).program.page? id = some page →
      page.id = id ∧ (link (ms ++ ns)).program.page? id = some page) ∧
    (∀ l a, (link ms).program.exports.get? l = some a →
      (link (ms ++ ns)).program.exports.get? l = some a) ∧
    ∀ c l a, (link ms).program.resolve? c l = some a →
      (link (ms ++ ns)).program.resolve? c l = some a := by
  refine ⟨?_, ?_, link_export_append ms ns h, ?_⟩
  · rw [link_pages, link_pages]
    exact (assignPages_append ms ns h).map _
  · intro id page hp
    refine ⟨?_, link_page_append ms ns h id page hp⟩
    rw [link_page] at hp
    obtain ⟨m, -, rfl⟩ := Option.map_eq_some_iff.mp hp
    rfl
  · exact resolve_mono _ _ (link_page_append ms ns h) (link_export_append ms ns h)

-- A library with one routine, and a program that jumps to it.
def routineAndCaller : List Module :=
  [{ name := "library"
     instructions := [⟨.nullary .nop, [], none⟩, ⟨.nullary .nop, ["routine"], none⟩]
     literals := []
     exports := ["routine"]
     imports := []
     isEntry := false },
    { name := "caller"
      instructions := [⟨.binary .mov (.register .xx) (.address "routine"), [], none⟩]
      literals := []
      exports := []
      imports := ["routine"]
      isEntry := true }]

-- A second entry point that exports the routine again.
def rival : Module where
  name := "rival"
  instructions := [⟨.nullary .nop, ["routine"], none⟩]
  literals := []
  exports := ["routine"]
  imports := []
  isEntry := true

/-- The rival comes too late: the caller still jumps to the library. -/
theorem rival_link_stable :
    (∃ m ∈ routineAndCaller, m.isEntry = true) ∧
    (link routineAndCaller).program.resolve? entryAddress "routine" = some (pageBase 1 + 4) ∧
    (link (routineAndCaller ++ [rival])).program.resolve? entryAddress "routine" =
      some (pageBase 1 + 4) := by
  have hentry : ∃ m ∈ routineAndCaller, m.isEntry = true := by decide
  have hold : (link routineAndCaller).program.resolve? entryAddress "routine" =
      some (pageBase 1 + 4) := by decide +kernel
  exact ⟨hentry, hold, (link_append_stable routineAndCaller [rival] hentry).2.2.2 _ _ _ hold⟩

end PagedMachine
