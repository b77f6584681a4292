import Mathlib.Order.Bounds.Basic
import PagedMachine.Proofs.CheckedLayout
import PagedMachine.Proofs.Resolution
import PagedMachine.Proofs.Step

/-! Where everything stands in a linked program. The items of a page follow each other as closely as their
alignment allows, pages keep apart, and only the address of an instruction can be fetched. -/
namespace PagedMachine

-- A stretch of bytes taken up by an instruction or a literal.
structure Item where
  address : Address
  size : Nat
  deriving DecidableEq, Repr

-- The end of an item, which is behind its last byte.
def Item.stop (q : Item) : Nat :=
  q.address.toNat + q.size

def Item.Covers (q : Item) (a : Address) : Prop :=
  q.address.toNat ≤ a.toNat ∧ a.toNat < q.stop

def LoadedInstruction.item (i : LoadedInstruction) : Item :=
  ⟨i.address, instructionSize⟩

def PlacedLiteral.item (l : PlacedLiteral) : Item :=
  ⟨l.address, l.width.bytes⟩

def Page.items (page : Page) : List Item :=
  page.instructions.toList.map (·.item) ++ page.literals.map (·.item)

def Program.items (p : Program) : List Item :=
  p.pages.flatMap (·.items)

-- From `stop` on, each item starts at the least multiple of its size that is not below the end of the item
-- before it.
def Packed : Nat → List Item → Prop
  | _, [] => True
  | stop, q :: qs => IsLeast {x | stop ≤ x ∧ q.size ∣ x} q.address.toNat ∧ Packed q.stop qs

theorem packed_le (qs : List Item) (stop : Nat) (h : Packed stop qs) :
    ∀ q ∈ qs, stop ≤ q.address.toNat := by
  induction qs generalizing stop with
  | nil => simp
  | cons q qs ih =>
    obtain ⟨hq, hqs⟩ := h
    have hstart : stop ≤ q.address.toNat := hq.1.1
    intro q' hq'
    rcases List.mem_cons.mp hq' with rfl | hq'
    · exact hstart
    · have hle := ih q.stop hqs q' hq'
      simp only [Item.stop] at hle
      omega

theorem packed_dvd (qs : List Item) (stop : Nat) (h : Packed stop qs) :
    ∀ q ∈ qs, q.size ∣ q.address.toNat := by
  induction qs generalizing stop with
  | nil => simp
  | cons q qs ih =>
    obtain ⟨hq, hqs⟩ := h
    exact List.forall_mem_cons.mpr ⟨hq.1.2, ih q.stop hqs⟩

/-- Packed items do not overlap. -/
theorem packed_pairwise (qs : List Item) (stop : Nat) (h : Packed stop qs) :
    qs.Pairwise fun q q' => q.stop ≤ q'.address.toNat := by
  induction qs generalizing stop with
  | nil => exact List.Pairwise.nil
  | cons q qs ih =>
    obtain ⟨hq, hqs⟩ := h
    exact List.pairwise_cons.mpr ⟨packed_le qs q.stop hqs, ih q.stop hqs⟩

theorem four_dvd_pageBase (id : Nat) (hid : id ≤ maxPage) : 4 ∣ (pageBase id).toNat := by
  have hbase : programBase.toNat = 0x400000 := by decide
  rw [toNat_pageBase id hid, hbase, pageSize]
  omega

/-- Bases are aligned for every width, so offsets can be rounded in place of addresses. -/
theorem isLeast_alignUp (w : Width) (base offset : Nat) (hb : 4 ∣ base) :
    IsLeast {x | base + offset ≤ x ∧ w.bytes ∣ x} (base + alignUp offset w.bytes) := by
  have hround := alignUp_width w offset
  constructor
  · refine ⟨Nat.add_le_add_left (le_alignUp w offset) base, ?_⟩
    rw [hround]
    cases w <;> simp only [Width.bytes] <;> omega
  · intro x hx
    obtain ⟨hle, hdvd⟩ := hx
    rw [hround]
    cases w <;> simp only [Width.bytes] at hdvd ⊢ <;> omega

/-- Literals are packed from the end of the instructions on. -/
theorem packed_literals (id : Nat) (hid : id ≤ maxPage) (ls : List LabeledLiteral) (offset : Nat) :
    Packed ((pageBase id).toNat + offset)
      ((placeFrom (pageBase id) offset ls).1.map fun q => ⟨q.2, q.1.width.bytes⟩) := by
  induction ls generalizing offset with
  | nil => trivial
  | cons l ls ih =>
    simp only [placeFrom]
    split_ifs with hl
    · have hpos := width_bytes_pos l.width
      have ha := toNat_pageBase_add id (alignUp offset l.width.bytes) hid (by omega)
      rw [← toNat_pageBase id hid] at ha
      rw [List.map_cons, Packed, Item.stop, ha, Nat.add_assoc]
      exact ⟨isLeast_alignUp l.width _ offset (four_dvd_pageBase id hid), ih _⟩
    · trivial

/-- Instructions are packed in front of whatever is packed behind the last of them. -/
theorem packed_instructions (id : Nat) (hid : id ≤ maxPage) (is : List LabeledInstruction) (n : Nat)
    (hn : n ≤ instructionCapacity) (rest : List Item)
    (h : Packed
      ((pageBase id).toNat + min (n + is.length) instructionCapacity * instructionSize) rest) :
    Packed ((pageBase id).toNat + n * instructionSize)
      (((strided (pageBase id) n is).map fun q => ⟨q.2, instructionSize⟩) ++ rest) := by
  induction is generalizing n with
  | nil =>
    rw [List.length_nil, Nat.add_zero, Nat.min_eq_left hn] at h
    simpa [strided] using h
  | cons i is ih =>
    have hlength : n + (i :: is).length = n + 1 + is.length := by
      rw [List.length_cons]
      omega
    rw [hlength] at h
    by_cases hroom : n + 1 ≤ instructionCapacity
    · have hstart : n * instructionSize < pageSize := by
        simp only [instructionCapacity, instructionSize, pageSize] at hroom ⊢
        omega
      have ha := toNat_pageBase_add id _ hid hstart
      rw [← toNat_pageBase id hid] at ha
      have hdvd := four_dvd_pageBase id hid
      rw [strided_cons _ n i is hroom, List.map_cons, List.cons_append, Packed, Item.stop, ha,
        Nat.add_assoc, ← Nat.succ_mul]
      -- No padding is needed between instructions: each ends at a multiple of their size.
      refine ⟨⟨⟨Nat.le_refl _, ?_⟩, fun x hx => hx.1⟩, ih (n + 1) hroom h⟩
      simp only [instructionSize]
      omega
    · have hfull : n = instructionCapacity := by omega
      have hmin : min (n + 1 + is.length) instructionCapacity = n := by omega
      rw [hmin] at h
      rw [strided_full _ n _ (by omega)]
      exact h

theorem layOut_items (m : Module) (id : Nat) :
    (m.layOut id).page.items =
      ((m.placeInstructions (pageBase id)).map fun q => ⟨q.2, instructionSize⟩)
        ++ (m.placeLiterals (pageBase id)).1.map fun q => ⟨q.2, q.1.width.bytes⟩ := by
  simp [Page.items, Module.layOut, LoadedInstruction.item, PlacedLiteral.item, Function.comp_def]

/-- The items of a page are packed from its base on. -/
theorem layOut_packed (m : Module) (id : Nat) (hid : id ≤ maxPage) :
    Packed (pageBase id).toNat (m.layOut id).page.items := by
  rw [layOut_items]
  have h := packed_instructions id hid m.instructions 0 (Nat.zero_le _)
    ((m.placeLiterals (pageBase id)).1.map fun q => ⟨q.2, q.1.width.bytes⟩)
  rw [Nat.zero_mul, Nat.add_zero, Nat.zero_add] at h
  apply h
  simp only [Module.placeLiterals]
  split_ifs with hfit
  · rw [Nat.min_eq_left hfit]
    exact packed_literals id hid m.literals _
  · trivial

theorem layOut_within (m : Module) (id : Nat) (hid : id ≤ maxPage) :
    ∀ q ∈ (m.layOut id).page.items,
      (pageBase id).toNat ≤ q.address.toNat ∧ q.stop ≤ (pageBase id).toNat + pageSize := by
  intro q hq
  -- Each item is given by its offset into the page.
  have hoffset (a : Address) (size start : Nat) (hsize : 0 < size) (hs : start + size ≤ pageSize)
      (ha : a = pageBase id + BitVec.ofNat 32 start) :
      (pageBase id).toNat ≤ a.toNat ∧ a.toNat + size ≤ (pageBase id).toNat + pageSize := by
    have hn := toNat_pageBase_add id start hid (by omega)
    rw [← toNat_pageBase id hid, ← ha] at hn
    omega
  rw [layOut_items, List.mem_append] at hq
  rcases hq with hq | hq
  · obtain ⟨p, hp, rfl⟩ := List.mem_map.mp hq
    obtain ⟨start, hs, ha⟩ := placeInstructions_within m _ p hp
    have hpos : 0 < instructionSize := by decide
    exact hoffset p.2 _ start hpos hs ha
  · obtain ⟨p, hp, rfl⟩ := List.mem_map.mp hq
    obtain ⟨start, hs, ha⟩ := placeLiterals_within m _ p hp
    exact hoffset p.2 _ start (width_bytes_pos _) hs ha

-- How a page holds a module.
structure Page.LaidOut (page : Page) (id : Nat) (m : Module) : Prop where
  -- The instructions stand at their stride, as many of them as there is room for.
  instruction : ∀ n : Nat, page.instructions[n]? =
    (m.instructions.take instructionCapacity)[n]?.map fun k =>
      ⟨pageBase id + BitVec.ofNat 32 (n * instructionSize),
        pageBase id + BitVec.ofNat 32 (n * instructionSize) + BitVec.ofNat 32 instructionSize,
        k.instruction, k.span⟩
  -- The literals stand in their order, until one finds no room.
  literals_in_order : (page.literals.map fun l => (l.value, l.width)) <+:
    m.literals.map fun l => (l.value, l.width)
  -- A module that fits is there as a whole.
  complete : m.extent ≤ pageSize → page.instructions.size = m.instructions.length ∧
    page.literals.length = m.literals.length
  packed : Packed (pageBase id).toNat page.items
  on_page : ∀ q ∈ page.items,
    (pageBase id).toNat ≤ q.address.toNat ∧ q.stop ≤ (pageBase id).toNat + pageSize
  below_stack : ∀ q ∈ page.items, q.stop ≤ initialStack.toNat

theorem layOut_laidOut (m : Module) (id : Nat) (hid : id ≤ maxPage) :
    (m.layOut id).page.LaidOut id m where
  instruction := layOut_getElem m id
  literals_in_order := by
    have hplaced : (m.placeLiterals (pageBase id)).1.map Prod.fst <+: m.literals := by
      simp only [Module.placeLiterals]
      split_ifs with h
      · exact placeFrom_isPrefix _ _ _
      · exact List.nil_prefix
    have hmap := hplaced.map fun l => (l.value, l.width)
    simpa [Module.layOut, Function.comp_def] using hmap
  complete := by
    intro h
    obtain ⟨hi, hl⟩ := placed_all m (pageBase id) h
    have hi' := congrArg List.length hi
    have hl' := congrArg List.length hl
    rw [List.length_map] at hi' hl'
    simpa [Module.layOut] using And.intro hi' hl'
  packed := layOut_packed m id hid
  on_page := layOut_within m id hid
  below_stack := by
    intro q hq
    have hend := page_end_le id hid
    have hq' := layOut_within m id hid q hq
    rw [toNat_pageBase id hid] at hq'
    omega

/-- The pages of a program are the layouts of the modules assigned to them. -/
theorem mem_link_pages (modules : List Module) (page : Page) :
    page ∈ (link modules).program.pages ↔
      ∃ id m, id ≤ maxPage ∧ (id, m) ∈ assignPages modules ∧ page = (m.layOut id).page := by
  rw [link_pages, List.mem_map]
  constructor
  · intro h
    obtain ⟨⟨id, m⟩, hq, rfl⟩ := h
    have hid := moduleOn_le_maxPage modules id m ((mem_assignPages modules id m).mp hq)
    exact ⟨id, m, hid, hq, rfl⟩
  · intro h
    obtain ⟨id, m, -, hq, rfl⟩ := h
    exact ⟨(id, m), hq, rfl⟩

/-- No two items of a linked program overlap. -/
theorem link_items_apart (modules : List Module) :
    (link modules).program.items.Pairwise fun q q' => q.stop ≤ q'.address.toNat := by
  have hid (q : Nat × Module) (hq : q ∈ assignPages modules) : q.1 ≤ maxPage :=
    moduleOn_le_maxPage modules q.1 q.2 ((mem_assignPages modules q.1 q.2).mp hq)
  rw [Program.items, List.pairwise_flatMap, link_pages]
  constructor
  · intro page hpage
    obtain ⟨q, hq, rfl⟩ := List.mem_map.mp hpage
    exact packed_pairwise _ _ (layOut_packed q.2 q.1 (hid q hq))
  · rw [List.pairwise_map]
    -- An item ends on its page, and the pages behind it start behind the end of that page.
    refine (assignPages_ascending modules).imp_of_mem ?_
    intro p p' hp hp' hlt q hq q' hq'
    have hstop := (layOut_within p.2 p.1 (hid p hp) q hq).2
    have hstart := (layOut_within p'.2 p'.1 (hid p' hp') q' hq').1
    rw [toNat_pageBase p.1 (hid p hp)] at hstop
    rw [toNat_pageBase p'.1 (hid p' hp')] at hstart
    simp only [pageSize] at hstop hstart
    omega

/-- A page hands out an instruction at its address only. -/
theorem layOut_fetch (m : Module) (id : Nat) (a : Address) (i : LoadedInstruction) :
    (m.layOut id).page.fetch? a = some i ↔
      i ∈ (m.layOut id).page.instructions ∧ i.address = a := by
  have hbase : (m.layOut id).page.base = pageBase id := rfl
  rw [Page.fetch?, hbase]
  constructor
  · intro h
    split_ifs at h with haligned
    refine ⟨Array.mem_of_getElem? h, ?_⟩
    rw [layOut_getElem] at h
    obtain ⟨k, -, rfl⟩ := Option.map_eq_some_iff.mp h
    have hmul : (a - pageBase id).toNat / instructionSize * instructionSize =
        (a - pageBase id).toNat := Nat.div_mul_cancel (Nat.dvd_of_mod_eq_zero haligned)
    simp only [hmul, BitVec.ofNat_toNat, BitVec.setWidth_eq]
    rw [BitVec.add_comm, BitVec.sub_add_cancel]
  · intro h
    obtain ⟨hi, rfl⟩ := h
    obtain ⟨n, hn⟩ := Array.mem_iff_getElem?.mp hi
    have hn' := hn
    rw [layOut_getElem] at hn'
    obtain ⟨k, hk, rfl⟩ := Option.map_eq_some_iff.mp hn'
    obtain ⟨hlt, -⟩ := List.getElem?_eq_some_iff.mp hk
    have hcap : n < instructionCapacity := Nat.lt_of_lt_of_le hlt (List.length_take_le _ _)
    have hoffset : (pageBase id + BitVec.ofNat 32 (n * instructionSize) - pageBase id).toNat =
        n * instructionSize := by
      apply toNat_add_sub_self
      simp only [instructionCapacity, instructionSize, pageSize, wordCount] at hcap ⊢
      omega
    have hpos : 0 < instructionSize := by decide
    simp only [hoffset, Nat.mul_mod_left, ↓reduceIte, Nat.mul_div_cancel n hpos]
    exact hn

/-- Traps lie on no page. -/
theorem trap_at_none_of_pageOf (a : Address) (id : Nat) (h : pageOf? a = some id) :
    Trap.at? a = none := by
  cases ht : Trap.at? a with
  | none => rfl
  | some t =>
    have hnone := pageOf_trap t
    rw [← (trap_at_iff a t).mp ht, h] at hnone
    contradiction

/-- On a page that a module was given, fetching is left to the layout of the module. -/
theorem link_fetch_on_page (modules : List Module) (id : Nat) (m : Module) (a : Address)
    (hm : (id, m) ∈ assignPages modules) (ha : pageOf? a = some id) :
    (link modules).program.fetch? a = (m.layOut id).page.fetch? a := by
  have htrap := trap_at_none_of_pageOf a id ha
  have hon := (mem_assignPages modules id m).mp hm
  rw [fetch_beside_traps _ a htrap, link_pageAt, ha, Option.bind_some, hon, Option.map_some,
    Option.bind_some]

/-- An address within an item belongs to the page of that item. -/
theorem pageOf_item (m : Module) (id : Nat) (hid : id ≤ maxPage) (q : Item) (a : Address)
    (hq : q ∈ (m.layOut id).page.items) (ha : q.Covers a) : pageOf? a = some id := by
  obtain ⟨hstart, hstop⟩ := layOut_within m id hid q hq
  obtain ⟨hle, hlt⟩ := ha
  exact pageOf_within id a hid (by omega) (by omega)

theorem item_covers_start (i : LoadedInstruction) : i.item.Covers i.address := by
  have hpos : 0 < instructionSize := by decide
  simp only [Item.Covers, Item.stop, LoadedInstruction.item]
  omega

theorem instruction_mem_items (page : Page) (i : LoadedInstruction) (h : i ∈ page.instructions) :
    i.item ∈ page.items :=
  List.mem_append_left _ (List.mem_map_of_mem (Array.mem_toList_iff.mpr h))

theorem literal_mem_items (page : Page) (l : PlacedLiteral) (h : l ∈ page.literals) :
    l.item ∈ page.items :=
  List.mem_append_right _ (List.mem_map_of_mem h)

/-- What can be fetched at an address is the trap that it is reserved for, or the instruction that was
placed there. -/
theorem link_fetch (modules : List Module) (a : Address) (i : LoadedInstruction) :
    (link modules).program.fetch? a = some i ↔
      (∃ t : Trap, a = t.address ∧ i = t.loaded) ∨
        ∃ page ∈ (link modules).program.pages, i ∈ page.instructions ∧ i.address = a := by
  constructor
  · intro h
    cases ht : Trap.at? a with
    | some t =>
      simp only [Program.fetch?, ht, Option.some.injEq] at h
      exact Or.inl ⟨t, (trap_at_iff a t).mp ht, h.symm⟩
    | none =>
      rw [fetch_beside_traps _ a ht, link_pageAt] at h
      obtain ⟨page, hpage, hi⟩ := Option.bind_eq_some_iff.mp h
      obtain ⟨id, -, hmap⟩ := Option.bind_eq_some_iff.mp hpage
      obtain ⟨m, hm, rfl⟩ := Option.map_eq_some_iff.mp hmap
      have hid := moduleOn_le_maxPage modules id m hm
      refine Or.inr ⟨_, ?_, (layOut_fetch m id a i).mp hi⟩
      exact (mem_link_pages modules _).mpr
        ⟨id, m, hid, (mem_assignPages modules id m).mpr hm, rfl⟩
  · intro h
    rcases h with ⟨t, rfl, rfl⟩ | ⟨page, hpage, hi, rfl⟩
    · simp only [Program.fetch?, (trap_at_iff t.address t).mpr rfl]
    · -- The address leads back to the page that the instruction was placed on.
      obtain ⟨id, m, hid, hm, rfl⟩ := (mem_link_pages modules page).mp hpage
      have ha := pageOf_item m id hid _ i.address (instruction_mem_items _ i hi) (item_covers_start i)
      rw [link_fetch_on_page modules id m i.address hm ha]
      exact (layOut_fetch m id i.address i).mpr ⟨hi, rfl⟩

/-- Nothing is fetched inside a literal. -/
theorem link_fetch_literal (modules : List Module) (page : Page) (l : PlacedLiteral) (a : Address)
    (hpage : page ∈ (link modules).program.pages) (hl : l ∈ page.literals) (ha : l.item.Covers a) :
    (link modules).program.fetch? a = none := by
  obtain ⟨id, m, hid, hm, rfl⟩ := (mem_link_pages modules page).mp hpage
  have hon := pageOf_item m id hid _ a (literal_mem_items _ l hl) ha
  rw [link_fetch_on_page modules id m a hm hon, Option.eq_none_iff_forall_ne_some]
  intro i hi
  obtain ⟨hmem, rfl⟩ := (layOut_fetch m id a i).mp hi
  -- The instruction would end in front of the literal that its first byte belongs to.
  have hapart := packed_pairwise _ _ (layOut_packed m id hid)
  rw [Page.items, List.pairwise_append] at hapart
  have hstop := hapart.2.2 i.item (List.mem_map_of_mem (Array.mem_toList_iff.mpr hmem)) l.item
    (List.mem_map_of_mem hl)
  have hstart := item_covers_start i
  simp only [Item.Covers] at ha hstart
  omega

/-- Instructions are fetched at multiples of their size only. -/
theorem link_fetch_aligned (modules : List Module) (a : Address) (i : LoadedInstruction)
    (h : (link modules).program.fetch? a = some i) : instructionSize ∣ a.toNat := by
  rcases (link_fetch modules a i).mp h with ⟨t, rfl, -⟩ | ⟨page, hpage, hi, rfl⟩
  · cases t <;> decide
  · obtain ⟨id, m, hid, -, rfl⟩ := (mem_link_pages modules page).mp hpage
    exact packed_dvd _ _ (layOut_packed m id hid) i.item (instruction_mem_items _ i hi)

theorem link_fetch_covered (modules : List Module) (a : Address) (i : LoadedInstruction)
    (h : (link modules).program.fetch? a = some i) (ht : ∀ t : Trap, a ≠ t.address) :
    ∃ q ∈ (link modules).program.items, q.Covers a := by
  rcases (link_fetch modules a i).mp h with ⟨t, ha, -⟩ | ⟨page, hpage, hi, rfl⟩
  · exact absurd ha (ht t)
  · exact ⟨i.item, List.mem_flatMap.mpr ⟨page, hpage, instruction_mem_items page i hi⟩,
      item_covers_start i⟩

/-- The layout of a linked program, whatever problems its modules have. Every page holds its module
packed, inside the page and below the stack, and every module that was given a page is there, placed
without an overflow. No two items overlap. Exactly the traps and the placed instructions can be fetched,
each at its own address: never a byte of a literal, padding or a misaligned address. -/
theorem link_layout (modules : List Module) :
    (∀ page ∈ (link modules).program.pages,
      ∃ m, (page.id, m) ∈ assignPages modules ∧ page.LaidOut page.id m) ∧
    (∀ id m, (id, m) ∈ assignPages modules →
      (∃ page, (link modules).program.page? id = some page ∧ page.LaidOut id m) ∧
      m.place? (pageBase id) =
        some (m.placeInstructions (pageBase id), m.placeLiterals (pageBase id))) ∧
    ((link modules).program.items.Pairwise fun q q' => q.stop ≤ q'.address.toNat) ∧
    (∀ a i, (link modules).program.fetch? a = some i ↔
      (∃ t : Trap, a = t.address ∧ i = t.loaded) ∨
        ∃ page ∈ (link modules).program.pages, i ∈ page.instructions ∧ i.address = a) ∧
    (∀ a, (¬instructionSize ∣ a.toNat ∨
        (∃ page ∈ (link modules).program.pages, ∃ l ∈ page.literals, l.item.Covers a) ∨
        (∀ t : Trap, a ≠ t.address) ∧ ∀ q ∈ (link modules).program.items, ¬q.Covers a) →
      (link modules).program.fetch? a = none) := by
  refine ⟨?_, ?_, link_items_apart modules, link_fetch modules, ?_⟩
  · intro page hpage
    obtain ⟨id, m, hid, hm, rfl⟩ := (mem_link_pages modules page).mp hpage
    exact ⟨m, hm, layOut_laidOut m id hid⟩
  · intro id m hm
    have hon := (mem_assignPages modules id m).mp hm
    have hid := moduleOn_le_maxPage modules id m hon
    refine ⟨⟨(m.layOut id).page, ?_, layOut_laidOut m id hid⟩, place_eq m id hid⟩
    rw [link_page, hon, Option.map_some]
  · intro a h
    rw [Option.eq_none_iff_forall_ne_some]
    intro i hi
    rcases h with h | ⟨page, hpage, l, hl, ha⟩ | ⟨ht, h⟩
    · exact h (link_fetch_aligned modules a i hi)
    · rw [link_fetch_literal modules page l a hpage hl ha] at hi
      contradiction
    · obtain ⟨q, hq, ha⟩ := link_fetch_covered modules a i hi ht
      exact h q hq ha

end PagedMachine
