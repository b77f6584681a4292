import Mathlib.Algebra.Group.Nat.Defs
import Mathlib.Data.List.Flatten
import Mathlib.Data.List.Pairwise
import Mathlib.Tactic.SplitIfs
import PagedMachine.Memory.Extent
import PagedMachine.Proofs.LabelSafety
import PagedMachine.Proofs.Memory
import PagedMachine.Proofs.Placement

/-! The memory that a run starts with. Literals keep apart and are aligned, so each of them leaves its own
bytes and nothing else, in whatever order they are written. A literal that holds an unknown label leaves
nothing, and linking does not look for such labels. -/
namespace PagedMachine

-- Whether a value written from `a` on, the most significant of its low bytes first, has the byte `v` at `b`.
def Width.Spells (w : Width) (a : Address) (value : Word) (b : Address) (v : Byte) : Prop :=
  ∃ i < w.bytes, b = a + BitVec.ofNat 32 i ∧ v.toNat = value.toNat / 256 ^ (w.bytes - 1 - i) % 256

-- Whether a literal stands for a number: the one it holds, or the address of the label it holds, as seen
-- from where the literal stands.
def Program.Denotes (p : Program) (l : PlacedLiteral) (value : Word) : Prop :=
  l.value = .number value ∨
    ∃ label, l.value = .address label ∧ p.resolve? l.address label = some value

-- Whether one of some literals has the byte `v` at `b`.
def Program.Fills (p : Program) (ls : List PlacedLiteral) (b : Address) (v : Byte) : Prop :=
  ∃ l ∈ ls, ∃ value, p.Denotes l value ∧ l.width.Spells l.address value b v

def PlacedLiteral.Covers (l : PlacedLiteral) (b : Address) : Prop :=
  l.width.Covers l.address b

def PlacedLiteral.Apart (l l' : PlacedLiteral) : Prop :=
  ∀ b, l.Covers b → ¬l'.Covers b

instance : Std.Symm PlacedLiteral.Apart where
  symm _ _ h b hb' hb := h b hb hb'

theorem literal_covers_start (l : PlacedLiteral) : l.Covers l.address := by
  rw [PlacedLiteral.Covers, Width.Covers, BitVec.sub_self]
  exact width_bytes_pos l.width

theorem extract_byte_eq_iff (value : Word) (k : Nat) (v : Byte) :
    value.extractLsb' (8 * k) 8 = v ↔ v.toNat = value.toNat / 256 ^ k % 256 := by
  have hpow : 2 ^ (8 * k) = 256 ^ k := by rw [Nat.pow_mul]
  rw [← BitVec.toNat_inj, BitVec.extractLsb'_toNat, Nat.shiftRight_eq_div_pow, hpow, eq_comm]

/-- A value spells exactly the bytes that writing it stores. -/
theorem spells_iff (w : Width) (a b : Address) (value : Word) (v : Byte) :
    w.Spells a value b v ↔
      w.Covers a b ∧ value.extractLsb' (8 * (w.bytes - 1 - (b - a).toNat)) 8 = v := by
  have hle := width_bytes_le w
  constructor
  · rintro ⟨i, hi, rfl, hv⟩
    refine ⟨(covers_iff w a _).mpr ⟨i, hi, rfl⟩, ?_⟩
    rw [toNat_add_sub_self a i (by omega)]
    exact (extract_byte_eq_iff value _ v).mpr hv
  · rintro ⟨hc, hv⟩
    obtain ⟨i, hi, rfl⟩ := (covers_iff w a b).mp hc
    rw [toNat_add_sub_self a i (by omega)] at hv
    exact ⟨i, hi, rfl, (extract_byte_eq_iff value _ v).mp hv⟩

/-- A write where nothing is stored adds the bytes of its value. -/
theorem get_write_fresh (m : Memory) (w : Width) (a b : Address) (value : Word) (v : Byte)
    (h : ∀ c, w.Covers a c → m.get? c = none) :
    (m.write w a value).get? b = some v ↔ w.Spells a value b v ∨ m.get? b = some v := by
  rw [get_write, spells_iff]
  split_ifs with hc
  · rw [h b hc, Option.some_inj]
    simp [hc]
  · simp [hc]

/-- The value written for a literal is the one it denotes. -/
theorem literalValue_eq_some (p : Program) (l : PlacedLiteral) (value : Word) :
    p.literalValue? l = some value ↔ p.Denotes l value := by
  cases hl : l.value with
  | number w => simp [Program.literalValue?, Program.Denotes, hl]
  | address label => simp [Program.literalValue?, Program.Denotes, hl]

/-- Writing a literal that stands for nothing leaves the memory as it is. -/
theorem writeLiteral_cases (p : Program) (m : Memory) (l : PlacedLiteral) :
    (∃ value, p.Denotes l value ∧ p.writeLiteral m l = m.write l.width l.address value) ∨
      (∀ value, ¬p.Denotes l value) ∧ p.writeLiteral m l = m := by
  cases hv : p.literalValue? l with
  | some value =>
    exact Or.inl ⟨value, (literalValue_eq_some p l value).mp hv, by simp only [Program.writeLiteral, hv]⟩
  | none =>
    refine Or.inr ⟨?_, by simp only [Program.writeLiteral, hv]⟩
    intro value hd
    rw [(literalValue_eq_some p l value).mpr hd] at hv
    contradiction

theorem denotes_unique (p : Program) (l : PlacedLiteral) (value value' : Word)
    (h : p.Denotes l value) (h' : p.Denotes l value') : value = value' := by
  rw [← literalValue_eq_some] at h h'
  exact Option.some.inj (h.symm.trans h')

theorem get_writeLiteral (p : Program) (m : Memory) (l : PlacedLiteral) (b : Address) (v : Byte)
    (h : ∀ c, l.Covers c → m.get? c = none) :
    (p.writeLiteral m l).get? b = some v ↔ p.Fills [l] b v ∨ m.get? b = some v := by
  simp only [Program.Fills, List.mem_singleton, exists_eq_left]
  rcases writeLiteral_cases p m l with ⟨value, hd, he⟩ | ⟨hnone, he⟩
  · rw [he, get_write_fresh m _ _ b value v h]
    constructor
    · rintro (hs | hm)
      · exact Or.inl ⟨value, hd, hs⟩
      · exact Or.inr hm
    · rintro (⟨value', hd', hs⟩ | hm)
      · rw [denotes_unique p l value value' hd hd']
        exact Or.inl hs
      · exact Or.inr hm
  · rw [he]
    simp [hnone]

theorem get_writeLiteral_outside (p : Program) (m : Memory) (l : PlacedLiteral) (b : Address)
    (h : ¬l.Covers b) : (p.writeLiteral m l).get? b = m.get? b := by
  rcases writeLiteral_cases p m l with ⟨value, -, he⟩ | ⟨-, he⟩
  · rw [he, get_write]
    exact if_neg h
  · rw [he]

/-- Literals that keep apart, written where nothing is stored, add the bytes of those that stand for a
number. -/
theorem get_foldl_writeLiteral (p : Program) (ls : List PlacedLiteral) (m : Memory)
    (ha : ls.Pairwise PlacedLiteral.Apart) (hm : ∀ l ∈ ls, ∀ c, l.Covers c → m.get? c = none)
    (b : Address) (v : Byte) :
    (ls.foldl p.writeLiteral m).get? b = some v ↔ p.Fills ls b v ∨ m.get? b = some v := by
  induction ls generalizing m with
  | nil => simp [Program.Fills]
  | cons l ls ih =>
    obtain ⟨hl, hls⟩ := List.pairwise_cons.mp ha
    obtain ⟨hfresh, hrest⟩ := List.forall_mem_cons.mp hm
    -- The bytes of the literals to come are still missing once this one is written.
    have hrest' : ∀ k ∈ ls, ∀ c, k.Covers c → (p.writeLiteral m l).get? c = none := by
      intro k hk c hc
      rw [get_writeLiteral_outside p m l c (fun hc' => hl k hk c hc' hc)]
      exact hrest k hk c hc
    rw [List.foldl_cons, ih _ hls hrest', get_writeLiteral p m l b v hfresh]
    simp only [Program.Fills, List.exists_mem_cons_iff, List.not_mem_nil, false_and, exists_false,
      or_false]
    rw [or_left_comm, or_assoc]

-- No warning, no report and no draw: what is not a byte is carried along as it is.
theorem foldl_writeLiteral_eq (p : Program) (ls : List PlacedLiteral) (m : Memory)
    (h : ∀ l ∈ ls, l.width.bytes ∣ l.address.toNat) :
    ls.foldl p.writeLiteral m = m.withContents (ls.foldl p.writeLiteral m) := by
  induction ls generalizing m with
  | nil => rfl
  | cons l ls ih =>
    obtain ⟨hl, hls⟩ := List.forall_mem_cons.mp h
    rw [List.foldl_cons, ih _ hls]
    rcases writeLiteral_cases p m l with ⟨value, -, he⟩ | ⟨-, he⟩
    · rw [he, write_aligned m _ _ value hl]
      rfl
    · rw [he]
      rfl

theorem mem_link_literals (modules : List Module) (l : PlacedLiteral) :
    l ∈ (link modules).program.literals ↔
      ∃ id m, id ≤ maxPage ∧ (id, m) ∈ assignPages modules ∧ l ∈ (m.layOut id).page.literals := by
  rw [Program.literals, List.mem_flatMap]
  constructor
  · rintro ⟨page, hpage, hl⟩
    obtain ⟨id, m, hid, hm, rfl⟩ := (mem_link_pages modules page).mp hpage
    exact ⟨id, m, hid, hm, hl⟩
  · rintro ⟨id, m, hid, hm, hl⟩
    exact ⟨_, (mem_link_pages modules _).mpr ⟨id, m, hid, hm, rfl⟩, hl⟩

/-- Pages end below the stack, so no literal wraps around. -/
theorem literal_covers_item (m : Module) (id : Nat) (hid : id ≤ maxPage) (l : PlacedLiteral)
    (hl : l ∈ (m.layOut id).page.literals) (b : Address) (hb : l.Covers b) : l.item.Covers b := by
  have hstop := (layOut_laidOut m id hid).below_stack l.item (literal_mem_items _ l hl)
  have hstack := initialStack.isLt
  simp only [PlacedLiteral.Covers, Width.Covers] at hb
  simp only [Item.Covers, Item.stop, PlacedLiteral.item] at hstop ⊢
  -- The distance from the literal's address is the difference of the numbers, without a borrow.
  bv_omega

/-- The literals of a program do not overlap. -/
theorem link_literals_apart (modules : List Module) :
    (link modules).program.literals.Pairwise PlacedLiteral.Apart := by
  have hitems := link_items_apart modules
  -- The literals are some of the items, so it is left to go from items back to bytes.
  have hsub : ((link modules).program.literals.map (·.item)).Sublist (link modules).program.items := by
    rw [Program.literals, List.map_flatMap, Program.items]
    exact List.Sublist.flatMap_right _ fun page _ => List.sublist_append_right _ _
  refine (List.pairwise_map.mp (hitems.sublist hsub)).imp_of_mem ?_
  intro l l' hl hl' hstop b hb hb'
  obtain ⟨id, m, hid, -, hl⟩ := (mem_link_literals modules l).mp hl
  obtain ⟨id', m', hid', -, hl'⟩ := (mem_link_literals modules l').mp hl'
  have hc := literal_covers_item m id hid l hl b hb
  have hc' := literal_covers_item m' id' hid' l' hl' b hb'
  simp only [Item.Covers] at hc hc'
  omega

theorem link_literals_aligned (modules : List Module) :
    ∀ l ∈ (link modules).program.literals, l.width.bytes ∣ l.address.toNat := by
  intro l hl
  obtain ⟨id, m, hid, -, hl⟩ := (mem_link_literals modules l).mp hl
  exact packed_dvd _ _ (layOut_packed m id hid) l.item (literal_mem_items _ l hl)

theorem pageOf_literal (m : Module) (id : Nat) (hid : id ≤ maxPage) (l : PlacedLiteral)
    (hl : l ∈ (m.layOut id).page.literals) : pageOf? l.address = some id := by
  apply pageOf_item m id hid l.item l.address (literal_mem_items _ l hl)
  exact literal_covers_item m id hid l hl l.address (literal_covers_start l)

/-- The asking page of a label in a literal is the one that the literal was placed on. -/
theorem link_literal_page (modules : List Module) (page : Page)
    (hpage : page ∈ (link modules).program.pages) (l : PlacedLiteral) (hl : l ∈ page.literals) :
    (link modules).program.pageAt? l.address = some page := by
  obtain ⟨id, m, hid, hm, rfl⟩ := (mem_link_pages modules page).mp hpage
  rw [link_pageAt, pageOf_literal m id hid l hl, Option.bind_some,
    (mem_assignPages modules id m).mp hm, Option.map_some]

/-- In whatever order the literals of a linked program are written, exactly their bytes are stored. -/
theorem get_literals_written (modules : List Module) (r : Entropy) (ls : List PlacedLiteral)
    (h : ls.Perm (link modules).program.literals) (b : Address) (v : Byte) :
    (ls.foldl (link modules).program.writeLiteral (Memory.empty r)).get? b = some v ↔
      (link modules).program.Fills (link modules).program.literals b v := by
  have ha : ls.Pairwise PlacedLiteral.Apart :=
    (h.pairwise_iff symm).mpr (link_literals_apart modules)
  rw [get_foldl_writeLiteral _ ls (Memory.empty r) ha (fun _ _ c _ => get_empty r c), get_empty]
  simp only [reduceCtorEq, or_false, Program.Fills, h.mem_iff]

/-- The order in which the literals are written does not matter. -/
theorem literals_written_perm (modules : List Module) (r : Entropy) (ls : List PlacedLiteral)
    (h : ls.Perm (link modules).program.literals) :
    ls.foldl (link modules).program.writeLiteral (Memory.empty r) =
      (link modules).program.writeLiterals (Memory.empty r) := by
  have haligned := link_literals_aligned modules
  have hbytes : (ls.foldl (link modules).program.writeLiteral (Memory.empty r)).bytes =
      ((link modules).program.writeLiterals (Memory.empty r)).bytes := by
    -- Both have the same byte at every address, and this is all there is to a map.
    apply Std.ExtTreeMap.ext_getElem?
    intro b
    apply Option.ext
    intro v
    exact (get_literals_written modules r ls h b v).trans
      (get_literals_written modules r _ (List.Perm.refl _) b v).symm
  rw [foldl_writeLiteral_eq _ ls _ (fun l hl => haligned l (h.mem_iff.mp hl)),
    withContents_congr _ _ _ hbytes]
  exact (foldl_writeLiteral_eq _ _ _ haligned).symm

/-- A page of a module that fits has each literal of the module. -/
theorem layOut_literals (m : Module) (id : Nat) (hid : id ≤ maxPage) (h : m.extent ≤ pageSize) :
    (m.layOut id).page.literals.map (fun l => (l.value, l.width)) =
      m.literals.map fun k => (k.value, k.width) := by
  have hlaid := layOut_laidOut m id hid
  have hlength := (hlaid.complete h).2
  exact hlaid.literals_in_order.eq_of_length (by simpa using hlength)

theorem layOut_literal_values (m : Module) (id : Nat) (hid : id ≤ maxPage) (h : m.extent ≤ pageSize) :
    (m.layOut id).page.literals.map (·.value) = m.literals.map (·.value) := by
  simpa [Function.comp_def] using congrArg (List.map Prod.fst) (layOut_literals m id hid h)

/-- The pages of a linked program have the literals of the modules that fit, in their order. -/
theorem link_page_literals (modules : List Module) (id : Nat) (m : Module)
    (hm : (id, m) ∈ assignPages modules) (hid : id ≤ maxPage) (hfits : m.extent ≤ pageSize) :
    ∃ page ∈ (link modules).program.pages, page.id = id ∧
      page.literals.map (fun l => (l.value, l.width)) = m.literals.map fun k => (k.value, k.width) :=
  ⟨(m.layOut id).page, (mem_link_pages modules _).mpr ⟨id, m, hid, hm, rfl⟩, layOut_id m id,
    layOut_literals m id hid hfits⟩

/-- The bytes of all literals are those of the literals on each page. -/
theorem fills_iff_pages (p : Program) (b : Address) (v : Byte) :
    p.Fills p.literals b v ↔ ∃ page ∈ p.pages, p.Fills page.literals b v := by
  simp only [Program.Fills, Program.literals, List.mem_flatMap]
  constructor
  · rintro ⟨l, ⟨page, hpage, hl⟩, hfills⟩
    exact ⟨page, hpage, l, hl, hfills⟩
  · rintro ⟨page, hpage, l, hl, hfills⟩
    exact ⟨l, ⟨page, hpage, hl⟩, hfills⟩

/-- Loading writes the literals and then the return slot to an empty memory, and hands over the warnings
that this raised. -/
theorem load_memory (e : Engine) (p : Program) :
    let m := (p.writeLiterals (Memory.empty e.machine.memory.entropy)).write .word e.config.stack
      Trap.outermostReturn.address
    (e.load p).machine.memory = { m with warnings := #[] } ∧
      (e.load p).warnings.toList = m.warnings.toList.map (Diagnostic.mk · none) := by
  have hslot : e.config.stack + returnSlotOffset = e.config.stack := BitVec.add_zero _
  have hstart (c : Config) (r : Entropy) :
      ((Machine.start c r).jump entryAddress).memory = Memory.empty r := rfl
  simp [Engine.load, Engine.start, Engine.collectWarnings, Memory.takeWarnings, hslot, hstart]

/-- Literals are aligned and nothing is read, so that only bytes change. -/
theorem literals_written_frame (modules : List Module) (r : Entropy) :
    ((link modules).program.writeLiterals (Memory.empty r)).warnings = #[] ∧
    ((link modules).program.writeLiterals (Memory.empty r)).misaligned = ∅ ∧
    ((link modules).program.writeLiterals (Memory.empty r)).entropy = r := by
  rw [Program.writeLiterals, foldl_writeLiteral_eq _ _ _ (link_literals_aligned modules)]
  exact ⟨rfl, rfl, rfl⟩

/-- A return slot that no literal reaches into is added to the bytes of the literals. -/
theorem get_load (modules : List Module) (e : Engine)
    (hslot : ∀ l ∈ (link modules).program.literals, ∀ b, l.Covers b →
      ¬Width.word.Covers e.config.stack b) (b : Address) (v : Byte) :
    (e.load (link modules).program).machine.memory.get? b = some v ↔
      Width.word.Spells e.config.stack Trap.outermostReturn.address b v ∨
        (link modules).program.Fills (link modules).program.literals b v := by
  have hget := get_literals_written modules e.machine.memory.entropy _ (List.Perm.refl _)
  rw [(load_memory e _).1]
  refine (get_write_fresh _ _ _ b _ v ?_).trans (or_congr_right (hget b v))
  -- A stored byte in the slot would be one of a literal.
  intro c hc
  rw [Option.eq_none_iff_forall_ne_some]
  intro v' hv'
  obtain ⟨l, hl, value, -, hs⟩ := (hget c v').mp hv'
  exact hslot l hl c ((spells_iff _ _ _ _ _).mp hs).1 hc

theorem load_log (modules : List Module) (e : Engine) :
    (e.load (link modules).program).warnings.toList =
      if 4 ∣ e.config.stack.toNat then [] else [⟨.unaligned e.config.stack .word, none⟩] := by
  obtain ⟨hwarnings, hmisaligned, -⟩ := literals_written_frame modules e.machine.memory.entropy
  rw [(load_memory e _).2, write_warnings _ _ _ _ hmisaligned, hwarnings, Width.bytes]
  split_ifs <;> rfl

/-- The initial memory is exact, whatever problems the modules have. The page of a module that fits has the
literals of the module, and every literal stands on the page that its label is looked up from. Written to an
empty memory, in whatever order, the literals of all pages leave the big-endian bytes of those that hold a
number or a label that resolves, nothing else, no warning, and the generator as it was. And loading adds the
outermost return address in a return slot that no literal reaches into, and nothing else; it warns only about
a slot that is not aligned. -/
theorem initial_memory_exact (modules : List Module) (r : Entropy) :
    let p := (link modules).program
    (∀ id m, (id, m) ∈ assignPages modules → id ≤ maxPage → m.extent ≤ pageSize →
      ∃ page ∈ p.pages, page.id = id ∧
        page.literals.map (fun l => (l.value, l.width)) = m.literals.map fun k => (k.value, k.width)) ∧
    (∀ page ∈ p.pages, ∀ l ∈ page.literals, p.pageAt? l.address = some page) ∧
    (∀ b v, (p.writeLiterals (Memory.empty r)).get? b = some v ↔
      ∃ page ∈ p.pages, p.Fills page.literals b v) ∧
    (p.writeLiterals (Memory.empty r)).warnings = #[] ∧
    (p.writeLiterals (Memory.empty r)).misaligned = ∅ ∧
    (p.writeLiterals (Memory.empty r)).entropy = r ∧
    (∀ ls : List PlacedLiteral, ls.Perm (p.pages.flatMap (·.literals)) →
      ls.foldl p.writeLiteral (Memory.empty r) = p.writeLiterals (Memory.empty r)) ∧
    ∀ e : Engine,
      (∀ page ∈ p.pages, ∀ l ∈ page.literals, ∀ b, l.Covers b → ¬Width.word.Covers e.config.stack b) →
      (∀ b v, (e.load p).machine.memory.get? b = some v ↔
        Width.word.Spells e.config.stack Trap.outermostReturn.address b v ∨
          ∃ page ∈ p.pages, p.Fills page.literals b v) ∧
      (e.load p).machine.memory.entropy = e.machine.memory.entropy ∧
      (e.load p).machine.memory.warnings = #[] ∧
      (e.load p).warnings.toList =
        if 4 ∣ e.config.stack.toNat then [] else [⟨.unaligned e.config.stack .word, none⟩] := by
  intro p
  obtain ⟨hwarnings, hmisaligned, hentropy⟩ := literals_written_frame modules r
  refine ⟨link_page_literals modules, link_literal_page modules, ?_, hwarnings, hmisaligned, hentropy,
    literals_written_perm modules r, ?_⟩
  · intro b v
    rw [← fills_iff_pages]
    exact get_literals_written modules r _ (List.Perm.refl _) b v
  · intro e hslot
    have hapart : ∀ l ∈ p.literals, ∀ b, l.Covers b → ¬Width.word.Covers e.config.stack b := by
      intro l hl
      obtain ⟨page, hpage, hmem⟩ := List.mem_flatMap.mp hl
      exact hslot page hpage l hmem
    refine ⟨?_, ?_, ?_, load_log modules e⟩
    · intro b v
      rw [← fills_iff_pages]
      exact get_load modules e hapart b v
    · rw [(load_memory e _).1]
      exact (write_entropy _ _ _ _).trans (literals_written_frame modules _).2.2
    · rw [(load_memory e _).1]

/-- The stack that a run has by default is out of reach for literals. -/
theorem initialStack_apart (modules : List Module) (page : Page)
    (hpage : page ∈ (link modules).program.pages) (l : PlacedLiteral) (hl : l ∈ page.literals) (b : Address)
    (hb : l.Covers b) : ¬Width.word.Covers initialStack b := by
  obtain ⟨id, m, hid, -, rfl⟩ := (mem_link_pages modules page).mp hpage
  have hstop := (layOut_laidOut m id hid).below_stack l.item (literal_mem_items _ l hl)
  have hcovers := literal_covers_item m id hid l hl b hb
  have hstack : initialStack.toNat = 0x7fffff00 := by decide
  simp only [Item.Covers] at hcovers
  simp only [Width.Covers, Width.bytes]
  bv_omega

-- A module with a number, an address of its own and one of another module. The number does not fit into its
-- byte, and the other address not into its half.
def addressTable : List Module :=
  [{ name := "main"
     instructions := [⟨.nullary .nop, ["start"], none⟩]
     literals :=
      [⟨.number 0x1234, .byte, []⟩, ⟨.address "start", .word, []⟩, ⟨.address "seven", .half, []⟩]
     exports := []
     imports := ["seven"]
     isEntry := true },
    { name := "constants"
      instructions := [⟨.nullary .nop, [], none⟩]
      literals := [⟨.number 7, .word, ["seven"]⟩]
      exports := ["seven"]
      imports := []
      isEntry := false }]

/-- The number is cut down to its low byte, the address of `start` is 0x00400000 and that of `seven` is
0x00410004, of which the low half is stored; seven itself is on the second page, and nothing else but the
return slot is there. -/
theorem addressTable_initial_memory :
    let p := (link addressTable).program
    let m := ((Engine.start {} (.seeded 0)).load p).machine.memory
    (∀ page ∈ p.pages, ∀ l ∈ page.literals, ∀ b, l.Covers b → ¬Width.word.Covers initialStack b) ∧
    (∀ b v, m.get? b = some v ↔
      Width.word.Spells initialStack Trap.outermostReturn.address b v ∨
        ∃ page ∈ p.pages, p.Fills page.literals b v) ∧
    m.runs = [(0x00400004, [0x34]), (0x00400008, [0x00, 0x40, 0x00, 0x00, 0x00, 0x04]),
      (0x00410004, [0x00, 0x00, 0x00, 0x07]), (0x7fffff00, [0xff, 0xff, 0xff, 0x00])] := by
  intro p m
  have hslot := initialStack_apart addressTable
  obtain ⟨-, -, -, -, -, -, -, hload⟩ := initial_memory_exact addressTable (.seeded 0)
  refine ⟨hslot, (hload (Engine.start {} (.seeded 0)) hslot).1, ?_⟩
  decide +kernel

-- The labels in the literals of a module are all defined or imported by the module.
def Module.LiteralClosed (m : Module) : Prop :=
  ∀ k ∈ m.literals, ∀ label, k.value = .address label → label ∈ m.definedLabels ∨ label ∈ m.imports

/-- In a program without link problems, the labels that resolve from a literal are those that its module
defines or imports. -/
theorem literal_resolves_iff (modules : List Module) (h : Linkable modules) (id : Nat) (m : Module)
    (hid : id ≤ maxPage) (hm : moduleOn? modules id = some m) (l : PlacedLiteral)
    (hl : l ∈ (m.layOut id).page.literals) (label : Label) :
    ((link modules).program.resolve? l.address label).isSome = true ↔
      label ∈ m.definedLabels ∨ label ∈ m.imports := by
  have hon := pageOf_literal m id hid l hl
  have hfits := (h.tidy m (moduleOn_mem modules id m hm)).fits
  constructor
  · intro hs
    rw [link_resolve_linked modules _ label id m hon hm, Option.isSome_or, Bool.or_eq_true,
      address_isSome m id label hfits] at hs
    rcases hs with hd | hx
    · exact Or.inl hd
    · split_ifs at hx with himport
      · exact Or.inr himport
      · contradiction
  · exact linkable_resolves modules h _ id m hon hm label

/-- Every label in a literal resolves exactly if all modules define or import those that they mention. -/
theorem literals_resolve_iff (modules : List Module) (h : Linkable modules) :
    (∀ l ∈ (link modules).program.literals, ∀ label, l.value = .address label →
      ((link modules).program.resolve? l.address label).isSome = true) ↔
    ∀ m ∈ modules, m.LiteralClosed := by
  constructor
  · intro hall m hm k hk label hlabel
    -- Every module has a page, and each of its literals found room there.
    obtain ⟨id, hon⟩ := moduleOn_of_mem modules m h.one_entry h.enough_pages hm
    have hid := moduleOn_le_maxPage modules id m hon
    have hvalue : k.value ∈ (m.layOut id).page.literals.map (·.value) := by
      rw [layOut_literal_values m id hid (h.tidy m hm).fits]
      exact List.mem_map_of_mem hk
    obtain ⟨l, hl, hlk⟩ := List.mem_map.mp hvalue
    apply (literal_resolves_iff modules h id m hid hon l hl label).mp
    apply hall l _ label (hlk.trans hlabel)
    exact (mem_link_literals modules l).mpr
      ⟨id, m, hid, (mem_assignPages modules id m).mpr hon, hl⟩
  · intro hclosed l hl label hlabel
    obtain ⟨id, m, hid, hm, hl⟩ := (mem_link_literals modules l).mp hl
    have hon := (mem_assignPages modules id m).mp hm
    have hmem := moduleOn_mem modules id m hon
    have hvalue : l.value ∈ m.literals.map (·.value) := by
      rw [← layOut_literal_values m id hid (h.tidy m hmem).fits]
      exact List.mem_map_of_mem hl
    obtain ⟨k, hk, hkl⟩ := List.mem_map.mp hvalue
    apply (literal_resolves_iff modules h id m hid hon l hl label).mpr
    exact hclosed m hmem k hk label (hkl.trans hlabel)

/-- A byte of a literal is stored exactly if the literal stands for a number. -/
theorem literal_stored_iff (modules : List Module) (r : Entropy) (l : PlacedLiteral)
    (hl : l ∈ (link modules).program.literals) (b : Address) (hb : l.Covers b) :
    (((link modules).program.writeLiterals (Memory.empty r)).get? b).isSome = true ↔
      ∃ value, (link modules).program.Denotes l value := by
  have hget := get_literals_written modules r _ (List.Perm.refl _) b
  rw [Option.isSome_iff_exists]
  constructor
  · rintro ⟨v, hv⟩
    obtain ⟨l', hl', value, hd, hs⟩ := (hget v).mp hv
    have hb' : l'.Covers b := ((spells_iff _ _ _ _ _).mp hs).1
    -- No other literal has this byte.
    have hsame : l' = l := by
      by_contra hne
      exact (link_literals_apart modules).forall hl' hl hne b hb' hb
    exact ⟨value, hsame ▸ hd⟩
  · rintro ⟨value, hd⟩
    exact ⟨_, (hget _).mpr ⟨l, hl, value, hd, (spells_iff _ _ _ _ _).mpr ⟨hb, rfl⟩⟩⟩

theorem exists_denotes_iff (p : Program) (l : PlacedLiteral) :
    (∃ value, p.Denotes l value) ↔
      ∀ label, l.value = .address label → (p.resolve? l.address label).isSome = true := by
  cases hl : l.value with
  | number w => simp [Program.Denotes, hl]
  | address label => simp [Program.Denotes, hl, Option.isSome_iff_exists]

/-- A program that links without a problem leaves no literal unfilled exactly if its modules mention in
literals only labels that they define or import: then all of these labels resolve and every byte of
every literal is stored. -/
theorem literals_filled_iff_closed (modules : List Module) (hr : (link modules).isRunnable = true)
    (r : Entropy) :
    (∀ page ∈ (link modules).program.pages, ∀ l ∈ page.literals, ∀ label,
      ((link modules).program.resolve? l.address label).isSome = true ↔
        ∃ m, (page.id, m) ∈ assignPages modules ∧
          (label ∈ m.definedLabels ∨ label ∈ m.imports)) ∧
    ((∀ l ∈ (link modules).program.literals, ∀ label, l.value = .address label →
        ((link modules).program.resolve? l.address label).isSome = true) ↔
      ∀ m ∈ modules, m.LiteralClosed) ∧
    ((∀ l ∈ (link modules).program.literals, ∀ b, l.Covers b →
        (((link modules).program.writeLiterals (Memory.empty r)).get? b).isSome = true) ↔
      ∀ m ∈ modules, m.LiteralClosed) := by
  have hl := linkable_of_isRunnable modules hr
  refine ⟨?_, literals_resolve_iff modules hl, ?_⟩
  · intro page hpage l hmem label
    obtain ⟨id, m, hid, hm, rfl⟩ := (mem_link_pages modules page).mp hpage
    have hon := (mem_assignPages modules id m).mp hm
    rw [literal_resolves_iff modules hl id m hid hon l hmem label, layOut_id]
    constructor
    · intro hlabel
      exact ⟨m, hm, hlabel⟩
    · rintro ⟨m', hm', hlabel⟩
      have hon' := (mem_assignPages modules id m').mp hm'
      rw [hon, Option.some_inj] at hon'
      exact hon' ▸ hlabel
  · rw [← literals_resolve_iff modules hl]
    constructor
    · intro hstored l hmem
      rw [← exists_denotes_iff, ← literal_stored_iff modules r l hmem _ (literal_covers_start l)]
      exact hstored l hmem l.address (literal_covers_start l)
    · intro hresolves l hmem b hb
      rw [literal_stored_iff modules r l hmem b hb, exists_denotes_iff]
      exact hresolves l hmem

theorem addressTable_filled :
    (link addressTable).isRunnable = true ∧ (∀ m ∈ addressTable, m.LiteralClosed) ∧
    ∀ l ∈ (link addressTable).program.literals, ∀ b, l.Covers b →
      (((link addressTable).program.writeLiterals (Memory.empty (.seeded 0))).get? b).isSome = true := by
  have hr : (link addressTable).isRunnable = true := by decide +kernel
  have hclosed : ∀ m ∈ addressTable, m.LiteralClosed := by
    simp [addressTable, Module.LiteralClosed, Module.definedLabels]
  obtain ⟨-, -, hfilled⟩ := literals_filled_iff_closed addressTable hr (.seeded 0)
  exact ⟨hr, hclosed, hfilled.mpr hclosed⟩

-- A module with the address of a label that it neither defines nor imports.
def danglingAddress : Module where
  name := "main"
  instructions := [⟨.nullary .nop, [], none⟩]
  literals := [⟨.address "nowhere", .word, []⟩]
  exports := []
  imports := []
  isEntry := true

/-- Nothing is reported about such a module, and its literal is left out. -/
theorem danglingAddress_unfilled :
    (link [danglingAddress]).isRunnable = true ∧
    ∃ page ∈ (link [danglingAddress]).program.pages, ∃ l ∈ page.literals,
      l.value = .address "nowhere" ∧
      (link [danglingAddress]).program.resolve? l.address "nowhere" = none ∧
      ∀ b, l.Covers b →
        ((link [danglingAddress]).program.writeLiterals (Memory.empty (.seeded 0))).get? b = none := by
  have hr : (link [danglingAddress]).isRunnable = true := by decide +kernel
  have hm : (0, danglingAddress) ∈ assignPages [danglingAddress] := List.mem_cons_self
  let l : PlacedLiteral := ⟨pageBase 0 + 4, .address "nowhere", .word⟩
  have hl : l ∈ (danglingAddress.layOut 0).page.literals := List.mem_cons_self
  have hunresolved : ¬((link [danglingAddress]).program.resolve? l.address "nowhere").isSome = true := by
    rw [literal_resolves_iff _ (linkable_of_isRunnable _ hr) 0 danglingAddress (Nat.zero_le _) rfl l hl]
    simp [danglingAddress, Module.definedLabels]
  refine ⟨hr, _, (mem_link_pages _ _).mpr ⟨0, _, Nat.zero_le _, hm, rfl⟩, l, hl, rfl,
    Option.not_isSome_iff_eq_none.mp hunresolved, ?_⟩
  intro b hb
  have hmem := (mem_link_literals _ l).mpr ⟨0, _, Nat.zero_le _, hm, hl⟩
  rw [← Option.not_isSome_iff_eq_none, literal_stored_iff _ _ l hmem b hb, exists_denotes_iff]
  exact fun hall => hunresolved (hall "nowhere" rfl)

end PagedMachine
