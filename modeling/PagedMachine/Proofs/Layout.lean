import Mathlib.Data.List.Nodup
import PagedMachine.Linkage
import PagedMachine.Proofs.AddressSpace
import PagedMachine.Proofs.SymbolTable

/-! A module on its page: how many bytes it needs, which of its labels found room, and that the page's
table binds each of them to the first place that carries it. -/
namespace PagedMachine

-- Where the next item may start once a literal stands at the next multiple of its width.
def afterLiteral (offset : Nat) (l : LabeledLiteral) : Nat :=
  (offset + (l.width.bytes - 1)) / l.width.bytes * l.width.bytes + l.width.bytes

-- The bytes that a module needs: its instructions at their fixed stride, and then its literals, each rounded
-- up to its own width.
def Module.extent (m : Module) : Nat :=
  m.literals.foldl afterLiteral (m.instructions.length * instructionSize)

-- Whatever found room on a page, as the labels it carries and its address, in layout order.
def Module.placements (m : Module) (id : Nat) : List (List Label × Address) :=
  ((m.placeInstructions (pageBase id)).map fun (i, a) => (i.labels, a))
    ++ (m.placeLiterals (pageBase id)).1.map fun (l, a) => (l.labels, a)

-- The address of the first placed instruction or literal that carries a label.
def Module.address? (m : Module) (id : Nat) (l : Label) : Option Address :=
  ((m.placements id).find? fun q => l ∈ q.1).map Prod.snd

theorem afterLiteral_eq (offset : Nat) (l : LabeledLiteral) :
    afterLiteral offset l = alignUp offset l.width.bytes + l.width.bytes := by
  rw [alignUp_width, afterLiteral]

theorem le_foldl_afterLiteral (ls : List LabeledLiteral) (offset : Nat) :
    offset ≤ ls.foldl afterLiteral offset := by
  induction ls generalizing offset with
  | nil => exact Nat.le_refl _
  | cons l ls ih =>
    have hl := le_alignUp l.width offset
    have hstep : offset ≤ afterLiteral offset l := by
      rw [afterLiteral_eq]
      omega
    calc offset
        _ ≤ afterLiteral offset l := hstep
        _ ≤ (l :: ls).foldl afterLiteral offset := ih (afterLiteral offset l)

/-- Placing succeeds exactly if the literals end on the page. -/
theorem placeFrom_fits (base : Address) (ls : List LabeledLiteral) (offset : Nat)
    (ho : offset ≤ pageSize) :
    (placeFrom base offset ls).2 = true ↔ ls.foldl afterLiteral offset ≤ pageSize := by
  induction ls generalizing offset with
  | nil => simpa only [placeFrom, List.foldl_nil, true_iff] using ho
  | cons l ls ih =>
    simp only [placeFrom, List.foldl_cons, ← afterLiteral_eq]
    split_ifs with hl
    · exact ih _ hl
    · -- Offsets only grow, so a literal beyond the end of the page decides for all that follow.
      have hgrow := le_foldl_afterLiteral ls (afterLiteral offset l)
      simp only [false_iff]
      omega

/-- Literals that all fit are all placed. -/
theorem placeFrom_all (base : Address) (ls : List LabeledLiteral) (offset : Nat)
    (h : (placeFrom base offset ls).2 = true) :
    (placeFrom base offset ls).1.map Prod.fst = ls := by
  induction ls generalizing offset with
  | nil => rfl
  | cons l ls ih =>
    simp only [placeFrom] at h ⊢
    split_ifs at h ⊢ with hl
    rw [List.map_cons, ih _ h]

/-- Literals are placed in their order, until one does not fit. -/
theorem placeFrom_isPrefix (base : Address) (ls : List LabeledLiteral) (offset : Nat) :
    (placeFrom base offset ls).1.map Prod.fst <+: ls := by
  induction ls generalizing offset with
  | nil => exact List.prefix_rfl
  | cons l ls ih =>
    simp only [placeFrom]
    split_ifs with hl
    · rw [List.map_cons, List.prefix_cons_inj]
      exact ih _
    · exact List.nil_prefix

/-- A placed literal ends on the page. -/
theorem placeFrom_within (base : Address) (ls : List LabeledLiteral) (offset : Nat) :
    ∀ q ∈ (placeFrom base offset ls).1,
      ∃ start, start + q.1.width.bytes ≤ pageSize ∧ q.2 = base + BitVec.ofNat 32 start := by
  induction ls generalizing offset with
  | nil => simp [placeFrom]
  | cons l ls ih =>
    intro q hq
    simp only [placeFrom] at hq
    split_ifs at hq with hl
    · rcases List.mem_cons.mp hq with rfl | hq
      · exact ⟨alignUp offset l.width.bytes, hl, rfl⟩
      · exact ih _ q hq
    · simp at hq

theorem placeLiterals_within (m : Module) (base : Address) :
    ∀ q ∈ (m.placeLiterals base).1,
      ∃ start, start + q.1.width.bytes ≤ pageSize ∧ q.2 = base + BitVec.ofNat 32 start := by
  intro q hq
  simp only [Module.placeLiterals] at hq
  split_ifs at hq
  · exact placeFrom_within _ _ _ q hq
  · simp at hq

/-- A placed instruction ends on the page. -/
theorem placeInstructions_within (m : Module) (base : Address) :
    ∀ q ∈ m.placeInstructions base,
      ∃ start, start + instructionSize ≤ pageSize ∧ q.2 = base + BitVec.ofNat 32 start := by
  intro q hq
  obtain ⟨⟨i, n⟩, hi, rfl⟩ := List.mem_map.mp hq
  have hn := (List.mem_zipIdx' hi).1
  have hcap : (m.instructions.take instructionCapacity).length ≤ pageSize / instructionSize :=
    List.length_take_le _ _
  refine ⟨n * instructionSize, ?_, rfl⟩
  simp only [pageSize, instructionSize] at hcap ⊢
  omega

/-- The layout reports that everything fits exactly if the module's extent is at most a page. -/
theorem placeLiterals_fits (m : Module) (base : Address) :
    (m.placeLiterals base).2 = true ↔ m.extent ≤ pageSize := by
  have hcap : m.instructions.length ≤ instructionCapacity ↔
      m.instructions.length * instructionSize ≤ pageSize := by
    simp only [instructionCapacity, pageSize, instructionSize]
    omega
  simp only [Module.placeLiterals, hcap]
  split_ifs with h
  · exact placeFrom_fits base m.literals _ h
  · -- The instructions alone are too long.
    have hgrow := le_foldl_afterLiteral m.literals (m.instructions.length * instructionSize)
    simp only [false_iff, Module.extent]
    omega

theorem placements_address (m : Module) (id : Nat) :
    ∀ q ∈ m.placements id, ∃ start < pageSize, q.2 = pageBase id + BitVec.ofNat 32 start := by
  intro q hq
  rcases List.mem_append.mp hq with hq | hq
  · obtain ⟨p, hp, rfl⟩ := List.mem_map.mp hq
    obtain ⟨start, hstart, he⟩ := placeInstructions_within m _ p hp
    have hpos : 0 < instructionSize := by decide
    exact ⟨start, by omega, he⟩
  · obtain ⟨p, hp, rfl⟩ := List.mem_map.mp hq
    obtain ⟨start, hstart, he⟩ := placeLiterals_within m _ p hp
    have hpos := width_bytes_pos p.1.width
    exact ⟨start, by omega, he⟩

/-- In a module that fits, every instruction and every literal finds room. -/
theorem placed_all (m : Module) (base : Address) (h : m.extent ≤ pageSize) :
    (m.placeInstructions base).map Prod.fst = m.instructions ∧
      (m.placeLiterals base).1.map Prod.fst = m.literals := by
  have hfits := (placeLiterals_fits m base).mpr h
  have hcap : m.instructions.length ≤ instructionCapacity := by
    by_contra hn
    simp only [Module.placeLiterals, hn, ↓reduceIte, Bool.false_eq_true] at hfits
  constructor
  · simp only [Module.placeInstructions, List.take_of_length_le hcap, List.map_map]
    exact List.zipIdx_map_fst 0 m.instructions
  · simp only [Module.placeLiterals, hcap, ↓reduceIte] at hfits ⊢
    exact placeFrom_all _ _ _ hfits

/-- A module that fits places all of its labels. -/
theorem placements_labels (m : Module) (id : Nat) (h : m.extent ≤ pageSize) :
    (m.placements id).flatMap Prod.fst = m.definedLabels := by
  obtain ⟨hi, hl⟩ := placed_all m (pageBase id) h
  have hi' := congrArg (List.flatMap (·.labels)) hi
  have hl' := congrArg (List.flatMap (·.labels)) hl
  simp only [List.flatMap_map] at hi' hl'
  simp only [Module.placements, List.flatMap_append, List.flatMap_map, Module.definedLabels, hi', hl']

-- Definitions as bindings of labels to addresses.
def bindings (ds : List Definition) : List (Label × Address) :=
  ds.map fun d => (d.label, d.address)

theorem bindings_cons_lookup (d : Definition) (ds : List Definition) (l : Label) :
    (bindings (d :: ds)).lookup l = if l = d.label then some d.address else (bindings ds).lookup l := by
  by_cases hl : l = d.label
  · simp [bindings, hl]
  · have hb : (l == d.label) = false := by simpa using hl
    simp only [bindings, List.map_cons, List.lookup_cons, hb, hl, ↓reduceIte]

theorem define_table (s : SymbolTable × Array Definition) (d : Definition) :
    (define s d).1 = s.1.tryInsert d.label d.address := by
  simp only [define, SymbolTable.tryInsert]
  cases s.1.insert d.label d.address with
  | ok t => rfl
  | error b => rfl

/-- What is bound already wins over later definitions, and among these the first one of a label wins. -/
theorem foldl_define_get (ds : List Definition) (s : SymbolTable × Array Definition) (l : Label) :
    (ds.foldl define s).1.get? l = (s.1.get? l).or ((bindings ds).lookup l) := by
  induction ds generalizing s with
  | nil => simp [bindings]
  | cons d ds ih =>
    rw [List.foldl_cons, ih, define_table, tryInsert_get, Option.or_assoc, bindings_cons_lookup]
    by_cases hl : l = d.label
    · rw [if_pos hl, if_pos hl, Option.some_or]
    · rw [if_neg hl, if_neg hl, Option.none_or]

/-- Definitions keep both indexes of the label table in step. -/
theorem foldl_define_consistent (ds : List Definition) (s : SymbolTable × Array Definition)
    (hs : s.1.Consistent) : (ds.foldl define s).1.Consistent := by
  induction ds generalizing s with
  | nil => exact hs
  | cons d ds ih =>
    apply ih
    rw [define_table]
    exact tryInsert_consistent s.1 d.label d.address hs

theorem foldl_define_set_aside (ds : List Definition) (s : SymbolTable × Array Definition)
    (h : (ds.foldl define s).2 = #[]) : s.2 = #[] := by
  induction ds generalizing s with
  | nil => exact h
  | cons d ds ih =>
    have hd := ih _ h
    simp only [define] at hd
    split at hd
    · exact hd
    · simp at hd

/-- Nothing is set aside exactly if the labels are new and pairwise different. -/
theorem foldl_define_no_duplicates (ds : List Definition) (s : SymbolTable × Array Definition) :
    (ds.foldl define s).2 = #[] ↔
      s.2 = #[] ∧ (ds.map (·.label)).Nodup ∧ ∀ d ∈ ds, s.1.get? d.label = none := by
  induction ds generalizing s with
  | nil => simp
  | cons d ds ih =>
    cases hd : s.1.get? d.label with
    | some b =>
      -- The definition is set aside at once, so both sides fail.
      have hs : define s d = (s.1, s.2.push d) := by
        simp only [define, insert_bound_label s.1 d.label d.address b hd]
      constructor
      · intro h
        have hpush := foldl_define_set_aside ds _ h
        simp [hs] at hpush
      · intro h
        obtain ⟨-, -, hnone⟩ := h
        simp [hd] at hnone
    | none =>
      obtain ⟨t, ht, hget, -⟩ := insert_fresh_label s.1 d.label d.address hd
      have hs : define s d = (t, s.2) := by simp only [define, ht]
      have hfresh := fresh_after_insert s.1 t d.label d.address (ds.map (·.label)) hget
      simp only [List.forall_mem_map] at hfresh
      rw [List.foldl_cons, ih, hs, hfresh]
      simp only [List.map_cons, List.nodup_cons, List.forall_mem_cons, hd, true_and]
      tauto

theorem lookup_labels_at (ls : List Label) (a : Address) (l : Label) :
    (ls.map (·, a)).lookup l = if l ∈ ls then some a else none := by
  induction ls with
  | nil => rfl
  | cons k ls ih =>
    by_cases hk : l = k
    · simp [hk]
    · have hb : (l == k) = false := by simpa using hk
      simp only [List.map_cons, List.lookup_cons, hb, ih, List.mem_cons, hk, false_or]

/-- To look a label up among all bindings is to look for the first item that carries it. -/
theorem lookup_carried (ps : List (List Label × Address)) (l : Label) :
    (ps.flatMap fun q => q.1.map (·, q.2)).lookup l =
      (ps.find? fun q => l ∈ q.1).map Prod.snd := by
  induction ps with
  | nil => rfl
  | cons q ps ih =>
    rw [List.flatMap_cons, List.lookup_append, lookup_labels_at, ih, List.find?_cons]
    by_cases hq : l ∈ q.1 <;> simp [hq]

-- The definitions of everything that found room on a page.
def Module.placedDefinitions (m : Module) (id : Nat) : List Definition :=
  definitions (m.placeInstructions (pageBase id)) (m.placeLiterals (pageBase id)).1

/-- Each label is bound to the address its item is placed at. -/
theorem bindings_placedDefinitions (m : Module) (id : Nat) :
    bindings (m.placedDefinitions id) = (m.placements id).flatMap fun q => q.1.map (·, q.2) := by
  simp only [bindings, Module.placedDefinitions, definitions, Module.placements, List.map_append,
    List.map_flatMap, List.flatMap_append, List.flatMap_map, List.map_map, Function.comp_def]

theorem labels_placedDefinitions (m : Module) (id : Nat) :
    (m.placedDefinitions id).map (·.label) = (m.placements id).flatMap Prod.fst := by
  simp only [Module.placedDefinitions, definitions, Module.placements, List.map_append,
    List.map_flatMap, List.flatMap_append, List.flatMap_map, List.map_map, Function.comp_def,
    List.map_id']

/-- The table of a page answers with the first placed item that carries the label. -/
theorem layOut_labels_get (m : Module) (id : Nat) (l : Label) :
    (m.layOut id).page.labels.get? l = m.address? id l := by
  calc (m.layOut id).page.labels.get? l
      _ = ((m.placedDefinitions id).foldl define (.empty, #[])).1.get? l := rfl
      _ = (bindings (m.placedDefinitions id)).lookup l := by
        rw [foldl_define_get, symbolTable_get_empty, Option.none_or]
      _ = m.address? id l := by
        rw [bindings_placedDefinitions, lookup_carried, Module.address?]

theorem layOut_labels_consistent (m : Module) (id : Nat) :
    (m.layOut id).page.labels.Consistent :=
  foldl_define_consistent (m.placedDefinitions id) (.empty, #[]) symbolTable_consistent_empty

theorem layOut_imports_contains (m : Module) (id : Nat) (l : Label) :
    (m.layOut id).page.imports.contains l = true ↔ l ∈ m.imports := by
  have hi : (m.layOut id).page.imports = Std.ExtTreeSet.ofList m.imports compare := rfl
  rw [hi, Std.ExtTreeSet.contains_ofList, List.contains_iff_mem]

theorem layOut_id (m : Module) (id : Nat) : (m.layOut id).page.id = id := rfl

theorem layOut_fits (m : Module) (id : Nat) :
    (m.layOut id).fits = true ↔ m.extent ≤ pageSize :=
  placeLiterals_fits m (pageBase id)

/-- A module that fits has duplicates exactly when it defines a label twice. -/
theorem layOut_duplicates (m : Module) (id : Nat) (h : m.extent ≤ pageSize) :
    (m.layOut id).duplicates = [] ↔ m.definedLabels.Nodup := by
  have hd := foldl_define_no_duplicates (m.placedDefinitions id) (.empty, #[])
  rw [labels_placedDefinitions, placements_labels m id h] at hd
  have hl : (m.layOut id).duplicates = [] ↔
      ((m.placedDefinitions id).foldl define (.empty, #[])).2 = #[] := Array.toList_eq_nil_iff
  rw [hl, hd]
  simp only [symbolTable_get_empty, implies_true, and_true, true_and]

/-- A module that fits gives an address to exactly the labels it defines. -/
theorem address_isSome (m : Module) (id : Nat) (l : Label) (h : m.extent ≤ pageSize) :
    (m.address? id l).isSome = true ↔ l ∈ m.definedLabels := by
  rw [← placements_labels m id h, Module.address?, Option.isSome_map, List.find?_isSome,
    List.mem_flatMap]
  simp only [decide_eq_true_eq]

/-- A label's address lies on the page of the module that defines it. -/
theorem address_on_page (m : Module) (id : Nat) (l : Label) (a : Address) (hid : id ≤ maxPage)
    (h : m.address? id l = some a) : pageOf? a = some id := by
  obtain ⟨q, hq, rfl⟩ := Option.map_eq_some_iff.mp h
  obtain ⟨start, hstart, he⟩ := placements_address m id q (List.mem_of_find?_eq_some hq)
  rw [he]
  exact pageOf_pageBase_add id start hid hstart

/-- The instructions of a page, by their number in the module. -/
theorem layOut_getElem (m : Module) (id n : Nat) :
    (m.layOut id).page.instructions[n]? =
      (m.instructions.take instructionCapacity)[n]?.map fun k =>
        ⟨pageBase id + BitVec.ofNat 32 (n * instructionSize),
          pageBase id + BitVec.ofNat 32 (n * instructionSize) + BitVec.ofNat 32 instructionSize,
          k.instruction, k.span⟩ := by
  simp [Module.layOut, Module.placeInstructions, List.getElem?_zipIdx, Function.comp_def]

theorem layOut_instruction (m : Module) (id : Nat) (i : LoadedInstruction)
    (h : i ∈ (m.layOut id).page.instructions) :
    ∃ k ∈ m.instructions, k.instruction = i.instruction := by
  obtain ⟨n, hn⟩ := Array.mem_iff_getElem?.mp h
  rw [layOut_getElem] at hn
  obtain ⟨k, hk, rfl⟩ := Option.map_eq_some_iff.mp hn
  exact ⟨k, List.mem_of_mem_take (List.mem_of_getElem? hk), rfl⟩

end PagedMachine
