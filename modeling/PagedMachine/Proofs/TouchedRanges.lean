import Mathlib.Algebra.Group.Nat.Defs
import Mathlib.Data.List.Pairwise
import PagedMachine.Memory.Extent
import PagedMachine.Proofs.CheckedLayout
import PagedMachine.Proofs.Warnings

/-! The ranges of touched memory. Cells in ascending order are joined into ranges as long as one follows on
the other; the ranges cover the cells exactly, a whole cell is left out between any two of them, and no sum
of addresses wraps around on the way, not even at the last block. -/
namespace PagedMachine

-- First addresses of cells of one size, in ascending order.
structure Cells (size : Nat) (bases : List Address) : Prop where
  aligned : ∀ b ∈ bases, size ∣ b.toNat
  ascending : bases.Pairwise fun b b' => b.toNat < b'.toNat

-- Ranges of whole cells that cover certain numbers, with a cell left out between any two of them.
structure Cover (size : Nat) (covered : Nat → Prop) (rs : List (Address × Address)) : Prop where
  aligned : ∀ r ∈ rs, size ∣ r.1.toNat ∧ size ∣ r.2.toNat + 1
  ordered : ∀ r ∈ rs, r.1.toNat ≤ r.2.toNat
  apart : rs.Pairwise fun r r' => r.2.toNat + size < r'.1.toNat
  covers : ∀ n, (∃ r ∈ rs, r.1.toNat ≤ n ∧ n ≤ r.2.toNat) ↔ covered n

def CellApart (size : Nat) (r r' : Address × Address) : Prop :=
  r.2.toNat + size < r'.1.toNat ∨ r'.2.toNat + size < r.1.toNat

instance (size : Nat) : Std.Symm (CellApart size) :=
  ⟨fun _ _ => Or.symm⟩

/-! Covers. -/

/-- A range may be put in front if it ends at least a cell before anything that is covered. -/
theorem cover_cons (size : Nat) (covered : Nat → Prop) (rs : List (Address × Address))
    (first last : Address) (hrs : Cover size covered rs) (hfirst : size ∣ first.toNat)
    (hlast : size ∣ last.toNat + 1) (hle : first.toNat ≤ last.toNat)
    (hgap : ∀ n, covered n → last.toNat + size < n) :
    Cover size (fun n => (first.toNat ≤ n ∧ n ≤ last.toNat) ∨ covered n) ((first, last) :: rs) where
  aligned := List.forall_mem_cons.mpr ⟨⟨hfirst, hlast⟩, hrs.aligned⟩
  ordered := List.forall_mem_cons.mpr ⟨hle, hrs.ordered⟩
  apart := by
    refine List.pairwise_cons.mpr ⟨?_, hrs.apart⟩
    intro r hr
    -- The start of a range is covered by the range itself.
    have hcovered := (hrs.covers r.1.toNat).mp ⟨r, hr, Nat.le_refl _, hrs.ordered r hr⟩
    exact hgap _ hcovered
  covers n := by
    rw [List.exists_mem_cons_iff, hrs.covers]

/-- The cell behind a range is left out. -/
theorem cover_gap (size : Nat) (covered : Nat → Prop) (rs : List (Address × Address))
    (hrs : Cover size covered rs) (r : Address × Address) (hr : r ∈ rs) (n : Nat)
    (hn : r.2.toNat < n) (hn' : n ≤ r.2.toNat + size) : ¬covered n := by
  intro hcovered
  obtain ⟨r', hr', hle, hge⟩ := (hrs.covers n).mpr hcovered
  have hne : r ≠ r' := by
    rintro rfl
    omega
  -- Any two ranges are apart, one way or the other.
  have hpairs : rs.Pairwise (CellApart size) := hrs.apart.imp Or.inl
  have hapart : CellApart size r r' := hpairs.forall hr hr' hne
  simp only [CellApart] at hapart
  have hordered := hrs.ordered r hr
  omega

/-! Single cells. -/

/-- A sum that fits does not wrap around. -/
theorem toNat_add_ofNat {w : Nat} (a : BitVec w) (n : Nat) (h : a.toNat + n < 2 ^ w) :
    (a + BitVec.ofNat w n).toNat = a.toNat + n := by
  have hn : n < 2 ^ w := by omega
  rw [BitVec.toNat_add, BitVec.toNat_ofNat, Nat.mod_eq_of_lt hn, Nat.mod_eq_of_lt h]

/-- Between two multiples of a size there is room for it. -/
theorem add_le_of_dvd_lt (size a b : Nat) (ha : size ∣ a) (hb : size ∣ b) (h : a < b) :
    a + size ≤ b := by
  have hle := Nat.le_of_dvd (Nat.sub_pos_of_lt h) (Nat.dvd_sub hb ha)
  omega

theorem nextAddress_iff (last base : Address) :
    nextAddress? last = some base ↔ last.toNat + 1 = base.toNat := by
  have hover : last.uaddOverflow 1 = decide (wordCount ≤ last.toNat + 1) := rfl
  have hlt : base.toNat < wordCount := base.isLt
  rw [nextAddress?, hover]
  simp only [decide_eq_true_eq]
  split_ifs with h
  · simp only [false_iff]
    omega
  · have hsum : (last + 1).toNat = last.toNat + 1 := toNat_add_ofNat last 1 (Nat.lt_of_not_le h)
    rw [Option.some.injEq, ← BitVec.toNat_inj, hsum]

/-- A cell does not reach beyond the last address. -/
theorem cell_within (size : Nat) (hcount : size ∣ wordCount) (base : Address)
    (h : size ∣ base.toNat) : base.toNat + size ≤ wordCount :=
  add_le_of_dvd_lt size _ _ h hcount base.isLt

section Cells

variable (size : Nat) (hsize : 0 < size) (hcount : size ∣ wordCount)
include hsize hcount

theorem cell_no_overflow (base : Address) (h : size ∣ base.toNat) :
    base.uaddOverflow (BitVec.ofNat 32 (size - 1)) = false := by
  have hend := cell_within size hcount base h
  have hlt : size - 1 < wordCount := by omega
  rw [BitVec.uaddOverflow, toNat_ofNat_word _ hlt]
  apply decide_eq_false
  change ¬wordCount ≤ base.toNat + (size - 1)
  omega

theorem toNat_cellEnd (base : Address) (h : size ∣ base.toNat) :
    (cellEnd size base).toNat + 1 = base.toNat + size := by
  have hend := cell_within size hcount base h
  have hsum := toNat_add_ofNat base (size - 1) (show base.toNat + (size - 1) < wordCount by omega)
  rw [cellEnd, hsum]
  omega

/-- The first of several cells is whole and ends before the others start. -/
theorem cells_cons (base : Address) (bases : List Address) (h : Cells size (base :: bases)) :
    Cells size bases ∧ size ∣ base.toNat ∧ size ∣ (cellEnd size base).toNat + 1 ∧
      ∀ b ∈ bases, (cellEnd size base).toNat < b.toNat := by
  obtain ⟨hbase, haligned⟩ := List.forall_mem_cons.mp h.aligned
  obtain ⟨hlater, hascending⟩ := List.pairwise_cons.mp h.ascending
  have hend := toNat_cellEnd size hsize hcount base hbase
  refine ⟨⟨haligned, hascending⟩, hbase, hend ▸ Nat.dvd_add hbase (Nat.dvd_refl size), ?_⟩
  intro b hb
  have hroom := add_le_of_dvd_lt size _ _ hbase (haligned b hb) (hlater b hb)
  omega

/-! The walk over the cells. -/

/-- The ranges grown from a first one cover its addresses and the cells behind it, with a gap
between each two. -/
theorem rangesFrom_cover (bases : List Address) (first last : Address) (hbases : Cells size bases)
    (hfirst : size ∣ first.toNat) (hlast : size ∣ last.toNat + 1) (hle : first.toNat ≤ last.toNat)
    (hbehind : ∀ b ∈ bases, last.toNat < b.toNat) :
    Cover size
      (fun n => (first.toNat ≤ n ∧ n ≤ last.toNat) ∨ ∃ b ∈ bases, b.toNat ≤ n ∧ n < b.toNat + size)
      (rangesFrom size first last bases) := by
  -- The range under way grows or is left behind, so it varies along the cells.
  induction bases generalizing first last with
  | nil =>
    refine ⟨?_, ?_, ?_, ?_⟩ <;> simp [rangesFrom, hfirst, hlast, hle]
  | cons base bases ih =>
    obtain ⟨hrest, hbase, hend, hlater⟩ := cells_cons size hsize hcount base bases hbases
    obtain ⟨hnext, -⟩ := List.forall_mem_cons.mp hbehind
    have hlength := toNat_cellEnd size hsize hcount base hbase
    rw [rangesFrom]
    split_ifs with hjoins
    · have hadjacent := (nextAddress_iff last base).mp hjoins
      have hcover := ih first (cellEnd size base) hrest hfirst hend (by omega) hlater
      convert hcover using 2 with n
      rw [List.exists_mem_cons_iff, ← or_assoc]
      apply or_congr_left
      omega
    · have hapart : last.toNat + 1 ≠ base.toNat := fun h => hjoins ((nextAddress_iff last base).mpr h)
      have hroom := add_le_of_dvd_lt size _ _ hlast hbase (by omega)
      have hcover := ih base (cellEnd size base) hrest hbase hend (by omega) hlater
      have hgap : ∀ n, ((base.toNat ≤ n ∧ n ≤ (cellEnd size base).toNat) ∨
          ∃ b ∈ bases, b.toNat ≤ n ∧ n < b.toNat + size) → last.toNat + size < n := by
        rintro n (⟨hn, -⟩ | ⟨b, hb, hn, -⟩)
        · omega
        · have hb' := hlater b hb
          omega
      convert cover_cons size _ _ first last hcover hfirst hlast hle hgap using 2 with n
      rw [List.exists_mem_cons_iff]
      apply or_congr_right
      apply or_congr_left
      omega

/-- Cells are joined into ranges that cover them exactly. -/
theorem ranges_cover (bases : List Address) (hbases : Cells size bases) :
    Cover size (fun n => ∃ b ∈ bases, b.toNat ≤ n ∧ n < b.toNat + size) (ranges size bases) := by
  cases bases with
  | nil => refine ⟨?_, ?_, ?_, ?_⟩ <;> simp [ranges]
  | cons base bases =>
    obtain ⟨hrest, hbase, hend, hlater⟩ := cells_cons size hsize hcount base bases hbases
    have hlength := toNat_cellEnd size hsize hcount base hbase
    have hcover := rangesFrom_cover size hsize hcount bases base (cellEnd size base) hrest hbase hend
      (by omega) hlater
    rw [ranges]
    convert hcover using 2 with n
    rw [List.exists_mem_cons_iff]
    apply or_congr_left
    omega

end Cells

/-! Blocks. -/

theorem toNat_blockBase (a : Address) : (blockBase a).toNat = a.toNat / blockSize * blockSize := by
  have hmask : (BitVec.ofNat 32 (blockSize - 1)).toNat = 2 ^ 8 - 1 := rfl
  have hdiv := Nat.div_add_mod' a.toNat (2 ^ 8)
  rw [blockBase, toNat_and_not, hmask, Nat.and_two_pow_sub_one_eq_mod]
  simp only [blockSize]
  omega

/-- The touched blocks are aligned and ascend. -/
theorem touched_cells (m : Memory) : Cells blockSize m.touched.toList where
  aligned := by
    intro block hblock
    obtain ⟨a, -, rfl⟩ := (mem_touched m block).mp (Std.ExtTreeSet.mem_toList.mp hblock)
    rw [toNat_blockBase]
    exact Nat.dvd_mul_left _ _
  ascending := by
    refine Std.ExtTreeSet.ordered_toList.imp ?_
    intro b b' h
    have hlt : b < b' := compareOfLessAndEq_eq_lt.mp h
    exact BitVec.lt_def.mp hlt

/-- The touched ranges cover exactly the blocks in which something is stored. -/
theorem touchedBounds_cover (m : Memory) :
    Cover blockSize
      (fun n => ∃ b : Address, b.toNat / blockSize = n / blockSize ∧ (m.get? b).isSome = true)
      m.touchedBounds := by
  rw [Memory.touchedBounds]
  convert ranges_cover blockSize (by decide) (by decide) _ (touched_cells m) using 2 with n
  simp only [Std.ExtTreeSet.mem_toList, mem_touched]
  constructor
  · rintro ⟨b, hb, hstored⟩
    refine ⟨_, ⟨b, hstored, rfl⟩, ?_⟩
    rw [toNat_blockBase]
    simp only [blockSize] at hb ⊢
    omega
  · rintro ⟨_, ⟨b, hstored, rfl⟩, hn⟩
    refine ⟨b, ?_, hstored⟩
    rw [toNat_blockBase] at hn
    simp only [blockSize] at hn ⊢
    omega

/-- An access adds to the index the blocks of its bytes, whether it writes them or finds or draws them, and
also where it wraps around. -/
theorem access_touched (m : Memory) (x : Access) (block : Address) :
    block ∈ (m.access x).touched ↔ (∃ a ∈ x.bytes, blockBase a = block) ∨ block ∈ m.touched := by
  simp only [mem_touched, access_stored, mem_bytes, or_and_right, exists_or]

/-- A history leaves in the index the blocks of all bytes that it accesses. -/
theorem run_touched (xs : List Access) (m : Memory) (block : Address) :
    block ∈ (m.run xs).2.touched ↔
      (∃ a ∈ xs.flatMap Access.bytes, blockBase a = block) ∨ block ∈ m.touched := by
  induction xs generalizing m with
  | nil => simp [Memory.run]
  | cons x xs ih =>
    have hstep : (m.run (x :: xs)).2 = ((m.access x).run xs).2 := by cases x <;> rfl
    rw [hstep, ih, access_touched, List.flatMap_cons]
    simp only [List.mem_append, or_and_right, exists_or]
    rw [or_left_comm, or_assoc]

/-- An empty memory has an empty index, so that nothing but accesses puts blocks into it. -/
theorem run_touched_empty (r : Entropy) (xs : List Access) :
    ((Memory.empty r).run xs).2.touched = .ofList ((xs.flatMap Access.bytes).map blockBase) := by
  apply Std.ExtTreeSet.ext_mem
  intro block
  have hempty : block ∉ (Memory.empty r).touched := Std.ExtTreeSet.not_mem_empty
  rw [run_touched, Std.ExtTreeSet.mem_ofList, List.contains_iff_mem, List.mem_map]
  simp only [hempty, or_false]

/-- The touched ranges are the exact cover of memory by blocks. Whatever accesses have been made: the index
that is kept beside the bytes has the blocks of all bytes accessed, these are the blocks in which a byte is
stored, and to add a block's length to its first address never overflows; each range starts at a multiple of
256 and ends before another, at the latest with the last address; the ranges ascend, and behind each but the
last one there is a whole block, below the next range, in which nothing is stored; and an address lies in a
range exactly if something is stored in its block. -/
theorem touched_ranges_exact (r : Entropy) (xs : List Access) :
    let m := ((Memory.empty r).run xs).2
    m.touched = .ofList ((xs.flatMap Access.bytes).map blockBase) ∧
    (∀ block, block ∈ m.touched ↔ ∃ a, (m.get? a).isSome = true ∧ blockBase a = block) ∧
    (∀ block ∈ m.touched, block.uaddOverflow (BitVec.ofNat 32 (blockSize - 1)) = false) ∧
    (∀ p ∈ m.touchedRanges, blockSize ∣ p.1 ∧ blockSize ∣ p.2 + 1 ∧ p.1 < p.2 ∧ p.2 ≤ 0xffffffff) ∧
    m.touchedRanges.Pairwise (fun p q => p.2 + blockSize < q.1 ∧
      ∀ a : Address, p.2 < a.toNat → a.toNat ≤ p.2 + blockSize → m.get? a = none) ∧
    ∀ a : Address, (∃ p ∈ m.touchedRanges, p.1 ≤ a.toNat ∧ a.toNat ≤ p.2) ↔
      ∃ b : Address, b.toNat / blockSize = a.toNat / blockSize ∧ (m.get? b).isSome = true := by
  intro m
  have hcover := touchedBounds_cover m
  refine ⟨run_touched_empty r xs, mem_touched m, ?_, ?_, ?_, ?_⟩
  · intro block hblock
    have haligned := (touched_cells m).aligned block (Std.ExtTreeSet.mem_toList.mpr hblock)
    exact cell_no_overflow blockSize (by decide) (by decide) block haligned
  · rw [Memory.touchedRanges, List.forall_mem_map]
    rintro ⟨first, last⟩ hp
    obtain ⟨hfirst, hlast⟩ := hcover.aligned _ hp
    have hordered := hcover.ordered _ hp
    have hlt := last.isLt
    simp only at hfirst hlast hordered ⊢
    refine ⟨hfirst, hlast, ?_, by omega⟩
    -- Ends that were equal would leave no room for a block.
    have hroom := add_le_of_dvd_lt blockSize _ _ hfirst hlast (by omega)
    simp only [blockSize] at hroom
    omega
  · rw [Memory.touchedRanges, List.pairwise_map]
    refine hcover.apart.imp_of_mem ?_
    intro p q hp hq hapart
    refine ⟨hapart, ?_⟩
    intro a ha ha'
    rw [← Option.not_isSome_iff_eq_none]
    intro hstored
    exact cover_gap blockSize _ _ hcover p hp a.toNat ha ha' ⟨a, rfl, hstored⟩
  · intro a
    rw [← hcover.covers a.toNat]
    simp [Memory.touchedRanges]

-- A word around the end of the address space touches the last block and the first one.
example : ((Memory.empty (.seeded 0)).run [.write .word 0xfffffffe 7]).2.touchedRanges =
    [(0, 0xff), (0xffffff00, 0xffffffff)] := by decide +kernel

end PagedMachine
