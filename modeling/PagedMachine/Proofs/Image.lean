import Mathlib.Data.List.Basic
import PagedMachine.Proofs.Memory

/-! Sparse memory as a plain array. Bytes that are drawn when they are first read could as well have been
there from the start: for each history of accesses some initial array gives the same answers. -/
namespace PagedMachine

inductive Access where
  | read (w : Width) (a : Address)
  | write (w : Width) (a : Address) (value : Word)
  deriving DecidableEq, Repr

-- Whether an access touches the byte at an address.
def Access.Covers (b : Address) : Access → Prop
  | .read w a => w.Covers a b
  | .write w a _ => w.Covers a b

-- The words that a history of accesses reads, and the memory it leaves.
def Memory.run (m : Memory) : List Access → List Word × Memory
  | [] => ([], m)
  | .read w a :: xs =>
    let (value, m) := m.read w a
    let (values, m) := m.run xs
    (value :: values, m)
  | .write w a value :: xs => (m.write w a value).run xs

abbrev Image := Address → Byte

-- Reads a big-endian value; one that is narrower than a word is sign-extended.
def Image.read (g : Image) (w : Width) (a : Address) : Word :=
  match w with
  | .byte => (g a).signExtend 32
  | .half => (g a ++ g (a + 1)).signExtend 32
  | .word => g a ++ g (a + 1) ++ g (a + 2) ++ g (a + 3)

-- Writes the low bits of a value, the most significant byte first.
def Image.write (g : Image) (w : Width) (a : Address) (value : Word) : Image := fun b =>
  if w.Covers a b then value.extractLsb' (8 * (w.bytes - 1 - (b - a).toNat)) 8 else g b

-- The words that a history of accesses reads from an array, and the array it leaves.
def Image.run (g : Image) : List Access → List Word × Image
  | [] => ([], g)
  | .read w a :: xs =>
    let (values, last) := g.run xs
    (g.read w a :: values, last)
  | .write w a value :: xs => (g.write w a value).run xs

-- Whatever is stored, the array has it too.
def Memory.Agrees (m : Memory) (g : Image) : Prop :=
  ∀ b v, m.get? b = some v → g b = v

/-- The signed value of a half word: its high byte, sign-extended and shifted into place, and its low byte,
which is added as an unsigned number, make the sixteen bits with their sign extended. -/
theorem decode_half (high low : Byte) :
    Width.half.decode [high, low] = (high ++ low).signExtend 32 := by
  have hhigh : high.signExtend 32 <<< 8 = BitVec.ofInt 32 (2 ^ 8 * high.toInt) := by
    rw [BitVec.shiftLeft_eq_mul_twoPow, BitVec.ofInt_mul, BitVec.mul_comm]
    rfl
  have hlow : low.setWidth 32 = BitVec.ofInt 32 low.toNat := by
    rw [BitVec.ofInt_natCast, BitVec.ofNat_toNat]
  calc Width.half.decode [high, low]
      _ = (high.signExtend 32 <<< 8) + low.setWidth 32 := rfl
      _ = BitVec.ofInt 32 (2 ^ 8 * high.toInt + low.toNat) := by
        rw [BitVec.ofInt_add, hhigh, hlow]
      _ = (high ++ low).signExtend 32 := by
        rw [BitVec.signExtend, BitVec.toInt_append]
        rfl

/-- The value that consecutive bytes of an array spell is the one that a read of the array gives. -/
theorem decode_image (g : Image) (w : Width) (a : Address) :
    w.decode ((List.range w.bytes).map fun i => g (a + BitVec.ofNat 32 i)) = g.read w a := by
  have hfirst : a + BitVec.ofNat 32 0 = a := BitVec.add_zero a
  cases w with
  | byte =>
    change (g (a + BitVec.ofNat 32 0)).signExtend 32 = (g a).signExtend 32
    rw [hfirst]
  | half =>
    change Width.half.decode [g (a + BitVec.ofNat 32 0), g (a + 1)] = (g a ++ g (a + 1)).signExtend 32
    rw [hfirst, decode_half]
  | word =>
    change g (a + BitVec.ofNat 32 0) ++ g (a + 1) ++ g (a + 2) ++ g (a + 3) = g.read .word a
    rw [hfirst]
    rfl

/-- An array that agrees with the memory after a read has all the bytes that were read. -/
theorem bytesRead_image (m : Memory) (w : Width) (a : Address) (g : Image)
    (h : (m.read w a).2.Agrees g) :
    m.bytesRead w a = (List.range w.bytes).map fun i => g (a + BitVec.ofNat 32 i) := by
  apply List.ext_getElem
  · simp
  · intro i hi hi'
    have hw : i < w.bytes := by simpa using hi
    have hle := width_bytes_le w
    have hget := get_read m w a (a + BitVec.ofNat 32 i)
    rw [toNat_add_sub_self a i (by omega), List.getElem?_eq_getElem hi, Option.some_or] at hget
    simpa using (h _ _ hget).symm

/-- A read that an image agrees with reads the image. -/
theorem read_image (m : Memory) (w : Width) (a : Address) (g : Image)
    (h : (m.read w a).2.Agrees g) : (m.read w a).1 = g.read w a := by
  rw [read_value, bytesRead_image m w a g h, decode_image]

theorem agrees_before_read (m : Memory) (w : Width) (a : Address) (g : Image)
    (h : (m.read w a).2.Agrees g) : m.Agrees g := by
  intro b v hb
  exact h b v (read_keeps m w a b v hb)

/-- What a write leaves comes from an array that agreed with the memory before. -/
theorem agrees_before_write (m : Memory) (w : Width) (a : Address) (value : Word) (g : Image)
    (h : (m.write w a value).Agrees g) :
    ∃ g₀ : Image, m.Agrees g₀ ∧ g₀.write w a value = g := by
  refine ⟨fun b => (m.get? b).getD (g b), ?_, ?_⟩
  · intro b v hb
    simp only [hb, Option.getD_some]
  · funext b
    have hget := get_write m w a b value
    simp only [Image.write]
    split_ifs with hc
    · rw [if_pos hc] at hget
      exact (h b _ hget).symm
    · -- Away from the write, a stored byte is still there and so is the array's.
      rw [if_neg hc] at hget
      cases hb : m.get? b with
      | none => rfl
      | some v => exact (h b v (hget.trans hb)).symm

/-- For each history some array that agrees with the memory at its start gives the same answers and agrees
with it at its end. -/
theorem run_image (xs : List Access) (m : Memory) :
    ∃ g : Image, m.Agrees g ∧ (m.run xs).1 = (g.run xs).1 ∧ (m.run xs).2.Agrees (g.run xs).2 := by
  -- The array is found from the end of the history, where every byte that matters is stored.
  induction xs generalizing m with
  | nil =>
    refine ⟨fun b => (m.get? b).getD 0, ?_, rfl, ?_⟩ <;>
    · intro b v hb
      simp only [Image.run, Memory.run] at hb ⊢
      simp only [hb, Option.getD_some]
  | cons x xs ih =>
    cases x with
    | read w a =>
      obtain ⟨g, hg, hvalues, hlast⟩ := ih (m.read w a).2
      refine ⟨g, agrees_before_read m w a g hg, ?_, hlast⟩
      simp only [Memory.run, Image.run, hvalues, read_image m w a g hg]
    | write w a value =>
      obtain ⟨g, hg, hvalues, hlast⟩ := ih (m.write w a value)
      obtain ⟨g₀, hg₀, rfl⟩ := agrees_before_write m w a value g hg
      exact ⟨g₀, hg₀, hvalues, hlast⟩

theorem read_stored (m : Memory) (w : Width) (a b : Address) :
    ((m.read w a).2.get? b).isSome = true ↔ w.Covers a b ∨ (m.get? b).isSome = true := by
  rw [get_read, Option.isSome_or, Bool.or_eq_true, isSome_getElem?, length_bytesRead,
    Width.Covers]

theorem write_stored (m : Memory) (w : Width) (a b : Address) (value : Word) :
    ((m.write w a value).get? b).isSome = true ↔ w.Covers a b ∨ (m.get? b).isSome = true := by
  rw [get_write]
  split_ifs with hc <;> simp [hc]

/-- A history adds to the stored addresses exactly those that its accesses touch. -/
theorem run_stored (xs : List Access) (m : Memory) (b : Address) :
    ((m.run xs).2.get? b).isSome = true ↔
      (∃ x ∈ xs, x.Covers b) ∨ (m.get? b).isSome = true := by
  induction xs generalizing m with
  | nil => simp [Memory.run]
  | cons x xs ih =>
    cases x with
    | read w a =>
      have hrest := ih (m.read w a).2
      rw [read_stored] at hrest
      rw [List.exists_mem_cons_iff, or_assoc, or_left_comm]
      exact hrest
    | write w a value =>
      have hrest := ih (m.write w a value)
      rw [write_stored] at hrest
      rw [List.exists_mem_cons_iff, or_assoc, or_left_comm]
      exact hrest

/-- Memory is an array whose initial contents nobody has seen. Wherever missing bytes come from, each
history of reads and writes of any widths at any addresses has one array of 2³² bytes to start from
such that every read gives what it gives on the array; and in the end exactly the touched addresses
are stored, each with the array's byte. -/
theorem memory_refines_image (r : Entropy) (xs : List Access) :
    ∃ g : Image, ((Memory.empty r).run xs).1 = (g.run xs).1 ∧
      ∀ b v, ((Memory.empty r).run xs).2.get? b = some v ↔
        (∃ x ∈ xs, x.Covers b) ∧ (g.run xs).2 b = v := by
  obtain ⟨g, -, hvalues, hlast⟩ := run_image xs (Memory.empty r)
  refine ⟨g, hvalues, ?_⟩
  intro b v
  have hstored := run_stored xs (Memory.empty r) b
  simp only [get_empty, Option.isSome_none, Bool.false_eq_true, or_false] at hstored
  rw [← hstored]
  constructor
  · intro hb
    exact ⟨Option.isSome_of_eq_some hb, hlast b v hb⟩
  · intro h
    obtain ⟨hs, rfl⟩ := h
    obtain ⟨v, hv⟩ := Option.isSome_iff_exists.mp hs
    rw [hv, hlast b v hv]

end PagedMachine
