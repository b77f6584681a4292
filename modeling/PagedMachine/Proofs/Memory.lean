import Mathlib.Tactic.SplitIfs
import PagedMachine.Memory
import PagedMachine.Proofs.AddressSpace

/-! Memory seen byte by byte. Each operation is described by what `Memory.get?` answers afterwards: an
access touches consecutive addresses, which wrap around, and every other address keeps what it had. -/
namespace PagedMachine

-- The bytes and the index of another memory, with the reports and the generator of this one.
def Memory.withContents (m m' : Memory) : Memory :=
  { m with bytes := m'.bytes, touched := m'.touched, indexed := m'.indexed }

@[simp] theorem withContents_misaligned (m m' : Memory) : (m.withContents m').misaligned = m.misaligned :=
  rfl

@[simp] theorem withContents_warnings (m m' : Memory) : (m.withContents m').warnings = m.warnings :=
  rfl

-- Whether an access of a width at `a` touches the byte at `b`.
def Width.Covers (w : Width) (a b : Address) : Prop :=
  (b - a).toNat < w.bytes

instance (w : Width) (a b : Address) : Decidable (w.Covers a b) :=
  inferInstanceAs (Decidable (_ < _))

/-- From the next address there is one step less to go. -/
theorem toNat_sub_succ (a b : Address) (h : b ≠ a) :
    (b - a).toNat = (b - (a + 1)).toNat + 1 := by
  have he : b.toNat ≠ a.toNat := fun he => h (BitVec.eq_of_toNat_eq he)
  bv_omega

theorem toNat_sub_self_succ (a : Address) : (a - (a + 1)).toNat = wordCount - 1 := by
  simp only [wordCount]
  bv_omega

@[simp] theorem get_empty (r : Entropy) (b : Address) : (Memory.empty r).get? b = none :=
  Std.ExtTreeMap.getElem?_empty

theorem get_setByte (m : Memory) (a b : Address) (v : Byte) :
    (m.setByte a v).get? b = if b = a then some v else m.get? b := by
  have h : (m.setByte a v).get? b = if compare a b = .eq then some v else m.get? b :=
    Std.ExtTreeMap.getElem?_insert
  have he : compare a b = .eq ↔ b = a := Std.compare_eq_iff_eq.trans eq_comm
  simpa only [he] using h

/-- A block is in the index exactly if something is stored in it. -/
theorem mem_touched (m : Memory) (block : Address) :
    block ∈ m.touched ↔ ∃ a, (m.get? a).isSome = true ∧ blockBase a = block := by
  rw [m.indexed block]
  simp only [Std.ExtTreeMap.mem_iff_isSome_getElem?, Memory.get?]

/-- The bytes determine the index. -/
theorem touched_eq (m m' : Memory) (h : m.bytes = m'.bytes) : m.touched = m'.touched := by
  apply Std.ExtTreeSet.ext_mem
  intro block
  rw [m.indexed block, m'.indexed block, h]

/-- Bytes at consecutive addresses, of which the first is put in place before the others. -/
theorem or_get_cons (a b : Address) (v : Byte) (bs : List Byte) (old : Option Byte)
    (hn : bs.length < wordCount) :
    bs[(b - (a + 1)).toNat]?.or (if b = a then some v else old) =
      (v :: bs)[(b - a).toNat]?.or old := by
  by_cases hb : b = a
  · -- The others do not reach around to the first one.
    subst hb
    have hlast : bs[(b - (b + 1)).toNat]? = none := by
      rw [toNat_sub_self_succ, List.getElem?_eq_none_iff]
      exact Nat.le_sub_one_of_lt hn
    rw [hlast]
    simp
  · rw [toNat_sub_succ a b hb, List.getElem?_cons_succ, if_neg hb]

/-- Stored bytes are found at consecutive addresses. -/
theorem get_store (m : Memory) (a b : Address) (bs : List Byte) (hn : bs.length ≤ wordCount) :
    (m.store a bs).get? b = bs[(b - a).toNat]?.or (m.get? b) := by
  induction bs generalizing m a with
  | nil => simp [Memory.store]
  | cons v bs ih =>
    rw [Memory.store, ih _ _ (Nat.le_of_lt hn), get_setByte]
    exact or_get_cons a b v bs _ hn

/-- Storing changes nothing but the contents. -/
theorem store_eq (m : Memory) (a : Address) (bs : List Byte) :
    m.store a bs = m.withContents (m.store a bs) := by
  induction bs generalizing m a with
  | nil => rfl
  | cons v bs ih => exact ih (m.setByte a v) (a + 1)

/-- Contents with equal bytes are equal, because the bytes determine the index. -/
theorem withContents_congr (m m₁ m₂ : Memory) (h : m₁.bytes = m₂.bytes) :
    m.withContents m₁ = m.withContents m₂ := by
  have htouched := touched_eq m₁ m₂ h
  simp only [Memory.withContents, h, htouched]

theorem get_settle (m : Memory) (a b : Address) :
    (m.settle a).2.get? b = if b = a then some (m.settle a).1 else m.get? b := by
  cases ha : m.get? a with
  | some v =>
    simp only [Memory.settle, ha]
    split_ifs with hb
    · rw [hb, ha]
    · rfl
  | none =>
    simp only [Memory.settle, ha]
    exact get_setByte _ a b _

theorem length_settleAll (m : Memory) (a : Address) (n : Nat) :
    (m.settleAll a n).1.length = n := by
  induction n generalizing m a with
  | zero => rfl
  | succ n ih => simp only [Memory.settleAll, List.length_cons, ih]

/-- Settling changes neither the warnings nor what is marked as misaligned. -/
theorem settle_reports (m : Memory) (a : Address) :
    (m.settle a).2.warnings = m.warnings ∧ (m.settle a).2.misaligned = m.misaligned := by
  simp only [Memory.settle]
  split <;> exact ⟨rfl, rfl⟩

theorem settleAll_reports (m : Memory) (a : Address) (n : Nat) :
    (m.settleAll a n).2.warnings = m.warnings ∧ (m.settleAll a n).2.misaligned = m.misaligned := by
  induction n generalizing m a with
  | zero => exact ⟨rfl, rfl⟩
  | succ n ih =>
    have hfirst := settle_reports m a
    have hrest := ih (m.settle a).2 (a + 1)
    exact ⟨hrest.1.trans hfirst.1, hrest.2.trans hfirst.2⟩

/-- A range is complete when its first byte is stored and the rest is complete. -/
theorem isMissing_succ (m : Memory) (a : Address) (n : Nat) :
    m.isMissing a (n + 1) = false ↔ (∃ b, m.get? a = some b) ∧ m.isMissing (a + 1) n = false := by
  have hshift (i : Nat) : a + BitVec.ofNat 32 (i + 1) = a + 1 + BitVec.ofNat 32 i := by
    rw [Nat.add_comm, BitVec.ofNat_add, ← BitVec.add_assoc]
    rfl
  have hcontains : m.contains a = (m.get? a).isSome := Std.ExtTreeMap.contains_eq_isSome_getElem?
  have hsucc : m.isMissing a (n + 1) = (!m.contains a || m.isMissing (a + 1) n) := by
    simp only [Memory.isMissing, List.range_succ_eq_map, List.any_cons, List.any_map,
      Function.comp_def, hshift, BitVec.add_zero]
  rw [hsucc, Bool.or_eq_false_iff, Bool.not_eq_false', hcontains, Option.isSome_iff_exists]

/-- Where no byte is missing nothing is drawn. -/
theorem settleAll_complete (m : Memory) (a : Address) (n : Nat) (h : m.isMissing a n = false) :
    (m.settleAll a n).2 = m := by
  induction n generalizing a with
  | zero => rfl
  | succ n ih =>
    obtain ⟨⟨b, hb⟩, hrest⟩ := (isMissing_succ m a n).mp h
    simp only [Memory.settleAll, Memory.settle, hb, ih (a + 1) hrest]

/-- Settled bytes are found at consecutive addresses afterwards. -/
theorem get_settleAll (m : Memory) (a b : Address) (n : Nat) (hn : n ≤ wordCount) :
    (m.settleAll a n).2.get? b = (m.settleAll a n).1[(b - a).toNat]?.or (m.get? b) := by
  induction n generalizing m a with
  | zero => simp [Memory.settleAll]
  | succ n ih =>
    have hlen := length_settleAll (m.settle a).2 (a + 1) n
    have hrest := ih (m.settle a).2 (a + 1) (Nat.le_of_lt hn)
    rw [get_settle] at hrest
    exact hrest.trans (or_get_cons a b _ _ _ (hlen.symm ▸ hn))

/-- What is stored is not drawn again. -/
theorem settleAll_keeps (m : Memory) (a b : Address) (n : Nat) (v : Byte)
    (h : m.get? b = some v) : (m.settleAll a n).2.get? b = some v := by
  induction n generalizing m a with
  | zero => exact h
  | succ n ih =>
    have hs : (m.settle a).2.get? b = some v := by
      rw [get_settle]
      split_ifs with hb
      · subst hb
        simp only [Memory.settle, h]
      · exact h
    exact ih (m.settle a).2 (a + 1) hs

@[simp] theorem get_warn (m : Memory) (w : Warning) (b : Address) : (m.warn w).get? b = m.get? b :=
  rfl

@[simp] theorem get_checkAlignment (m : Memory) (w : Width) (a b : Address) :
    (m.checkAlignment w a).get? b = m.get? b := by
  simp only [Memory.checkAlignment]
  split_ifs <;> rfl

theorem width_bytes_le (w : Width) : w.bytes ≤ wordCount := by
  cases w <;> decide

theorem add_ofNat_toNat_sub (a b : Address) : a + BitVec.ofNat 32 (b - a).toNat = b := by
  rw [BitVec.ofNat_toNat, BitVec.setWidth_eq, BitVec.add_comm, BitVec.sub_add_cancel]

/-- The bytes of an access are those at the first few distances from its address. -/
theorem covers_iff (w : Width) (a b : Address) :
    w.Covers a b ↔ ∃ i < w.bytes, b = a + BitVec.ofNat 32 i := by
  constructor
  · intro h
    exact ⟨(b - a).toNat, h, (add_ofNat_toNat_sub a b).symm⟩
  · rintro ⟨i, hi, rfl⟩
    have hle := width_bytes_le w
    rw [Width.Covers, toNat_add_sub_self a i (by omega)]
    exact hi

-- The bytes that a read finds or draws.
def Memory.bytesRead (m : Memory) (w : Width) (a : Address) : List Byte :=
  ((m.checkAlignment w a).settleAll a w.bytes).1

/-- A read decodes the bytes it finds or settles. -/
theorem read_value (m : Memory) (w : Width) (a : Address) :
    (m.read w a).1 = w.decode (m.bytesRead w a) := rfl

@[simp] theorem length_bytesRead (m : Memory) (w : Width) (a : Address) :
    (m.bytesRead w a).length = w.bytes :=
  length_settleAll _ a w.bytes

/-- After a read, memory has the bytes that were read and otherwise what it had. -/
theorem get_read (m : Memory) (w : Width) (a b : Address) :
    (m.read w a).2.get? b = (m.bytesRead w a)[(b - a).toNat]?.or (m.get? b) := by
  have hs := get_settleAll (m.checkAlignment w a) a b w.bytes (width_bytes_le w)
  rw [get_checkAlignment] at hs
  refine Eq.trans ?_ hs
  simp only [Memory.read]
  split_ifs <;> rfl

theorem read_keeps (m : Memory) (w : Width) (a b : Address) (v : Byte) (h : m.get? b = some v) :
    (m.read w a).2.get? b = some v := by
  have hs := settleAll_keeps (m.checkAlignment w a) a b w.bytes v (by simpa using h)
  simp only [Memory.read]
  split_ifs <;> exact hs

/-- The byte of a word that a big-endian access of some width puts at a position. -/
theorem getElem_encode (w : Width) (v : Word) (i : Nat) :
    (w.encode v)[i]? = if i < w.bytes then some (v.extractLsb' (8 * (w.bytes - 1 - i)) 8) else none := by
  cases w with
  | byte => rcases i with _ | i <;> simp [Width.encode, Width.bytes]
  | half => rcases i with _ | _ | i <;> simp [Width.encode, Width.bytes]
  | word => rcases i with _ | _ | _ | _ | i <;> simp [Width.encode, Width.bytes]

theorem length_encode_le (w : Width) (v : Word) : (w.encode v).length ≤ wordCount := by
  cases w <;> exact Nat.le_of_ble_eq_true rfl

/-- A write stores the bytes of its value, most significant first, and no other. -/
theorem get_write (m : Memory) (w : Width) (a b : Address) (v : Word) :
    (m.write w a v).get? b =
      if w.Covers a b then some (v.extractLsb' (8 * (w.bytes - 1 - (b - a).toNat)) 8)
      else m.get? b := by
  rw [Memory.write, get_store _ a b _ (length_encode_le w v), getElem_encode, get_checkAlignment]
  by_cases hc : w.Covers a b
  · have hi : (b - a).toNat < w.bytes := hc
    rw [if_pos hi, if_pos hc, Option.some_or]
  · have hi : ¬(b - a).toNat < w.bytes := hc
    rw [if_neg hi, if_neg hc, Option.none_or]

theorem write_aligned (m : Memory) (w : Width) (a : Address) (value : Word)
    (h : w.bytes ∣ a.toNat) : m.write w a value = m.withContents (m.write w a value) := by
  have hm : m.checkAlignment w a = m := if_pos (Or.inl (Nat.mod_eq_zero_of_dvd h))
  rw [Memory.write, hm]
  exact store_eq m a _

theorem write_entropy (m : Memory) (w : Width) (a : Address) (value : Word) :
    (m.write w a value).entropy = m.entropy := by
  rw [Memory.write, store_eq, Memory.checkAlignment]
  split_ifs <;> rfl

/-- The first access that is not aligned is warned about. -/
theorem write_warnings (m : Memory) (w : Width) (a : Address) (value : Word)
    (h : m.misaligned = ∅) :
    (m.write w a value).warnings =
      if w.bytes ∣ a.toNat then m.warnings else m.warnings.push (.unaligned a w) := by
  rw [Memory.write, store_eq, Memory.checkAlignment, h]
  simp only [Std.ExtTreeSet.contains_empty, Bool.false_eq_true, or_false, ← Nat.dvd_iff_mod_eq_zero]
  split_ifs <;> rfl

end PagedMachine
