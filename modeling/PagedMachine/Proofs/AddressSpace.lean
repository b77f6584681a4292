import PagedMachine.Module

/-! The arithmetic of pages. Pages up to `maxPage` lie below the stack, so that sums of a page's base
and an offset into the page do not wrap, and rounding up clears bits exactly as division does. -/
namespace PagedMachine

theorem alignUp_width (w : Width) (n : Nat) :
    alignUp n w.bytes = (n + (w.bytes - 1)) / w.bytes * w.bytes := by
  -- Every width is a power of two, so clearing the low bits is rounding by division.
  have hmask (k : Nat) : ∀ last, last - (last &&& (2 ^ k - 1)) = last / 2 ^ k * 2 ^ k := by
    intro last
    rw [Nat.and_two_pow_sub_one_eq_mod]
    have h := Nat.div_add_mod' last (2 ^ k)
    omega
  cases w with
  | byte => exact hmask 0 _
  | half => exact hmask 1 _
  | word => exact hmask 2 _

theorem le_alignUp (w : Width) (n : Nat) : n ≤ alignUp n w.bytes := by
  rw [alignUp_width]
  cases w <;> simp only [Width.bytes] <;> omega

theorem width_bytes_pos (w : Width) : 0 < w.bytes := by
  cases w <;> decide

theorem toNat_add_sub_self (a : Address) (n : Nat) (h : n < wordCount) :
    (a + BitVec.ofNat 32 n - a).toNat = n := by
  simp only [wordCount] at h
  bv_omega

/-- Every page ends below the stack. -/
theorem page_end_le (id : Nat) (hid : id ≤ maxPage) :
    programBase.toNat + id * pageSize + pageSize ≤ initialStack.toNat := by
  have hmax : maxPage = 32702 := by decide
  have hbase : programBase.toNat = 0x400000 := by decide
  have hstack : initialStack.toNat = 0x7fffff00 := by decide
  simp only [hbase, hstack, pageSize]
  omega

theorem toNat_pageBase (id : Nat) (hid : id ≤ maxPage) :
    (pageBase id).toNat = programBase.toNat + id * pageSize := by
  have hend := page_end_le id hid
  have hstack := initialStack.isLt
  have hid' : id * pageSize < 2 ^ 32 := by omega
  rw [pageBase, BitVec.toNat_add, BitVec.toNat_ofNat, Nat.mod_eq_of_lt hid',
    Nat.mod_eq_of_lt (by omega)]

/-- Sums of a page's base and an offset into the page do not wrap. -/
theorem toNat_pageBase_add (id offset : Nat) (hid : id ≤ maxPage) (ho : offset < pageSize) :
    (pageBase id + BitVec.ofNat 32 offset).toNat = programBase.toNat + id * pageSize + offset := by
  have hend := page_end_le id hid
  have hstack := initialStack.isLt
  have ho' : offset < 2 ^ 32 := by omega
  rw [BitVec.toNat_add, toNat_pageBase id hid, BitVec.toNat_ofNat, Nat.mod_eq_of_lt ho',
    Nat.mod_eq_of_lt (by omega)]

/-- The addresses from a page's base on lie on that page, up to its size. -/
theorem pageOf_within (id : Nat) (a : Address) (hid : id ≤ maxPage) (hle : (pageBase id).toNat ≤ a.toNat)
    (hlt : a.toNat < (pageBase id).toNat + pageSize) : pageOf? a = some id := by
  rw [toNat_pageBase id hid] at hle hlt
  have hlow : ¬a < programBase := by
    rw [BitVec.lt_def]
    omega
  have hpage : (a.toNat - programBase.toNat) / pageSize = id := by
    simp only [pageSize] at hle hlt ⊢
    omega
  simp only [pageOf?, hlow, hpage, hid, ↓reduceIte]

/-- Every offset into a page leads to an address on that page. -/
theorem pageOf_pageBase_add (id offset : Nat) (hid : id ≤ maxPage) (ho : offset < pageSize) :
    pageOf? (pageBase id + BitVec.ofNat 32 offset) = some id := by
  have hn := toNat_pageBase_add id offset hid ho
  rw [← toNat_pageBase id hid] at hn
  exact pageOf_within id _ hid (by omega) (by omega)

/-- No trap lies on a page. -/
theorem pageOf_trap (t : Trap) : pageOf? t.address = none := by
  cases t <;> decide

end PagedMachine
