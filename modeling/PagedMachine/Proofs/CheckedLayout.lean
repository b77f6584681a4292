import PagedMachine.Proofs.Layout

/-! Placement in machine words. The layout is computed here with 32-bit offsets and additions that fail when
they overflow; on every page this comes out as the layout in natural numbers, so no addition overflows. -/
namespace PagedMachine

-- The sum of two words, if it is one.
def sum? (a b : Word) : Option Word :=
  if a.toNat + b.toNat < wordCount then some (a + b) else none

-- Rounds an offset up by clearing the low bits of the last offset that could still be rounded to it.
def alignUp? (offset alignment : Word) : Option Word := do
  return (← sum? offset alignment) - 1 &&& ~~~(alignment - 1)

-- Places instructions from an offset on. The second result is where they end, if all of them fit.
def placeInstructions? (base : Address) :
    Word → List LabeledInstruction → Option (List (LabeledInstruction × Address) × Option Word)
  | offset, [] => some ([], some offset)
  | offset, i :: is => do
    let stop ← sum? offset (BitVec.ofNat 32 instructionSize)
    if stop.toNat ≤ pageSize then
      let a ← sum? base offset
      let (placed, last) ← placeInstructions? base stop is
      return ((i, a) :: placed, last)
    else return ([], none)

-- Places literals from an offset on. The second result tells whether all of them fit.
def placeLiterals? (base : Address) :
    Word → List LabeledLiteral → Option (List (LabeledLiteral × Address) × Bool)
  | _, [] => some ([], true)
  | offset, l :: ls => do
    let start ← alignUp? offset (BitVec.ofNat 32 l.width.bytes)
    let stop ← sum? start (BitVec.ofNat 32 l.width.bytes)
    if stop.toNat ≤ pageSize then
      let a ← sum? base start
      let (placed, fits) ← placeLiterals? base stop ls
      return ((l, a) :: placed, fits)
    else return ([], false)

-- Places a module from the base of its page on, or fails if an addition overflows on the way.
def Module.place? (m : Module) (base : Address) :
    Option (List (LabeledInstruction × Address) × List (LabeledLiteral × Address) × Bool) := do
  let (is, last) ← placeInstructions? base 0 m.instructions
  match last with
  | some offset => return (is, ← placeLiterals? base offset m.literals)
  | none => return (is, [], false)

theorem toNat_ofNat_word (n : Nat) (h : n < wordCount) : (BitVec.ofNat 32 n).toNat = n :=
  Nat.mod_eq_of_lt h

theorem sum_ofNat (a b : Nat) (h : a + b < wordCount) :
    sum? (BitVec.ofNat 32 a) (BitVec.ofNat 32 b) = some (BitVec.ofNat 32 (a + b)) := by
  have ha := toNat_ofNat_word a (by omega)
  have hb := toNat_ofNat_word b (by omega)
  rw [sum?, ha, hb, if_pos h, BitVec.ofNat_add]

theorem sum_pageBase (id offset : Nat) (hid : id ≤ maxPage) (ho : offset < pageSize) :
    sum? (pageBase id) (BitVec.ofNat 32 offset) = some (pageBase id + BitVec.ofNat 32 offset) := by
  have hend := page_end_le id hid
  have hstack : initialStack.toNat < wordCount := initialStack.isLt
  have hb := toNat_pageBase id hid
  have hn := toNat_ofNat_word offset (by omega)
  rw [sum?, hb, hn, if_pos (by omega)]

/-- To clear bits is to subtract them. -/
theorem toNat_and_not (x m : Word) : (x &&& ~~~m).toNat = x.toNat - (x.toNat &&& m.toNat) := by
  have hdisjoint : (x &&& ~~~m) &&& (x &&& m) = 0#32 := by
    ext i hi
    cases hm : m[i] <;> simp [hm]
  have hsum : (x &&& ~~~m) + (x &&& m) = x := by
    rw [BitVec.add_eq_or_of_and_eq_zero _ _ hdisjoint]
    ext i hi
    cases hm : m[i] <;> simp [hm]
  have hn := BitVec.toNat_add_of_and_eq_zero hdisjoint
  rw [hsum, BitVec.toNat_and x m] at hn
  omega

theorem alignUp_ofNat (offset : Nat) (w : Width) (h : offset ≤ pageSize) :
    alignUp? (BitVec.ofNat 32 offset) (BitVec.ofNat 32 w.bytes) =
      some (BitVec.ofNat 32 (alignUp offset w.bytes)) := by
  have hw : 0 < w.bytes ∧ w.bytes ≤ 4 := by
    cases w <;> decide
  have hlast : (BitVec.ofNat 32 (offset + w.bytes) - 1).toNat = offset + (w.bytes - 1) := by
    simp only [pageSize] at h
    bv_omega
  have hmask : (BitVec.ofNat 32 w.bytes - 1).toNat = w.bytes - 1 := by
    bv_omega
  have hround : BitVec.ofNat 32 (offset + w.bytes) - 1 &&& ~~~(BitVec.ofNat 32 w.bytes - 1) =
      BitVec.ofNat 32 (alignUp offset w.bytes) := by
    apply BitVec.eq_of_toNat_eq
    rw [toNat_and_not, hlast, hmask, BitVec.toNat_ofNat, alignUp, Nat.mod_eq_of_lt]
    simp only [pageSize] at h
    omega
  rw [alignUp?, sum_ofNat offset w.bytes (by simp only [pageSize, wordCount] at *; omega)]
  exact congrArg some hround

-- The places of instructions when the first of them is number `n` of its module.
def strided (base : Address) (n : Nat) (is : List LabeledInstruction) :
    List (LabeledInstruction × Address) :=
  ((is.take (instructionCapacity - n)).zipIdx n).map fun (i, k) =>
    (i, base + BitVec.ofNat 32 (k * instructionSize))

theorem strided_cons (base : Address) (n : Nat) (i : LabeledInstruction)
    (is : List LabeledInstruction) (h : n + 1 ≤ instructionCapacity) :
    strided base n (i :: is) =
      (i, base + BitVec.ofNat 32 (n * instructionSize)) :: strided base (n + 1) is := by
  have hroom : instructionCapacity - n = instructionCapacity - (n + 1) + 1 := by omega
  rw [strided, hroom, List.take_succ_cons, List.zipIdx_cons, List.map_cons, strided]

/-- Behind the last slot of a page no instruction is placed. -/
theorem strided_full (base : Address) (n : Nat) (is : List LabeledInstruction)
    (h : instructionCapacity ≤ n) : strided base n is = [] := by
  simp [strided, Nat.sub_eq_zero_of_le h]

/-- Placing instructions with checked words never overflows, and places them at equal strides. -/
theorem placeInstructions_eq (id : Nat) (hid : id ≤ maxPage) (is : List LabeledInstruction) (n : Nat)
    (hn : n ≤ instructionCapacity) :
    placeInstructions? (pageBase id) (BitVec.ofNat 32 (n * instructionSize)) is =
      some (strided (pageBase id) n is,
        if n + is.length ≤ instructionCapacity then
          some (BitVec.ofNat 32 ((n + is.length) * instructionSize))
        else none) := by
  induction is generalizing n with
  | nil => simp [placeInstructions?, strided, hn]
  | cons i is ih =>
    have hstop : (n + 1) * instructionSize < wordCount := by
      simp only [instructionCapacity, instructionSize, pageSize, wordCount] at hn ⊢
      omega
    have hfit : (n + 1) * instructionSize ≤ pageSize ↔ n + 1 ≤ instructionCapacity := by
      simp only [instructionCapacity, instructionSize, pageSize]
      omega
    have hsum : sum? (BitVec.ofNat 32 (n * instructionSize)) (BitVec.ofNat 32 instructionSize) =
        some (BitVec.ofNat 32 ((n + 1) * instructionSize)) := by
      rw [Nat.succ_mul] at hstop ⊢
      exact sum_ofNat _ _ hstop
    have hlength : n + (i :: is).length = n + 1 + is.length := by
      rw [List.length_cons]
      omega
    simp only [placeInstructions?, hsum, Option.bind_eq_bind, Option.bind_some,
      toNat_ofNat_word _ hstop, hfit, hlength]
    by_cases h : n + 1 ≤ instructionCapacity
    · have hstart : n * instructionSize < pageSize := by
        have hle := hfit.mpr h
        simp only [instructionSize] at hle ⊢
        omega
      rw [if_pos h, sum_pageBase id _ hid hstart, Option.bind_some, ih (n + 1) h,
        strided_cons _ n i is h]
      rfl
    · rw [if_neg h, strided_full _ n _ (by omega), if_neg (by omega)]
      rfl

/-- Placing literals with checked words never overflows, and agrees with the placement over
numbers. -/
theorem placeLiterals_eq (id : Nat) (hid : id ≤ maxPage) (ls : List LabeledLiteral) (offset : Nat)
    (ho : offset ≤ pageSize) :
    placeLiterals? (pageBase id) (BitVec.ofNat 32 offset) ls =
      some (placeFrom (pageBase id) offset ls) := by
  induction ls generalizing offset with
  | nil => rfl
  | cons l ls ih =>
    have hw : 0 < l.width.bytes ∧ l.width.bytes ≤ 4 := by
      cases l.width <;> decide
    have hstart : alignUp offset l.width.bytes ≤ offset + (l.width.bytes - 1) := Nat.sub_le _ _
    have hstop : alignUp offset l.width.bytes + l.width.bytes < wordCount := by
      simp only [pageSize, wordCount] at *
      omega
    simp only [placeLiterals?, alignUp_ofNat offset l.width ho, sum_ofNat _ _ hstop,
      Option.bind_eq_bind, Option.bind_some, toNat_ofNat_word _ hstop, placeFrom]
    split_ifs with hfit
    · rw [sum_pageBase id _ hid (by omega), Option.bind_some, ih _ hfit]
      rfl
    · rfl

/-- On every page the placement in words is the one in natural numbers: no addition overflows. -/
theorem place_eq (m : Module) (id : Nat) (hid : id ≤ maxPage) :
    m.place? (pageBase id) =
      some (m.placeInstructions (pageBase id), m.placeLiterals (pageBase id)) := by
  have his := placeInstructions_eq id hid m.instructions 0 (Nat.zero_le _)
  rw [Nat.zero_mul, Nat.zero_add] at his
  have hstrided : strided (pageBase id) 0 m.instructions = m.placeInstructions (pageBase id) := rfl
  simp only [Module.place?, BitVec.ofNat_eq_ofNat, his, hstrided, Option.bind_eq_bind, Option.bind_some,
    Module.placeLiterals]
  split_ifs with hfit
  · have hend : m.instructions.length * instructionSize ≤ pageSize := by
      simp only [instructionCapacity, instructionSize, pageSize] at hfit ⊢
      omega
    simp only [placeLiterals_eq id hid m.literals _ hend]
    rfl
  · rfl

end PagedMachine
