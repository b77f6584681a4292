import Mathlib.Data.Rat.Floor
import PagedMachine.Operation

/-! Words as integers. The operations and relations on words are those of the integers that the words stand
for, signed or unsigned, and what does not fit into a word is cut off modulo 2³². -/
namespace PagedMachine

def Operation.arithmetic : List Operation :=
  [.add, .sub, .mul, .and, .or, .xor, .nand, .nor, .shl, .shr, .sar]

-- What the value of an operation has to be. Sums, differences and products are those of signed integers,
-- reduced to the signed range; bitwise operations go by the bits; a shift by fewer than 32 bits multiplies,
-- or divides and rounds down, and any other amount, among them all negative ones, leaves zero.
def Operation.Computes (o : Operation) (dst src w : Word) : Prop :=
  match o with
  | .add => w.toInt = (dst.toInt + src.toInt).bmod (2 ^ 32)
  | .sub => w.toInt = (dst.toInt - src.toInt).bmod (2 ^ 32)
  | .mul => w.toInt = (dst.toInt * src.toInt).bmod (2 ^ 32)
  | .and => ∀ i < 32, w.getLsbD i = (dst.getLsbD i && src.getLsbD i)
  | .or => ∀ i < 32, w.getLsbD i = (dst.getLsbD i || src.getLsbD i)
  | .xor => ∀ i < 32, w.getLsbD i = (dst.getLsbD i ^^ src.getLsbD i)
  | .nand => ∀ i < 32, w.getLsbD i = !(dst.getLsbD i && src.getLsbD i)
  | .nor => ∀ i < 32, w.getLsbD i = !(dst.getLsbD i || src.getLsbD i)
  | .shl => if src.toNat < 32 then w.toNat = dst.toNat * 2 ^ src.toNat % 2 ^ 32 else w.toNat = 0
  | .shr => if src.toNat < 32 then (w.toNat : Int) = ⌊(dst.toNat : ℚ) / 2 ^ src.toNat⌋ else w.toNat = 0
  | .sar => if src.toNat < 32 then w.toInt = ⌊(dst.toInt : ℚ) / 2 ^ src.toNat⌋ else w.toNat = 0
  | _ => False

-- The comparison of two words that a relation is named for.
def Relation.Compares : Relation → Word → Word → Prop
  | .eq, left, right => left.toInt = right.toInt
  | .ne, left, right => left.toInt ≠ right.toInt
  | .lt, left, right => left.toInt < right.toInt
  | .le, left, right => left.toInt ≤ right.toInt
  | .gt, left, right => left.toInt > right.toInt
  | .ge, left, right => left.toInt ≥ right.toInt
  | .ltu, left, right => left.toNat < right.toNat
  | .leu, left, right => left.toNat ≤ right.toNat
  | .gtu, left, right => left.toNat > right.toNat
  | .geu, left, right => left.toNat ≥ right.toNat

-- The relation that holds where a given one does not.
def Relation.complement : Relation → Relation
  | .eq => .ne
  | .ne => .eq
  | .lt => .ge
  | .ge => .lt
  | .gt => .le
  | .le => .gt
  | .ltu => .geu
  | .geu => .ltu
  | .gtu => .leu
  | .leu => .gtu

/-! Operations. -/

theorem eq_iff_bits (v w : Word) : v = w ↔ ∀ i < 32, w.getLsbD i = v.getLsbD i := by
  constructor
  · rintro rfl i -
    rfl
  · intro h
    apply BitVec.eq_of_getLsbD_eq
    intro i hi
    exact (h i hi).symm

theorem floor_div_two_pow (x : Int) (n : Nat) : ⌊(x : ℚ) / 2 ^ n⌋ = x / 2 ^ n := by
  have h := Rat.floor_intCast_div_natCast x (2 ^ n)
  push_cast at h
  exact h

/-- An arithmetic shift divides the signed value and rounds down. -/
theorem toInt_sshiftRight_floor (d : Word) (n : Nat) :
    (d.sshiftRight n).toInt = ⌊(d.toInt : ℚ) / 2 ^ n⌋ := by
  rw [floor_div_two_pow, BitVec.toInt_sshiftRight, Int.shiftRight_eq_div_pow]
  push_cast
  rfl

theorem toNat_ushiftRight_floor (d : Word) (n : Nat) :
    ((d >>> n).toNat : Int) = ⌊(d.toNat : ℚ) / 2 ^ n⌋ := by
  have h := floor_div_two_pow d.toNat n
  rw [Int.cast_natCast] at h
  rw [h, BitVec.toNat_ushiftRight, Nat.shiftRight_eq_div_pow]
  push_cast
  rfl

/-- A shift is determined by what it does for amounts below the width. -/
theorem shiftWith_eq_iff (shift : Word → Nat → Word) (d s w : Word) (P : Prop)
    (h : shift d s.toNat = w ↔ P) :
    shiftWith shift d s = w ↔ if s.toNat < 32 then P else w.toNat = 0 := by
  simp only [shiftWith]
  split
  · exact h
  · rw [eq_comm, ← BitVec.toNat_inj]
    rfl

theorem result_isSome_iff (o : Operation) (d s : Word) :
    (o.result? d s).isSome = true ↔ o ∈ Operation.arithmetic := by
  cases o <;> simp [Operation.result?, Operation.arithmetic]

/-- An operation results in exactly the words its integers compute to. -/
theorem result_computes (o : Operation) (d s w : Word) :
    o.result? d s = some w ↔ o.Computes d s w := by
  cases o with
  | add | sub | mul =>
    simp only [Operation.result?, Option.some.injEq, Operation.Computes, ← BitVec.toInt_add,
      ← BitVec.toInt_sub, ← BitVec.toInt_mul, BitVec.toInt_inj]
    exact eq_comm
  | and | or | xor | nand | nor =>
    simp only [Operation.result?, Option.some.injEq, Operation.Computes, eq_iff_bits]
    refine forall_congr' fun i => forall_congr' fun hi => ?_
    simp [hi]
  | shl =>
    simp only [Operation.result?, Option.some.injEq, Operation.Computes]
    apply shiftWith_eq_iff
    rw [eq_comm, ← BitVec.toNat_inj, BitVec.toNat_shiftLeft, Nat.shiftLeft_eq]
  | shr =>
    simp only [Operation.result?, Option.some.injEq, Operation.Computes]
    apply shiftWith_eq_iff
    rw [← toNat_ushiftRight_floor, Int.natCast_inj, BitVec.toNat_inj]
    exact eq_comm
  | sar =>
    simp only [Operation.result?, Option.some.injEq, Operation.Computes]
    apply shiftWith_eq_iff
    rw [← toInt_sshiftRight_floor, BitVec.toInt_inj]
    exact eq_comm
  | nop | not | mov | movc | mulu | muls | xchg | cmp =>
    simp [Operation.result?, Operation.Computes]

theorem sub_undoes_add (d s : Word) :
    (Operation.add.result? d s).bind (Operation.sub.result? · s) = some d :=
  congrArg some (BitVec.add_sub_cancel d s)

/-! Relations. -/

/-- The threshold on the codes picks out the relations whose names end in `u`. -/
theorem isUnsigned_iff (r : Relation) :
    r.isUnsigned = true ↔ r ∈ [Relation.ltu, .leu, .gtu, .geu] := by
  cases r <;> decide

/-- Row by row, the truth table accepts the orderings that a relation is named for. -/
theorem accepts_eq (r : Relation) (o : Ordering) :
    r.accepts o =
      match r with
      | .eq => o == .eq
      | .ne => o != .eq
      | .lt | .ltu => o == .lt
      | .le | .leu => o != .gt
      | .gt | .gtu => o == .gt
      | .ge | .geu => o != .lt := by
  cases r <;> cases o <;> decide

/-- A relation holds between two words exactly if the comparison it is named for does. -/
theorem holds_compares (r : Relation) (d s : Word) : r.holds d s = true ↔ r.Compares d s := by
  cases r with
  | eq | ne | lt | le | gt | ge =>
    simp [Relation.holds, isUnsigned_iff, accepts_eq, Relation.Compares, Int.compare_eq_lt,
      Int.compare_eq_gt]
  | ltu | leu | gtu | geu =>
    simp [Relation.holds, isUnsigned_iff, accepts_eq, Relation.Compares, Nat.compare_eq_lt,
      Nat.compare_eq_gt]

theorem compares_complement (r : Relation) (d s : Word) :
    r.complement.Compares d s ↔ ¬r.Compares d s := by
  cases r <;> simp [Relation.complement, Relation.Compares]

/-- A relation and its complement exclude each other and leave nothing out. -/
theorem holds_complement (r : Relation) (d s : Word) : r.complement.holds d s = !r.holds d s := by
  rw [Bool.eq_not, Ne, Bool.eq_iff_iff, holds_compares, holds_compares, compares_complement]
  exact not_iff_self

/-- The machine computes with integers. Eleven operations give a value, and it is the one that their
definition on integers or on bits asks for, for every two words; a relation holds between two words exactly
if the comparison it is named for does, signed or unsigned, so that each is the negation of its complement;
and a subtraction undoes an addition. -/
theorem words_compute_integers (d s : Word) :
    (∀ o : Operation, (o.result? d s).isSome = true ↔ o ∈ Operation.arithmetic) ∧
    (∀ (o : Operation) (w : Word), o.result? d s = some w ↔ o.Computes d s w) ∧
    (∀ r : Relation, r.holds d s = true ↔ r.Compares d s) ∧
    (∀ r : Relation, r.complement.complement = r ∧ r.complement.holds d s = !r.holds d s) ∧
    (Operation.add.result? d s).bind (Operation.sub.result? · s) = some d := by
  refine ⟨fun o => result_isSome_iff o d s, fun o w => result_computes o d s w,
    fun r => holds_compares r d s, ?_, sub_undoes_add d s⟩
  intro r
  refine ⟨?_, holds_complement r d s⟩
  cases r <;> rfl

-- The low five bits of the second amount would be a shift by one.
example : Operation.sar.result? (-16) 2 = some (-4) ∧ Operation.shr.result? (-1) 0x21 = some 0 := by
  decide

end PagedMachine
