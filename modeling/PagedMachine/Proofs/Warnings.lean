import Mathlib.Data.List.Nodup
import PagedMachine.Proofs.Image

/-! The warnings of a memory. What an access is warned about depends on the accesses before it alone: the
memory remembers which bytes they have touched and at which addresses they were not aligned, and forgets
none of it when its warnings are taken. -/
namespace PagedMachine

def Access.width : Access → Width
  | .read w _ => w
  | .write w _ _ => w

def Access.address : Access → Address
  | .read _ a => a
  | .write _ a _ => a

def Access.isRead : Access → Bool
  | .read _ _ => true
  | .write _ _ _ => false

instance (x : Access) (b : Address) : Decidable (x.Covers b) :=
  match x with
  | .read w a => inferInstanceAs (Decidable (w.Covers a b))
  | .write w a _ => inferInstanceAs (Decidable (w.Covers a b))

-- The bytes of an access in the order of its addresses, which wrap around.
def Access.bytes (x : Access) : List Address :=
  (List.range x.width.bytes).map fun i => x.address + BitVec.ofNat 32 i

-- Whether an access is at a given address and not aligned to its width.
def Access.MisalignedAt (x : Access) (a : Address) : Prop :=
  x.address = a ∧ a.toNat % x.width.bytes ≠ 0

instance (x : Access) (a : Address) : Decidable (x.MisalignedAt a) :=
  inferInstanceAs (Decidable (_ ∧ _))

-- The bytes that a read is the first access to touch.
def Access.charged (earlier : List Access) (x : Access) : List Address :=
  if x.isRead then x.bytes.filter fun b => ∀ y ∈ earlier, ¬y.Covers b else []

-- The warnings that an access deserves when others came before it.
def Access.warnings (earlier : List Access) (x : Access) : List Warning :=
  (if x.MisalignedAt x.address ∧ ∀ y ∈ earlier, ¬y.MisalignedAt x.address then
    [.unaligned x.address x.width] else []) ++
  (if x.charged earlier ≠ [] then [.uninitialized x.address] else [])

-- The warnings that a history deserves, each access for what came before it.
def warningsAfter (earlier : List Access) : List Access → List Warning
  | [] => []
  | x :: xs => x.warnings earlier ++ warningsAfter (earlier ++ [x]) xs

-- The bytes that the warnings of a history are charged with.
def chargedAfter (earlier : List Access) : List Access → List Address
  | [] => []
  | x :: xs => x.charged earlier ++ chargedAfter (earlier ++ [x]) xs

-- The memory after an access, whatever value is read.
def Memory.access (m : Memory) : Access → Memory
  | .read w a => (m.read w a).2
  | .write w a value => m.write w a value

inductive Request where
  | access (x : Access)
  | takeWarnings
  deriving DecidableEq, Repr

def accesses : List Request → List Access
  | [] => []
  | .access x :: qs => x :: accesses qs
  | .takeWarnings :: qs => accesses qs

-- The warnings that are handed over while requests are served, and the memory that they leave.
def Memory.serve (m : Memory) : List Request → List Warning × Memory
  | [] => ([], m)
  | .access x :: qs => (m.access x).serve qs
  | .takeWarnings :: qs =>
    let (taken, m) := m.takeWarnings
    let (later, m) := m.serve qs
    (taken ++ later, m)

-- A memory has stored what earlier accesses touched, and marked where they were not aligned.
structure Memory.Remembers (m : Memory) (earlier : List Access) : Prop where
  stored : ∀ b, (m.get? b).isSome = true ↔ ∃ y ∈ earlier, y.Covers b
  misaligned : ∀ a, m.misaligned.contains a = true ↔ ∃ y ∈ earlier, y.MisalignedAt a

-- Whether a warning is about an access that was not aligned at an address.
def Warning.isUnalignedAt (a : Address) : Warning → Bool
  | .unaligned b _ => b == a
  | .uninitialized _ => false

/-! The bytes of an access. -/

theorem mem_bytes (x : Access) (b : Address) : b ∈ x.bytes ↔ x.Covers b := by
  have h : b ∈ x.bytes ↔ x.width.Covers x.address b := by
    rw [covers_iff, Access.bytes, List.mem_map]
    simp only [List.mem_range, eq_comm]
  cases x <;> exact h

theorem nodup_bytes (x : Access) : x.bytes.Nodup := by
  apply List.Nodup.map_on _ List.nodup_range
  intro i hi j hj h
  have hle := width_bytes_le x.width
  rw [List.mem_range] at hi hj
  -- Two distances below the width that lead to the same address are the same.
  rw [← toNat_add_sub_self x.address i (by omega), h, toNat_add_sub_self x.address j (by omega)]

/-- A read is charged with the bytes that no earlier access covered. -/
theorem mem_charged (earlier : List Access) (x : Access) (b : Address) :
    b ∈ x.charged earlier ↔ x.isRead = true ∧ x.Covers b ∧ ∀ y ∈ earlier, ¬y.Covers b := by
  rw [Access.charged]
  split_ifs with h
  · simp [h, mem_bytes]
  · simp [h]

/-! What an access does to what is remembered, and what it is warned about. -/

theorem remembers_empty (r : Entropy) : (Memory.empty r).Remembers [] where
  stored b := by simp
  misaligned a := by simp [Memory.empty]

/-- An access stores the bytes it covers and forgets none. -/
theorem access_stored (m : Memory) (x : Access) (b : Address) :
    ((m.access x).get? b).isSome = true ↔ x.Covers b ∨ (m.get? b).isSome = true := by
  cases x with
  | read w a => exact read_stored m w a b
  | write w a v => exact write_stored m w a b v

theorem mem_checkAlignment (m : Memory) (w : Width) (a b : Address) :
    (m.checkAlignment w a).misaligned.contains b = true ↔
      (a = b ∧ b.toNat % w.bytes ≠ 0) ∨ m.misaligned.contains b = true := by
  simp only [Memory.checkAlignment]
  split_ifs with h
  · constructor
    · exact Or.inr
    · rintro (⟨rfl, hb⟩ | hb)
      · exact h.resolve_left hb
      · exact hb
  · have hinsert : (m.misaligned.insert a).contains b = true ↔ a = b ∨ m.misaligned.contains b = true := by
      rw [Std.ExtTreeSet.contains_insert, Bool.or_eq_true, beq_iff_eq, Std.compare_eq_iff_eq]
    refine hinsert.trans (or_congr_left ?_)
    constructor
    · rintro rfl
      exact ⟨rfl, fun hb => h (Or.inl hb)⟩
    · exact And.left

/-- An unaligned access is reported unless its address was noted before. -/
theorem checkAlignment_warnings (m : Memory) (w : Width) (a : Address) :
    (m.checkAlignment w a).warnings.toList = m.warnings.toList ++
      if a.toNat % w.bytes ≠ 0 ∧ ¬m.misaligned.contains a = true then [.unaligned a w] else [] := by
  simp only [Memory.checkAlignment, ← not_or]
  split_ifs
  · simp
  · simp [Memory.warn]

/-- An access marks its address and warns as its alignment asks; a read warns also of missing bytes. -/
theorem access_reports (m : Memory) (x : Access) :
    (m.access x).misaligned = (m.checkAlignment x.width x.address).misaligned ∧
      (m.access x).warnings.toList = (m.checkAlignment x.width x.address).warnings.toList ++
        if x.isRead = true ∧ m.isMissing x.address x.width.bytes = true then [.uninitialized x.address]
        else [] := by
  cases x with
  | read w a =>
    have hs := settleAll_reports (m.checkAlignment w a) a w.bytes
    simp only [Memory.access, Memory.read, Access.width, Access.address, Access.isRead, true_and]
    split_ifs
    · simp [Memory.warn, hs]
    · simp [hs]
  | write w a v =>
    simp only [Memory.access, Memory.write, Access.width, Access.address, Access.isRead]
    rw [store_eq]
    simp

theorem isMissing_iff (m : Memory) (x : Access) :
    m.isMissing x.address x.width.bytes = true ↔ ∃ b, x.Covers b ∧ (m.get? b).isSome = false := by
  have hcontains (b : Address) : m.contains b = (m.get? b).isSome :=
    Std.ExtTreeMap.contains_eq_isSome_getElem?
  have hbytes : m.isMissing x.address x.width.bytes = x.bytes.any fun b => !m.contains b := by
    rw [Memory.isMissing, Access.bytes, List.any_map]
    rfl
  simp only [hbytes, List.any_eq_true, mem_bytes, hcontains, Bool.not_eq_true']

section Remembers

variable (m : Memory) (earlier : List Access) (x : Access)

theorem misaligned_before (h : m.Remembers earlier) :
    (x.address.toNat % x.width.bytes ≠ 0 ∧ ¬m.misaligned.contains x.address = true) ↔
      x.MisalignedAt x.address ∧ ∀ y ∈ earlier, ¬y.MisalignedAt x.address := by
  rw [h.misaligned]
  simp [Access.MisalignedAt]

/-- A read finds a byte missing exactly when it is charged with one. -/
theorem missing_before (h : m.Remembers earlier) :
    (x.isRead = true ∧ m.isMissing x.address x.width.bytes = true) ↔ x.charged earlier ≠ [] := by
  have hfresh (b : Address) : (m.get? b).isSome = false ↔ ∀ y ∈ earlier, ¬y.Covers b := by
    rw [← Bool.not_eq_true, h.stored]
    simp
  rw [isMissing_iff, Ne, List.eq_nil_iff_forall_not_mem, not_forall]
  simp only [hfresh, mem_charged, not_not, exists_and_left]

/-- A memory that remembers a history remembers one more access. -/
theorem access_remembers (h : m.Remembers earlier) : (m.access x).Remembers (earlier ++ [x]) where
  stored b := by
    rw [access_stored, h.stored]
    simp [or_and_right, exists_or, or_comm]
  misaligned a := by
    rw [(access_reports m x).1, mem_checkAlignment, h.misaligned]
    simp [or_and_right, exists_or, or_comm, Access.MisalignedAt]

/-- An access is warned about as it deserves. -/
theorem access_warnings (h : m.Remembers earlier) :
    (m.access x).warnings.toList = m.warnings.toList ++ x.warnings earlier := by
  rw [(access_reports m x).2, checkAlignment_warnings, Access.warnings, List.append_assoc]
  simp only [misaligned_before m earlier x h, missing_before m earlier x h]

end Remembers

/-! Histories. -/

/-- What is handed over and what is left are together the warnings that were there before and those that the
accesses deserve: no request but an access raises any, and taking them loses none. -/
theorem serve_warnings (qs : List Request) (m : Memory) (earlier : List Access)
    (h : m.Remembers earlier) :
    (m.serve qs).2.Remembers (earlier ++ accesses qs) ∧
      (m.serve qs).1 ++ (m.serve qs).2.warnings.toList =
        m.warnings.toList ++ warningsAfter earlier (accesses qs) := by
  induction qs generalizing m earlier with
  | nil =>
    rw [accesses, List.append_nil]
    exact ⟨h, by simp [Memory.serve, warningsAfter]⟩
  | cons q qs ih =>
    cases q with
    | access x =>
      obtain ⟨hlast, hwarnings⟩ := ih (m.access x) (earlier ++ [x]) (access_remembers m earlier x h)
      rw [access_warnings m earlier x h, List.append_assoc] at hwarnings
      rw [List.append_assoc] at hlast
      exact ⟨hlast, hwarnings⟩
    | takeWarnings =>
      obtain ⟨hlast, hwarnings⟩ := ih m.takeWarnings.2 earlier ⟨h.stored, h.misaligned⟩
      refine ⟨hlast, ?_⟩
      simp only [Memory.serve, Memory.takeWarnings, List.append_assoc, accesses] at hwarnings ⊢
      rw [hwarnings, List.nil_append]

theorem charged_not_covered (xs earlier : List Access) (b : Address) (hb : b ∈ chargedAfter earlier xs)
    (y : Access) (hy : y ∈ earlier) : ¬y.Covers b := by
  induction xs generalizing earlier with
  | nil => contradiction
  | cons x xs ih =>
    rcases List.mem_append.mp hb with hb | hb
    · exact ((mem_charged earlier x b).mp hb).2.2 y hy
    · exact ih (earlier ++ [x]) hb (List.mem_append_left _ hy)

/-- No byte is charged twice: an access that it is charged to covers it. -/
theorem charged_nodup (xs earlier : List Access) : (chargedAfter earlier xs).Nodup := by
  induction xs generalizing earlier with
  | nil => exact List.nodup_nil
  | cons x xs ih =>
    have hfirst : (x.charged earlier).Nodup := by
      rw [Access.charged]
      split_ifs
      · exact (nodup_bytes x).filter _
      · exact List.nodup_nil
    refine List.nodup_append.mpr ⟨hfirst, ih (earlier ++ [x]), ?_⟩
    rintro b hb _ hb' rfl
    have hc := ((mem_charged earlier x b).mp hb).2.1
    exact charged_not_covered xs (earlier ++ [x]) b hb' x (by simp) hc

/-- An unaligned address is reported once, by the first unaligned access to it. -/
theorem count_unaligned (earlier : List Access) (x : Access) (a : Address) :
    (x.warnings earlier).countP (·.isUnalignedAt a) =
      if x.MisalignedAt a ∧ ∀ y ∈ earlier, ¬y.MisalignedAt a then 1 else 0 := by
  have hread : (if x.charged earlier ≠ [] then [Warning.uninitialized x.address] else []).countP
      (·.isUnalignedAt a) = 0 := by
    split_ifs <;> rfl
  rw [Access.warnings, List.countP_append, hread, Nat.add_zero]
  by_cases ha : x.address = a
  · subst ha
    split_ifs
    · simp [Warning.isUnalignedAt]
    · rfl
  · have hno : ¬(x.MisalignedAt a ∧ ∀ y ∈ earlier, ¬y.MisalignedAt a) := fun h => ha h.1.1
    rw [if_neg hno]
    split_ifs
    · simp [Warning.isUnalignedAt, ha]
    · rfl

/-- Of all accesses at an address only the first one that is not aligned is warned about that. -/
theorem unaligned_once (xs earlier : List Access) (a : Address) :
    (warningsAfter earlier xs).countP (·.isUnalignedAt a) ≤
      if ∀ y ∈ earlier, ¬y.MisalignedAt a then 1 else 0 := by
  induction xs generalizing earlier with
  | nil => simp [warningsAfter]
  | cons x xs ih =>
    have hrest := ih (earlier ++ [x])
    rw [warningsAfter, List.countP_append, count_unaligned]
    simp only [List.forall_mem_append, List.forall_mem_singleton] at hrest
    by_cases hx : x.MisalignedAt a
    · simp only [hx, not_true_eq_false, and_false, ↓reduceIte, true_and] at hrest ⊢
      omega
    · simpa [hx] using hrest

/-- The warnings of a memory are exact over whole histories. After any reads and writes of any widths, with
warnings taken in between at will, a further access adds a warning that it is not aligned if and only if it
is not and no access at its address was so before, and then one that it is uninitialized if and only if it is
a read and one of its bytes was touched by no access before. All warnings that were ever handed over or are
still there are those that the accesses have added, in order; no address is reported twice as not aligned,
and no byte is charged to two reads. -/
theorem memory_warnings_exact (r : Entropy) (qs : List Request) :
    (∀ x, (((Memory.empty r).serve qs).2.access x).warnings.toList =
        ((Memory.empty r).serve qs).2.warnings.toList ++ x.warnings (accesses qs)) ∧
      ((Memory.empty r).serve qs).1 ++ ((Memory.empty r).serve qs).2.warnings.toList =
        warningsAfter [] (accesses qs) ∧
      (∀ a, (warningsAfter [] (accesses qs)).countP (·.isUnalignedAt a) ≤ 1) ∧
      (chargedAfter [] (accesses qs)).Nodup := by
  obtain ⟨hlast, hwarnings⟩ := serve_warnings qs _ [] (remembers_empty r)
  refine ⟨fun x => access_warnings _ _ x hlast, hwarnings, ?_, charged_nodup _ []⟩
  intro a
  simpa using unaligned_once (accesses qs) [] a

-- The second access is at an address that has been reported, the third has three bytes that are new.
example : warningsAfter [] [.read .half 3, .write .word 3 7, .read .word 0] =
    [.unaligned 3 .half, .uninitialized 3, .uninitialized 0] := by decide

end PagedMachine
