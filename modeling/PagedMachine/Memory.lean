import PagedMachine.Module
import Std.Data.ExtTreeMap
import Std.Data.ExtTreeSet

/-!
Sparse memory. Values of several bytes are stored with the most significant byte first, and addresses
wrap around. Two conditions are reported as warnings and change nothing else: an access that is not
aligned to its width, once for each address, and a read of bytes that were never written, which get
drawn and kept, so that later reads agree. Where such bytes come from is a state and a rule that gives a byte
and the next state, so that every generator of bytes will do.

Beside the bytes, memory keeps the blocks of 256 bytes that contain one. The two are in step by the
type: `Memory.indexed` says so, and whatever stores a byte has to show it.
-/

namespace PagedMachine

structure Entropy where
  next : Nat → Byte × Nat
  state : Nat

def Entropy.draw (e : Entropy) : Byte × Entropy :=
  let (b, state) := e.next e.state
  (b, { e with state })

def multiplier : Nat := 1664525

def increment : Nat := 1013904223

-- The linear congruential generator on words with a given seed. The top byte of each state is handed out,
-- because the low bits of such a generator have short periods.
def Entropy.seeded (seed : Nat) : Entropy where
  next s :=
    let t := (s * multiplier + increment) % wordCount
    (BitVec.ofNat 8 (t / 0x1000000), t)
  state := seed

def Entropy.cycling (words : Array Word) : Entropy where
  next i := ((words[i % words.size]?.getD 0).setWidth 8, i + 1)
  state := 0

/-! Memory. -/

inductive Warning where
  | unaligned (address : Address) (width : Width)
  | uninitialized (address : Address)
  deriving DecidableEq, Repr

def Warning.message : Warning → String
  | .unaligned a w => s!"unaligned {w.bytes}-byte access at {a.hex}"
  | .uninitialized a => s!"read of uninitialized memory at {a.hex}"

-- The granularity at which touched memory is reported.
def blockSize : Nat := 0x100

def blockBase (a : Address) : Address :=
  a &&& ~~~BitVec.ofNat 32 (blockSize - 1)

def Indexes (touched : Std.ExtTreeSet Address compare) (bytes : Std.ExtTreeMap Address Byte compare) :
    Prop :=
  ∀ block, block ∈ touched ↔ ∃ a, a ∈ bytes ∧ blockBase a = block

theorem indexes_empty : Indexes ∅ ∅ := by
  intro block
  simp

/-- A byte and its block, put in together, leave the index in step with the bytes. -/
theorem indexes_insert (touched : Std.ExtTreeSet Address compare)
    (bytes : Std.ExtTreeMap Address Byte compare) (h : Indexes touched bytes) (a : Address) (b : Byte) :
    Indexes (touched.insert (blockBase a)) (bytes.insert a b) := by
  intro block
  rw [Std.ExtTreeSet.mem_insert, h block]
  simp only [Std.ExtTreeMap.mem_insert, Std.compare_eq_iff_eq]
  constructor
  · rintro (rfl | ⟨x, hx, hblock⟩)
    · exact ⟨a, Or.inl rfl, rfl⟩
    · exact ⟨x, Or.inr hx, hblock⟩
  · rintro ⟨x, rfl | hx, hblock⟩
    · exact Or.inl hblock
    · exact Or.inr ⟨x, hx, hblock⟩

structure Memory where
  bytes : Std.ExtTreeMap Address Byte compare
  -- The first addresses of the blocks that contain a stored byte.
  touched : Std.ExtTreeSet Address compare
  -- The addresses whose misalignment has been reported.
  misaligned : Std.ExtTreeSet Address compare
  -- The warnings that nobody has taken yet.
  warnings : Array Warning
  entropy : Entropy
  indexed : Indexes touched bytes

def Memory.empty (entropy : Entropy) : Memory :=
  ⟨∅, ∅, ∅, #[], entropy, indexes_empty⟩

def Memory.get? (m : Memory) (a : Address) : Option Byte :=
  m.bytes[a]?

def Memory.contains (m : Memory) (a : Address) : Bool :=
  m.bytes.contains a

def Memory.setByte (m : Memory) (a : Address) (b : Byte) : Memory :=
  { m with
    bytes := m.bytes.insert a b
    touched := m.touched.insert (blockBase a)
    indexed := indexes_insert m.touched m.bytes m.indexed a b }

-- Stores bytes at consecutive addresses.
def Memory.store (m : Memory) (a : Address) : List Byte → Memory
  | [] => m
  | b :: bs => (m.setByte a b).store (a + 1) bs

-- The byte at an address. One that is missing is drawn and kept.
def Memory.settle (m : Memory) (a : Address) : Byte × Memory :=
  match m.get? a with
  | some b => (b, m)
  | none =>
    let (b, entropy) := m.entropy.draw
    (b, { m with entropy }.setByte a b)

def Memory.settleAll (m : Memory) (a : Address) : Nat → List Byte × Memory
  | 0 => ([], m)
  | n + 1 =>
    let (b, m) := m.settle a
    let (bs, m) := m.settleAll (a + 1) n
    (b :: bs, m)

def Memory.isMissing (m : Memory) (a : Address) (n : Nat) : Bool :=
  (List.range n).any fun i => !m.contains (a + BitVec.ofNat 32 i)

def Memory.warn (m : Memory) (w : Warning) : Memory :=
  { m with warnings := m.warnings.push w }

-- Reports an access that is not aligned, unless the address has been reported before.
def Memory.checkAlignment (m : Memory) (width : Width) (a : Address) : Memory :=
  if a.toNat % width.bytes = 0 ∨ m.misaligned.contains a then m
  else { m with misaligned := m.misaligned.insert a }.warn (.unaligned a width)

-- The low bytes of a word, as many as the width has, the most significant first.
def Width.encode (width : Width) (value : Word) : List Byte :=
  match width with
  | .byte => [value.extractLsb' 0 8]
  | .half => [value.extractLsb' 8 8, value.extractLsb' 0 8]
  | .word =>
    [value.extractLsb' 24 8, value.extractLsb' 16 8, value.extractLsb' 8 8, value.extractLsb' 0 8]

-- The value that the bytes of an access spell, the most significant first. The high byte of a half is
-- extended and shifted into place, and the low byte is added to it as an unsigned number.
def Width.decode (width : Width) (bytes : List Byte) : Word :=
  match width, bytes with
  | .byte, [b] => b.signExtend 32
  | .half, [high, low] => (high.signExtend 32 <<< 8) + low.setWidth 32
  | .word, [b₃, b₂, b₁, b₀] => b₃ ++ b₂ ++ b₁ ++ b₀
  | _, _ => 0

def Memory.write (m : Memory) (width : Width) (a : Address) (value : Word) : Memory :=
  (m.checkAlignment width a).store a (width.encode value)

def Memory.read (m : Memory) (width : Width) (a : Address) : Word × Memory :=
  let missing := m.isMissing a width.bytes
  let (bytes, m) := (m.checkAlignment width a).settleAll a width.bytes
  (width.decode bytes, if missing then m.warn (.uninitialized a) else m)

def Memory.takeWarnings (m : Memory) : List Warning × Memory :=
  (m.warnings.toList, { m with warnings := #[] })

end PagedMachine
