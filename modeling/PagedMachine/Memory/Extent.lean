import PagedMachine.Memory

/-!
Where memory is in use: the stored bytes and the touched blocks gathered into maximal runs, and the rows of
16 bytes that memory is shown by.
-/

namespace PagedMachine

-- The address behind another one, unless that is the last one there is.
def nextAddress? (a : Address) : Option Address :=
  if a.uaddOverflow 1 then none else some (a + 1)

def cellEnd (size : Nat) (base : Address) : Address :=
  base + BitVec.ofNat 32 (size - 1)

-- The ranges, with both ends, that cells fill from a range under way on. The cells are given by their first
-- addresses, in ascending order; one that follows on the range without a gap prolongs it, and any other one
-- starts a range of its own.
def rangesFrom (size : Nat) (first last : Address) : List Address → List (Address × Address)
  | [] => [(first, last)]
  | base :: bases =>
    if nextAddress? last = some base then rangesFrom size first (cellEnd size base) bases
    else (first, last) :: rangesFrom size base (cellEnd size base) bases

def ranges (size : Nat) : List Address → List (Address × Address)
  | [] => []
  | base :: bases => rangesFrom size base (cellEnd size base) bases

-- The ends of the ranges of touched memory. Both ends belong to the range, so that the last block can be
-- told.
def Memory.touchedBounds (m : Memory) : List (Address × Address) :=
  ranges blockSize m.touched.toList

def Memory.touchedRanges (m : Memory) : List (Nat × Nat) :=
  m.touchedBounds.map fun (first, last) => (first.toNat, last.toNat)

def interval (first last : Nat) : List Nat :=
  (List.range (last + 1 - first)).map (first + ·)

def Memory.dump (m : Memory) (first last : Nat) : List (Option Byte) :=
  (interval first last).map fun a => m.get? (BitVec.ofNat 32 a)

-- The stored bytes as maximal runs, each with the address of its first byte.
def Memory.runs (m : Memory) : List (Nat × List Byte) :=
  (ranges 1 m.bytes.keys).map fun (first, last) =>
    (first.toNat, (m.dump first.toNat last.toNat).filterMap id)

def rowSize : Nat := 16

-- A number that is wide enough to count beyond the last address.
abbrev Line := BitVec 64

-- The row that starts at a line and ends with it or with its range, if something is stored there.
def Memory.row? (m : Memory) (last : Address) (line : Line) : Option (Address × List (Option Byte)) :=
  let rowEnd := line + BitVec.ofNat 64 (rowSize - 1)
  let bound := last.setWidth 64
  let first := line.setWidth 32
  let bytes := m.dump first.toNat ((if rowEnd ≤ bound then rowEnd else bound).setWidth 32).toNat
  if bytes.any Option.isSome then some (first, bytes) else none

def Memory.rowsFrom (m : Memory) (last : Address) (line : Line) : List (Address × List (Option Byte)) :=
  if line ≤ last.setWidth 64 then
    (m.row? last line).toList ++ m.rowsFrom last (line + BitVec.ofNat 64 rowSize)
  else []
termination_by last.toNat + 1 - line.toNat
decreasing_by
  -- A line within the range is an address, so the next one does not wrap around.
  simp only [rowSize]
  bv_omega

def Memory.rows (m : Memory) : List (Address × List (Option Byte)) :=
  m.touchedBounds.flatMap fun (first, last) => m.rowsFrom last (first.setWidth 64)

end PagedMachine
