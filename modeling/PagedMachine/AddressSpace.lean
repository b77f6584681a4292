/-!
Words and the address space. A word is 32 bits wide; the same bits serve as an address, as an unsigned
number (`toNat`) and as a signed one (`toInt`), and all arithmetic on them wraps. Pages of equal size start
at `programBase` and end below the stack; two addresses above everything else are traps, which the engine
serves itself.
-/

namespace PagedMachine

abbrev Word := BitVec 32

abbrev Byte := BitVec 8

abbrev Address := Word

def wordCount : Nat := 0x100000000

-- Words are ordered as unsigned numbers, so that they can be the keys of ordered maps.
instance Word.transOrd : Std.TransOrd Word :=
  inferInstance

-- The low hexadecimal digits of a number, as many as asked for, in lower case.
def hexText (digits n : Nat) : List Char :=
  match digits with
  | 0 => []
  | digits + 1 => hexText digits (n / 16) ++ [Nat.digitChar (n % 16)]

-- Addresses are shown as eight hexadecimal digits, so that they line up.
def Word.hex (w : Word) : String :=
  "0x" ++ String.ofList (hexText 8 w.toNat)

-- Values are shown as signed decimals.
def Word.decimal (w : Word) : String :=
  toString w.toInt

/-! The geometry of the address space. -/

-- Every linked module gets one page of this many bytes.
def pageSize : Nat := 0x10000

-- The first byte of page 0.
def programBase : Address := 0x00400000

-- Instructions are laid out at this fixed stride.
def instructionSize : Nat := 4

-- The stack pointer `f5` starts here unless a configuration says otherwise.
def initialStack : Address := 0x7fffff00

-- The other registers start with this conspicuous value unless a configuration says otherwise.
def garbage : Word := 0xcdcdcdcd

-- The highest page that still ends below the stack.
def maxPage : Nat :=
  (initialStack.toNat - programBase.toNat) / pageSize - 1

-- The debug trap prints the word this far above the stack pointer.
def debugArgumentOffset : Word := 4

-- A caller leaves its return address this far above the stack pointer.
def returnSlotOffset : Word := 0

-- The base address of a page; page numbers beyond the address space wrap around.
def pageBase (page : Nat) : Address :=
  programBase + BitVec.ofNat 32 (page * pageSize)

-- The page that an address lies on, if it lies on a page at all.
def pageOf? (a : Address) : Option Nat :=
  if a < programBase then none
  else
    let page := (a.toNat - programBase.toNat) / pageSize
    if page ≤ maxPage then some page else none

-- Rounds an offset up to a multiple of `alignment`, a power of two, by clearing the low bits of the last
-- offset that could still be rounded to it.
def alignUp (offset alignment : Nat) : Nat :=
  let last := offset + (alignment - 1)
  last - (last &&& (alignment - 1))

inductive Trap where
  -- The call stack has unwound completely.
  | outermostReturn
  -- Print a word and return to the caller.
  | debugOutput
  deriving DecidableEq, Repr

def Trap.address : Trap → Address
  | .outermostReturn => 0xffffff00
  | .debugOutput => 0xffffff10

def Trap.at? (a : Address) : Option Trap :=
  if a = Trap.outermostReturn.address then some .outermostReturn
  else if a = Trap.debugOutput.address then some .debugOutput
  else none

-- How a trap is shown where an instruction is expected.
def Trap.text : Trap → String
  | .outermostReturn => "<outermost return>"
  | .debugOutput => "<debug output>"

end PagedMachine
