import PagedMachine.AddressSpace

/-!
Operations and relations. The family of an operation fixes the shape of its operands; the value of
an arithmetic operation and the truth of a relation are functions of two words.
-/

namespace PagedMachine

inductive Operation where
  | nop
  | not
  | mov
  -- A move that takes place only if the flag is set.
  | movc
  | add
  | sub
  | mul
  | and
  | or
  | xor
  | nand
  | nor
  | shl
  | shr
  | sar
  -- The unsigned product in two words.
  | mulu
  -- The signed product in two words.
  | muls
  | xchg
  | cmp
  deriving DecidableEq, Repr

inductive Family where
  | nullary
  | unary
  | binary
  | ternary
  | compare
  deriving DecidableEq, Repr

def Operation.all : List Operation :=
  [.nop, .not, .mov, .movc, .add, .sub, .mul, .and, .or, .xor, .nand, .nor, .shl, .shr, .sar,
    .mulu, .muls, .xchg, .cmp]

def Operation.name : Operation → String
  | .nop => "nop"
  | .not => "not"
  | .mov => "mov"
  | .movc => "movc"
  | .add => "add"
  | .sub => "sub"
  | .mul => "mul"
  | .and => "and"
  | .or => "or"
  | .xor => "xor"
  | .nand => "nand"
  | .nor => "nor"
  | .shl => "shl"
  | .shr => "shr"
  | .sar => "sar"
  | .mulu => "mulu"
  | .muls => "muls"
  | .xchg => "xchg"
  | .cmp => "cmp"

def Operation.ofName? (name : String) : Option Operation :=
  Operation.all.find? fun o => o.name == name

def Operation.code (o : Operation) : Nat :=
  Operation.all.idxOf o

def Operation.ofCode? (code : Nat) : Option Operation :=
  Operation.all[code]?

-- Operations of one family have consecutive codes, so that bounds on the code tell the families apart.
def Family.ofCode (code : Nat) : Family :=
  if code < 1 then .nullary
  else if code < 2 then .unary
  else if code < 15 then .binary
  else if code < 18 then .ternary
  else .compare

def Operation.family (o : Operation) : Family :=
  Family.ofCode o.code

def Family.arity : Family → Nat
  | .nullary => 0
  | .unary => 1
  | .binary => 2
  | .ternary => 3
  | .compare => 2

def Operation.arity (o : Operation) : Nat :=
  o.family.arity

-- A shift by the word's width or more leaves nothing, also an arithmetic one.
def shiftWith (shift : Word → Nat → Word) (w amount : Word) : Word :=
  if amount.toNat < 32 then shift w amount.toNat else 0

-- The value an arithmetic, bitwise or shift operation gives its destination; the other operations have none.
def Operation.result? (o : Operation) (dst src : Word) : Option Word :=
  match o with
  | .add => some (dst + src)
  | .sub => some (dst - src)
  | .mul => some (dst * src)
  | .and => some (dst &&& src)
  | .or => some (dst ||| src)
  | .xor => some (dst ^^^ src)
  | .nand => some (~~~(dst &&& src))
  | .nor => some (~~~(dst ||| src))
  | .shl => some (shiftWith (fun w n => w <<< n) dst src)
  | .shr => some (shiftWith (fun w n => w >>> n) dst src)
  | .sar => some (shiftWith (fun w n => w.sshiftRight n) dst src)
  | _ => none

-- The comparisons that `cmp` can test; those ending in `u` read both words as unsigned.
inductive Relation where
  | eq
  | ne
  | lt
  | le
  | gt
  | ge
  | ltu
  | leu
  | gtu
  | geu
  deriving DecidableEq, Repr

def Relation.all : List Relation :=
  [.eq, .ne, .lt, .le, .gt, .ge, .ltu, .leu, .gtu, .geu]

def Relation.name : Relation → String
  | .eq => "eq"
  | .ne => "ne"
  | .lt => "lt"
  | .le => "le"
  | .gt => "gt"
  | .ge => "ge"
  | .ltu => "ltu"
  | .leu => "leu"
  | .gtu => "gtu"
  | .geu => "geu"

def Relation.ofName? (name : String) : Option Relation :=
  Relation.all.find? fun r => r.name == name

def Relation.code (r : Relation) : Nat :=
  Relation.all.idxOf r

def Relation.ofCode? (code : Nat) : Option Relation :=
  Relation.all[code]?

-- The codes of the unsigned relations come last.
def Relation.isUnsigned (r : Relation) : Bool :=
  Relation.ltu.code ≤ r.code

-- A row for each relation, in the order of their codes, says which orderings it accepts: less, equal and
-- greater.
def truthTable : List (List Bool) :=
  [[false, true, false],
    [true, false, true],
    [true, false, false],
    [true, true, false],
    [false, false, true],
    [false, true, true],
    [true, false, false],
    [true, true, false],
    [false, false, true],
    [false, true, true]]

def orderingColumn (o : Ordering) : Nat :=
  if o.isLT then 0 else if o.isEq then 1 else 2

def Relation.accepts (r : Relation) (o : Ordering) : Bool :=
  ((truthTable[r.code]?.getD [])[orderingColumn o]?).getD false

def Relation.holds (r : Relation) (left right : Word) : Bool :=
  r.accepts <|
    if r.isUnsigned then compare left.toNat right.toNat else compare left.toInt right.toInt

end PagedMachine
