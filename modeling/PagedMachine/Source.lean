/-!
Source text: names and positions in it, and issues that are attributed to a position; its lines; and white
space as the Unicode property `White_Space` has it. A line ends at a line feed or at the end of the text, and
a carriage return right before the line feed belongs to the break.
-/

namespace PagedMachine

abbrev Label := String

-- A stretch of one source line. Lines and columns count from one; columns and lengths are in bytes.
structure Span where
  line : Nat
  column : Nat
  length : Nat
  deriving DecidableEq, Repr

def Span.text (s : Span) : String :=
  s!"{s.line}:{s.column}"

structure Diagnostic (ε : Type) where
  issue : ε
  span : Option Span
  deriving DecidableEq, Repr

def Diagnostic.message {ε : Type} (describe : ε → String) (d : Diagnostic ε) : String :=
  match d.span with
  | some s => s!"{s.text}: {describe d.issue}"
  | none => describe d.issue

namespace Text

-- The lines of a text. A break at the very end starts no further line.
def lines : List Char → List (List Char)
  | [] => []
  | '\n' :: cs => [] :: lines cs
  | '\r' :: '\n' :: cs => [] :: lines cs
  | c :: cs =>
    match lines cs with
    | [] => [[c]]
    | l :: ls => (c :: l) :: ls

/-! White space, and trimming by it. -/

-- The code points with the property, as inclusive ranges in ascending order.
def whitespaceRanges : List (Nat × Nat) :=
  [(0x0009, 0x000d), (0x0020, 0x0020), (0x0085, 0x0085), (0x00a0, 0x00a0), (0x1680, 0x1680),
    (0x2000, 0x200a), (0x2028, 0x2029), (0x202f, 0x202f), (0x205f, 0x205f), (0x3000, 0x3000)]

def isWhitespace (c : Char) : Bool :=
  whitespaceRanges.any fun r => r.1 ≤ c.toNat && c.toNat ≤ r.2

def trimStart (s : List Char) : List Char :=
  s.dropWhile isWhitespace

def trimEnd (s : List Char) : List Char :=
  (s.reverse.dropWhile isWhitespace).reverse

def byteLength : List Char → Nat
  | [] => 0
  | c :: s => c.utf8Size + byteLength s

end Text

end PagedMachine
