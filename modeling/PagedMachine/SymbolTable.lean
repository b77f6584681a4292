import PagedMachine.Source
import PagedMachine.AddressSpace
import Std.Data.ExtTreeMap

/-!
Symbol tables bind labels to addresses. The first binding of a label stays; several labels may share
an address, and a second index keeps the labels of each address in order.
-/

namespace PagedMachine

-- Where a label belongs among labels in ascending order, found by halving the part from `low` to `high` in
-- which it can be.
def bisect (ls : Array Label) (l : Label) (low high : Nat) (hsize : high ≤ ls.size) : Nat :=
  if hlt : low < high then
    let middle := low + (high - low) / 2
    have hmiddle : middle < ls.size := by omega
    match compare ls[middle] l with
    | .lt => bisect ls l (middle + 1) high hsize
    | .eq => middle
    | .gt => bisect ls l low middle (by omega)
  else low
termination_by high - low

theorem bisect_le (ls : Array Label) (l : Label) (low high : Nat) (hsize : high ≤ ls.size)
    (hbounds : low ≤ high) : bisect ls l low high hsize ≤ high := by
  fun_induction bisect ls l low high hsize with
  | case1 low high hsize hlt middle hmiddle hcompare ih => exact ih (by omega)
  | case2 low high hsize hlt middle hmiddle hcompare => omega
  | case3 low high hsize hlt middle hmiddle hcompare ih => exact Nat.le_trans (ih (by omega)) (by omega)
  | case4 low high hsize hlt => omega

def insertLabel (ls : Array Label) (l : Label) : Array Label :=
  ls.insertIdx (bisect ls l 0 ls.size (Nat.le_refl _)) l (bisect_le ls l 0 ls.size _ (Nat.zero_le _))

structure SymbolTable where
  addresses : Std.ExtTreeMap Label Address compare
  labels : Std.ExtTreeMap Address (Array Label) compare

def SymbolTable.empty : SymbolTable :=
  ⟨∅, ∅⟩

def SymbolTable.get? (t : SymbolTable) (l : Label) : Option Address :=
  t.addresses[l]?

def SymbolTable.contains (t : SymbolTable) (l : Label) : Bool :=
  t.addresses.contains l

def SymbolTable.size (t : SymbolTable) : Nat :=
  t.addresses.size

def SymbolTable.labelsAt (t : SymbolTable) (a : Address) : List Label :=
  (t.labels.getD a #[]).toList

-- Binds a label. A label that is bound already keeps its address, which is then the error.
def SymbolTable.insert (t : SymbolTable) (l : Label) (a : Address) : Except Address SymbolTable :=
  match t.get? l with
  | some existing => .error existing
  | none =>
    .ok
      { addresses := t.addresses.insert l a
        labels := t.labels.insert a (insertLabel (t.labels.getD a #[]) l) }

def SymbolTable.toList (t : SymbolTable) : List (Label × Address) :=
  t.addresses.toList

end PagedMachine
