import Mathlib.Data.Finset.Card
import Mathlib.Data.List.Induction
import PagedMachine.Proofs.ByteOrder
import PagedMachine.Proofs.SymbolTable

/-! What a symbol table holds after any number of insertions. Labels are bound once, by the first insertion that
names them; the labels of an address are kept in ascending order by bisection, which finds the right place
because they were in order before and the new label is not among them. -/
namespace PagedMachine

/-! Bisection. -/

theorem insertIdx_eq_append {α : Type} (xs : List α) (n : Nat) (x : α) (h : n ≤ xs.length) :
    xs.insertIdx n x = xs.take n ++ x :: xs.drop n := by
  induction n generalizing xs with
  | zero => rfl
  | succ n ih =>
    cases xs with
    | nil => contradiction
    | cons y xs =>
      simp only [List.insertIdx_succ_cons, ih xs (Nat.le_of_succ_le_succ h), List.take_succ_cons,
        List.drop_succ_cons, List.cons_append]

section Bisection

variable (ls : Array Label) (l : Label)

-- What is known of labels while the place of another one is searched between two bounds: those in front of
-- the lower bound come before it, and those from the upper bound on come after it.
structure Narrowed (low high : Nat) : Prop where
  below : ∀ (i : Nat) (hi : i < ls.size), i < low → ls[i] < l
  above : ∀ (i : Nat) (hi : i < ls.size), high ≤ i → l < ls[i]

theorem narrowed_start : Narrowed ls l 0 ls.size where
  below := fun i _ hlow => absurd hlow (Nat.not_lt_zero i)
  above := fun _ hi hhigh => absurd hi (Nat.not_lt.mpr hhigh)

theorem compare_label_lt (k l : Label) : compare k l = .lt ↔ k < l :=
  compareOfLessAndEq_eq_lt

variable (hascending : ls.toList.Pairwise (· < ·))
include hascending

theorem ascending_getElem (i j : Nat) (hij : i < j) (hj : j < ls.size) : ls[i] < ls[j] :=
  List.pairwise_iff_getElem.mp hascending i j (Nat.lt_trans hij hj) hj hij

/-- A label between the bounds that comes before the one searched for has all those in front of it come before
as well, so the lower bound moves behind it. -/
theorem narrowed_from_below (low high middle : Nat) (h : Narrowed ls l low high) (hmiddle : middle < ls.size)
    (hlt : ls[middle] < l) : Narrowed ls l (middle + 1) high where
  below := by
    intro i hi hlow
    rcases Nat.eq_or_lt_of_le (Nat.le_of_lt_succ hlow) with rfl | hlow
    · exact hlt
    · exact String.lt_trans (ascending_getElem ls hascending i middle hlow hmiddle) hlt
  above := h.above

/-- A label that comes after the one searched for is the new upper bound. -/
theorem narrowed_from_above (low high middle : Nat) (h : Narrowed ls l low high) (hmiddle : middle < ls.size)
    (hgt : l < ls[middle]) : Narrowed ls l low middle where
  below := h.below
  above := by
    intro i hi hhigh
    rcases Nat.eq_or_lt_of_le hhigh with rfl | hhigh
    · exact hgt
    · exact String.lt_trans hgt (ascending_getElem ls hascending middle i hhigh hi)

/-- Bisection ends where the label belongs, if it is not there already. -/
theorem bisect_narrowed (low high : Nat) (hsize : high ≤ ls.size) (hbounds : low ≤ high) (hl : l ∉ ls)
    (h : Narrowed ls l low high) :
    Narrowed ls l (bisect ls l low high hsize) (bisect ls l low high hsize) := by
  fun_induction bisect ls l low high hsize with
  | case1 low high hsize hlt middle hmiddle hcompare ih =>
    -- The label in the middle comes before: the search goes on behind it.
    apply ih (by omega)
    exact narrowed_from_below ls l hascending low high middle h hmiddle
      ((compare_label_lt _ _).mp hcompare)
  | case2 low high hsize hlt middle hmiddle hcompare =>
    have hfound : ls[middle] = l := Std.compare_eq_iff_eq.mp hcompare
    exact absurd (hfound ▸ Array.getElem_mem hmiddle) hl
  | case3 low high hsize hlt middle hmiddle hcompare ih =>
    -- It comes after: the search goes on in front of it.
    apply ih (by omega)
    exact narrowed_from_above ls l hascending low high middle h hmiddle
      ((compare_label_lt _ _).mp (Std.OrientedCmp.lt_of_gt hcompare))
  | case4 low high hsize hlt =>
    -- Nothing is left between the bounds.
    obtain rfl : low = high := by omega
    exact h

/-- A label that is put in its place leaves the labels in order. -/
theorem insertLabel_ascending (hl : l ∉ ls) : (insertLabel ls l).toList.Pairwise (· < ·) := by
  have hplace := bisect_narrowed ls l hascending 0 ls.size (Nat.le_refl _) (Nat.zero_le _) hl
    (narrowed_start ls l)
  have hle := bisect_le ls l 0 ls.size (Nat.le_refl _) (Nat.zero_le _)
  rw [insertLabel, Array.toList_insertIdx, insertIdx_eq_append _ _ _ hle]
  generalize bisect ls l 0 ls.size (Nat.le_refl _) = n at hplace
  have hbefore : ∀ k ∈ ls.toList.take n, k < l := by
    intro k hk
    obtain ⟨i, hi, rfl⟩ := List.mem_take_iff_getElem.mp hk
    exact hplace.below i (by rw [Array.length_toList] at hi; omega) (by omega)
  have hbehind : ∀ k ∈ ls.toList.drop n, l < k := by
    intro k hk
    obtain ⟨i, hi, rfl⟩ := List.mem_drop_iff_getElem.mp hk
    exact hplace.above (n + i) (by rw [Array.length_toList] at hi; omega) (by omega)
  -- Both parts were in order before, and the label is between them.
  rw [List.pairwise_append, List.pairwise_cons]
  refine ⟨hascending.sublist (List.take_sublist _ _), ⟨hbehind, ?_⟩, ?_⟩
  · exact hascending.sublist (List.drop_sublist _ _)
  · intro k hk k' hk'
    rcases List.mem_cons.mp hk' with rfl | hk'
    · exact hbefore k hk
    · exact String.lt_trans (hbefore k hk) (hbehind k' hk')

end Bisection

-- Whatever the order of the insertions, the labels are listed in their own.
example : ["zeta", "alpha", "mid", "beta"].foldl insertLabel #[] = #["alpha", "beta", "mid", "zeta"] := by
  decide +kernel

/-! Insertions. -/

-- The table after insertions have been tried in order.
def SymbolTable.ofInsertions (bs : List (Label × Address)) : SymbolTable :=
  bs.foldl (fun t b => t.tryInsert b.1 b.2) .empty

-- What a table keeps of the insertions that were tried.
structure SymbolTable.Records (t : SymbolTable) (bs : List (Label × Address)) : Prop where
  bound : ∀ l, t.get? l = bs.lookup l
  consistent : t.Consistent
  ascending : ∀ a, (t.labelsAt a).Pairwise (· < ·)
  counted : t.size = (bs.map Prod.fst).toFinset.card

theorem records_empty : SymbolTable.empty.Records [] where
  bound := symbolTable_get_empty
  consistent := symbolTable_consistent_empty
  ascending := fun _ => by simp [SymbolTable.labelsAt, SymbolTable.empty]
  counted := Std.ExtTreeMap.size_empty

theorem lookup_snoc (bs : List (Label × Address)) (l : Label) (a : Address) (k : Label) :
    (bs ++ [(l, a)]).lookup k = (bs.lookup k).or (if k = l then some a else none) := by
  rw [List.lookup_append, List.lookup_cons, List.lookup_nil]
  by_cases hk : k = l
  · simp [hk]
  · simp [hk, beq_eq_false_iff_ne.mpr hk]

/-- The labels of each address stay in order. A label that is inserted was unbound, so that the index by addresses
did not list it anywhere. -/
theorem tryInsert_ascending (t : SymbolTable) (l : Label) (a : Address) (hc : t.Consistent)
    (h : ∀ b, (t.labelsAt b).Pairwise (· < ·)) (b : Address) :
    ((t.tryInsert l a).labelsAt b).Pairwise (· < ·) := by
  cases hl : t.get? l with
  | some c =>
    rw [tryInsert_bound_label t l a c hl]
    exact h b
  | none =>
    rw [insert_fresh_labelsAt t _ l a hl (tryInsert_fresh_label t l a hl)]
    split_ifs with hb
    · apply insertLabel_ascending _ _ (h a)
      intro hmem
      have hbound := (hc a l).mp (Array.mem_toList_iff.mpr hmem)
      rw [hl] at hbound
      contradiction
    · exact h b

theorem insert_fresh_size (t t' : SymbolTable) (l : Label) (a : Address) (h : t.get? l = none)
    (hinsert : t.insert l a = .ok t') : t'.size = t.size + 1 := by
  have hnew : t.addresses.contains l = false := by
    have hcontains : t.addresses.contains l = (t.get? l).isSome := symbolTable_contains t l
    rw [hcontains, h, Option.isSome_none]
  simp only [SymbolTable.insert, h, Except.ok.injEq] at hinsert
  subst hinsert
  simp only [SymbolTable.size, Std.ExtTreeMap.size_insert, hnew, Bool.false_eq_true, ↓reduceIte]

/-- The size grows exactly if the label is not among those that have been named. -/
theorem tryInsert_counted (t : SymbolTable) (bs : List (Label × Address)) (h : t.Records bs) (l : Label)
    (a : Address) : (t.tryInsert l a).size = ((bs ++ [(l, a)]).map Prod.fst).toFinset.card := by
  have hnamed : l ∈ (bs.map Prod.fst).toFinset ↔ t.get? l ≠ none := by
    rw [h.bound, List.mem_toFinset, ← Option.isSome_iff_ne_none, List.lookup_isSome_iff, List.mem_map]
    simp only [beq_iff_eq, eq_comm (a := l)]
  have hsnoc : ((bs ++ [(l, a)]).map Prod.fst).toFinset = insert l (bs.map Prod.fst).toFinset := by
    ext k
    simp
  rw [hsnoc]
  cases hl : t.get? l with
  | some b =>
    rw [tryInsert_bound_label t l a b hl, h.counted, Finset.insert_eq_of_mem]
    rw [hnamed, hl]
    exact Option.some_ne_none b
  | none =>
    rw [insert_fresh_size t _ l a hl (tryInsert_fresh_label t l a hl), Finset.card_insert_of_notMem, h.counted]
    rw [hnamed]
    exact not_not_intro hl

/-- One more insertion is recorded as the last. -/
theorem tryInsert_records (t : SymbolTable) (bs : List (Label × Address)) (h : t.Records bs) (l : Label)
    (a : Address) : (t.tryInsert l a).Records (bs ++ [(l, a)]) where
  bound := fun k => by rw [tryInsert_get, lookup_snoc, h.bound]
  consistent := tryInsert_consistent t l a h.consistent
  ascending := tryInsert_ascending t l a h.consistent h.ascending
  counted := tryInsert_counted t bs h l a

theorem ofInsertions_snoc (bs : List (Label × Address)) (l : Label) (a : Address) :
    SymbolTable.ofInsertions (bs ++ [(l, a)]) = (SymbolTable.ofInsertions bs).tryInsert l a := by
  rw [SymbolTable.ofInsertions, List.foldl_append]
  rfl

/-- By induction on the insertions: a table records all of them, the first for each name. -/
theorem ofInsertions_records (bs : List (Label × Address)) :
    (SymbolTable.ofInsertions bs).Records bs := by
  induction bs using List.reverseRecOn with
  | nil => exact records_empty
  | append_singleton bs b ih =>
    rw [ofInsertions_snoc]
    exact tryInsert_records _ bs ih b.1 b.2

/-- A symbol table after any insertions. A label is bound to the address of the first insertion that names it;
the labels listed at an address are those bound to it, in strictly ascending order of their bytes; the size is
the number of different labels that were named; and a further insertion of a bound label is refused with the
address it has and leaves the table as it is, while one of any other label succeeds. -/
theorem inserted_table_exact (bs : List (Label × Address)) :
    let t := SymbolTable.ofInsertions bs
    (∀ l a, t.get? l = some a ↔
      ∃ before after, bs = before ++ (l, a) :: after ∧ ∀ b ∈ before, b.1 ≠ l) ∧
    (∀ a, (t.labelsAt a).Pairwise (fun k l => List.Lex (· < ·) (labelBytes k) (labelBytes l)) ∧
      ∀ l, l ∈ t.labelsAt a ↔ t.get? l = some a) ∧
    t.size = (bs.map Prod.fst).toFinset.card ∧
    ∀ l a,
      match t.get? l with
      | some b => t.insert l a = .error b ∧ SymbolTable.ofInsertions (bs ++ [(l, a)]) = t
      | none => t.insert l a = .ok (SymbolTable.ofInsertions (bs ++ [(l, a)])) := by
  intro t
  have hrecords : t.Records bs := ofInsertions_records bs
  refine ⟨?_, ?_, hrecords.counted, ?_⟩
  · intro l a
    rw [hrecords.bound, List.lookup_eq_some_iff]
    simp only [bne_iff_ne, ne_comm (a := l)]
  · intro a
    refine ⟨?_, hrecords.consistent a⟩
    exact (hrecords.ascending a).imp fun h => (label_lt_iff_bytes _ _).mp h
  · intro l a
    rw [ofInsertions_snoc]
    -- From here on only the table matters, not how it came about.
    change match t.get? l with
      | some b => t.insert l a = .error b ∧ t.tryInsert l a = t
      | none => t.insert l a = .ok (t.tryInsert l a)
    cases hl : t.get? l with
    | some b => exact ⟨insert_bound_label t l a b hl, tryInsert_bound_label t l a b hl⟩
    | none => exact tryInsert_fresh_label t l a hl

end PagedMachine
