import PagedMachine.SymbolTable

/-! Symbol tables seen from both sides. A table that grows by insertions alone keeps its two indices
inverse to each other, so that a look-up by address lists exactly the labels bound there. -/
namespace PagedMachine

-- The index by addresses lists a label exactly where the index by labels binds it.
def SymbolTable.Consistent (t : SymbolTable) : Prop :=
  ∀ (a : Address) (l : Label), l ∈ t.labelsAt a ↔ t.get? l = some a

@[simp] theorem symbolTable_get_empty (l : Label) : SymbolTable.empty.get? l = none :=
  Std.ExtTreeMap.getElem?_empty

theorem symbolTable_consistent_empty : SymbolTable.empty.Consistent := by
  intro a l
  simp [SymbolTable.labelsAt, SymbolTable.empty, SymbolTable.get?]

@[simp] theorem symbolTable_contains (t : SymbolTable) (l : Label) :
    t.contains l = (t.get? l).isSome :=
  Std.ExtTreeMap.contains_eq_isSome_getElem?

/-- The first binding stays: a second one is refused and names the address of the first. -/
theorem insert_bound_label (t : SymbolTable) (l : Label) (a b : Address) (h : t.get? l = some b) :
    t.insert l a = .error b := by
  simp only [SymbolTable.insert, h]

theorem mem_insertLabel (ls : Array Label) (k l : Label) :
    k ∈ insertLabel ls l ↔ k = l ∨ k ∈ ls :=
  Array.mem_insertIdx

/-- A new label is put among those of its address, and the other addresses keep their labels. -/
theorem insert_fresh_labelsAt (t t' : SymbolTable) (l : Label) (a : Address) (h : t.get? l = none)
    (hinsert : t.insert l a = .ok t') (b : Address) :
    t'.labelsAt b = if b = a then (insertLabel (t.labels.getD a #[]) l).toList else t.labelsAt b := by
  simp only [SymbolTable.insert, h, Except.ok.injEq] at hinsert
  subst hinsert
  simp only [SymbolTable.labelsAt, Std.ExtTreeMap.getD_insert, Std.compare_eq_iff_eq, eq_comm (a := a)]
  split
  · rfl
  · rfl

/-- A new label gets its address, every other label keeps what it had, and the two indices stay
inverse to each other. -/
theorem insert_fresh_label (t : SymbolTable) (l : Label) (a : Address) (h : t.get? l = none) :
    ∃ t', t.insert l a = .ok t' ∧
      (∀ k, t'.get? k = if k = l then some a else t.get? k) ∧
      (t.Consistent → t'.Consistent) := by
  let t' : SymbolTable :=
    { addresses := t.addresses.insert l a
      labels := t.labels.insert a (insertLabel (t.labels.getD a #[]) l) }
  have hinsert : t.insert l a = .ok t' := by simp only [SymbolTable.insert, h, t']
  have hget (k : Label) : t'.get? k = if k = l then some a else t.get? k := by
    have hk : t'.get? k = if compare l k = .eq then some a else t.get? k :=
      Std.ExtTreeMap.getElem?_insert
    have he : compare l k = .eq ↔ k = l := Std.compare_eq_iff_eq.trans eq_comm
    simpa only [he] using hk
  refine ⟨t', hinsert, hget, ?_⟩
  intro hc b k
  -- The new index by addresses is the old one with the label added at one address.
  have hnew : k ∈ t'.labelsAt b ↔ (k = l ∧ b = a) ∨ t.get? k = some b := by
    rw [← hc b k, insert_fresh_labelsAt t t' l a h hinsert]
    by_cases hb : b = a
    · simp only [hb, ↓reduceIte, Array.mem_toList_iff, mem_insertLabel, and_true, SymbolTable.labelsAt]
    · simp only [hb, ↓reduceIte, and_false, false_or]
  rw [hnew, hget]
  by_cases hk : k = l
  · -- The label was unbound, so the old table lists it nowhere.
    subst hk
    simp only [h, ↓reduceIte, true_and, reduceCtorEq, or_false, Option.some.injEq, eq_comm]
  · simp only [hk, ↓reduceIte, false_and, false_or]

-- The table after an insertion has been tried: a refused one leaves it as it is.
def SymbolTable.tryInsert (t : SymbolTable) (l : Label) (a : Address) : SymbolTable :=
  match t.insert l a with
  | .ok t' => t'
  | .error _ => t

/-- A bound label keeps its binding. -/
theorem tryInsert_bound_label (t : SymbolTable) (l : Label) (a b : Address) (h : t.get? l = some b) :
    t.tryInsert l a = t := by
  simp only [SymbolTable.tryInsert, insert_bound_label t l a b h]

theorem tryInsert_fresh_label (t : SymbolTable) (l : Label) (a : Address) (h : t.get? l = none) :
    t.insert l a = .ok (t.tryInsert l a) := by
  obtain ⟨t', ht, -⟩ := insert_fresh_label t l a h
  simp only [SymbolTable.tryInsert, ht]

/-- What is bound already wins over the binding that is tried. -/
theorem tryInsert_get (t : SymbolTable) (l : Label) (a : Address) (k : Label) :
    (t.tryInsert l a).get? k = (t.get? k).or (if k = l then some a else none) := by
  cases h : t.get? l with
  | some b =>
    rw [tryInsert_bound_label t l a b h]
    by_cases hk : k = l
    · rw [hk, h, Option.some_or]
    · rw [if_neg hk, Option.or_none]
  | none =>
    obtain ⟨t', ht, hget, -⟩ := insert_fresh_label t l a h
    simp only [SymbolTable.tryInsert, ht, hget]
    by_cases hk : k = l
    · rw [if_pos hk, if_pos hk, hk, h, Option.none_or]
    · rw [if_neg hk, if_neg hk, Option.or_none]

/-- Both indexes of a table stay in step. -/
theorem tryInsert_consistent (t : SymbolTable) (l : Label) (a : Address) (hc : t.Consistent) :
    (t.tryInsert l a).Consistent := by
  cases h : t.get? l with
  | some b => rwa [tryInsert_bound_label t l a b h]
  | none =>
    obtain ⟨t', ht, -, hconsistent⟩ := insert_fresh_label t l a h
    simpa only [SymbolTable.tryInsert, ht] using hconsistent hc

/-- After one more binding, labels are new to the table exactly if they were and none of them is the one
just bound. -/
theorem fresh_after_insert (t t' : SymbolTable) (l : Label) (a : Address) (ls : List Label)
    (hget : ∀ k, t'.get? k = if k = l then some a else t.get? k) :
    (∀ k ∈ ls, t'.get? k = none) ↔ l ∉ ls ∧ ∀ k ∈ ls, t.get? k = none := by
  constructor
  · intro h
    refine ⟨?_, ?_⟩
    · intro hl
      simpa [hget] using h l hl
    · intro k hk
      have hn := h k hk
      rw [hget] at hn
      split at hn
      · contradiction
      · exact hn
  · intro h k hk
    obtain ⟨hl, h⟩ := h
    have hne : k ≠ l := fun he => hl (he ▸ hk)
    simpa only [hget, hne, ↓reduceIte] using h k hk

end PagedMachine
