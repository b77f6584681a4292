import Mathlib.Tactic.SplitIfs
import PagedMachine.Execution

/-! What the execution of an instruction is put together from, and instructions that cannot fault. The
program counter stays where it is while an instruction executes, so labels that resolve at its start
resolve for each of its operands, whenever they are used. -/
namespace PagedMachine

/-- The bounds on the codes give each operation its family. -/
theorem family_eq (op : Operation) : op.family =
    match op with
    | .nop => .nullary
    | .not => .unary
    | .mulu | .muls | .xchg => .ternary
    | .cmp => .compare
    | _ => .binary := by
  cases op <;> rfl

theorem result_isSome (op : Operation) (dst src : Word) (hf : op.family = .binary)
    (hm : op ≠ .mov) (hc : op ≠ .movc) : ∃ w, op.result? dst src = some w := by
  cases op <;> simp_all [family_eq, Operation.result?]

theorem results_isSome (op : Operation) (x y : Word) (hf : op.family = .ternary) :
    ∃ ws, op.results? x y = some ws := by
  cases op <;> simp_all [family_eq, Operation.results?]

-- A property of actions that holds of all that the execution of an instruction is put together from.
structure ExecParts (P : ∀ {α : Type}, Exec α → Prop) (p : Program) (i : Instruction) : Prop where
  pure : P (pure () : Exec Unit)
  bind : ∀ {α β : Type} (x : Exec α) (f : α → Exec β), P x → (∀ a, P (f a)) → P (x >>= f)
  read : ∀ o ∈ i.operands, P (o.read p)
  write : ∀ x w, .place x ∈ i.operands → P (x.write p w)
  ifFlag : ∀ x : Exec Unit, P x → P (do if (← get).cpu.flag then x)
  setFlag : ∀ b, P (modify fun m => { m with cpu := { m.cpu with flag := b } } : Exec Unit)

section parts

variable (P : ∀ {α : Type}, Exec α → Prop) (p : Program)

/-- A property of all parts of a binary instruction that survives sequencing holds of the whole. -/
theorem binary_of_parts (op : Operation) (dst : Place) (src : Operand)
    (hf : op.family = .binary) (h : ExecParts P p (.binary op dst src)) :
    P ((Instruction.binary op dst src).perform p) := by
  have hsrc : P (src.read p) := h.read src (by simp [Instruction.operands])
  have hdst : P (dst.read p) := h.read (.place dst) (by simp [Instruction.operands])
  have hwrite (w : Word) : P (dst.write p w) := h.write dst w (by simp [Instruction.operands])
  have hmove : P (do dst.write p (← src.read p)) := h.bind _ _ hsrc hwrite
  -- The moves have equations of their own; only the others compute a result.
  by_cases hm : op = .mov
  · subst hm
    exact hmove
  by_cases hc : op = .movc
  · subst hc
    exact h.ifFlag _ hmove
  · rw [Instruction.perform]
    · apply h.bind _ _ hsrc
      intro right
      apply h.bind _ _ hdst
      intro left
      obtain ⟨w, hw⟩ := result_isSome op left right hf hm hc
      simp only [hw]
      exact hwrite w
    · exact hm
    · exact hc

theorem ternary_of_parts (op : Operation) (a : Operand) (b c : Place)
    (hf : op.family = .ternary) (h : ExecParts P p (.ternary op a b c)) :
    P ((Instruction.ternary op a b c).perform p) := by
  apply h.bind _ _ (h.read a (by simp [Instruction.operands]))
  intro first
  apply h.bind _ _ (h.read (.place b) (by simp [Instruction.operands]))
  intro second
  obtain ⟨⟨low, high⟩, hr⟩ := results_isSome op first second hf
  simp only [hr]
  apply h.bind _ _ (h.write b low (by simp [Instruction.operands]))
  intro _
  exact h.write c high (by simp [Instruction.operands])

/-- What holds of the parts of a well-formed instruction holds of its execution. -/
theorem execute_of_parts (i : Instruction) (hw : i.isWellFormed = true) (h : ExecParts P p i) :
    P (i.execute p) := by
  simp only [Instruction.execute, hw, ↓reduceIte]
  cases i with
  | nullary op => exact h.pure
  | unary op dst =>
    apply h.bind _ _ (h.read (.place dst) (by simp [Instruction.operands]))
    intro w
    exact h.write dst _ (by simp [Instruction.operands])
  | binary op dst src =>
    have hf : op.family = .binary := by simpa [Instruction.isWellFormed] using hw
    exact binary_of_parts P p op dst src hf h
  | ternary op a b c =>
    have hf : op.family = .ternary := by simpa [Instruction.isWellFormed] using hw
    exact ternary_of_parts P p op a b c hf h
  | compare rel left right =>
    apply h.bind _ _ (h.read left (by simp [Instruction.operands]))
    intro l
    apply h.bind _ _ (h.read right (by simp [Instruction.operands]))
    intro r
    exact h.setFlag _
  | trap t => contradiction

end parts

section bind

variable {α β : Type} (x : Exec α) (f : α → Exec β) (m m' : Machine)

theorem exec_bind_ok (a : α) (h : x m = .ok a m') : (x >>= f) m = f a m' := by
  change EStateM.bind x f m = _
  simp only [EStateM.bind, h]

theorem exec_bind_error (e : Fault) (h : x m = .error e m') : (x >>= f) m = .error e m' := by
  change EStateM.bind x f m = _
  simp only [EStateM.bind, h]

/-- Two actions go through together if one does after the other. -/
theorem exec_bind_eq_ok (b : β) (h : (x >>= f) m = .ok b m') :
    ∃ a m₁, x m = .ok a m₁ ∧ f a m₁ = .ok b m' := by
  cases hx : x m with
  | ok a m₁ =>
    rw [exec_bind_ok x f m m₁ a hx] at h
    exact ⟨a, m₁, rfl, h⟩
  | error e m₁ =>
    rw [exec_bind_error x f m m₁ e hx] at h
    contradiction

end bind

theorem ifFlag_set (x : Exec Unit) (m : Machine) (h : m.cpu.flag = true) :
    (do if (← get).cpu.flag then x : Exec Unit) m = x m := by
  change (if m.cpu.flag then x else pure ()) m = x m
  rw [if_pos h]

theorem ifFlag_clear (x : Exec Unit) (m : Machine) (h : m.cpu.flag = false) :
    (do if (← get).cpu.flag then x : Exec Unit) m = .ok () m := by
  change (if m.cpu.flag then x else pure ()) m = .ok () m
  rw [h]
  rfl

/-- A malformed instruction faults before it changes anything. -/
theorem execute_malformed (p : Program) (i : Instruction) (m : Machine)
    (h : i.isWellFormed = false) : i.execute p m = .error (.malformedInstruction i) m := by
  simp only [Instruction.execute, h, Bool.false_eq_true, ↓reduceIte]
  rfl

theorem execute_wellFormed (p : Program) (i : Instruction) (m : Machine)
    (h : i.isWellFormed = true) : i.execute p m = i.perform p m := by
  simp only [Instruction.execute, h, ↓reduceIte]

/-- Only a well-formed instruction succeeds. -/
theorem execute_ok (p : Program) (i : Instruction) (m m' : Machine) (h : i.execute p m = .ok () m') :
    i.isWellFormed = true ∧ i.perform p m = .ok () m' := by
  cases hw : i.isWellFormed with
  | false =>
    rw [execute_malformed p i m hw] at h
    contradiction
  | true => exact ⟨rfl, (execute_wellFormed p i m hw).symm.trans h⟩

-- A conditional move that finds the flag clear.
def Instruction.skips (m : Machine) : Instruction → Bool
  | .binary .movc _ _ => !m.cpu.flag
  | _ => false

theorem skips_binary (op : Operation) (dst : Place) (src : Operand) (m : Machine)
    (h : op = .movc → m.cpu.flag = true) : (Instruction.binary op dst src).skips m = false := by
  cases op with
  | movc => simp [Instruction.skips, h rfl]
  | _ => rfl

/-- A conditional move without the flag does nothing. -/
theorem execute_skipped (p : Program) (i : Instruction) (m : Machine) (h : i.skips m = true) :
    i.execute p m = .ok () m := by
  -- Only one kind of instruction can be skipped.
  unfold Instruction.skips at h
  split at h
  · rename_i dst src
    have hf : m.cpu.flag = false := by simpa using h
    rw [execute_wellFormed p _ m rfl]
    exact ifFlag_clear _ m hf
  · contradiction

/-- A binary instruction that is not skipped either moves its source or computes from both operands. -/
theorem perform_binary (p : Program) (op : Operation) (dst : Place) (src : Operand) (m : Machine)
    (hs : (Instruction.binary op dst src).skips m = false) :
    (op = .mov ∨ op = .movc) ∧
        (Instruction.binary op dst src).perform p m = (do dst.write p (← src.read p)) m ∨
      (op ≠ .mov ∧ op ≠ .movc) ∧
        (Instruction.binary op dst src).perform p m = (do
          let right ← src.read p
          let left ← dst.read p
          match op.result? left right with
          | some w => dst.write p w
          | none => throw (Fault.malformedInstruction (.binary op dst src))) m := by
  by_cases hm : op = .mov
  · subst hm
    exact Or.inl ⟨Or.inl rfl, rfl⟩
  by_cases hc : op = .movc
  · subst hc
    have hf : m.cpu.flag = true := by simpa [Instruction.skips] using hs
    exact Or.inl ⟨Or.inr rfl, ifFlag_set _ m hf⟩
  · have he := congrFun (Instruction.perform.eq_5 p op dst src hm hc) m
    exact Or.inr ⟨⟨hm, hc⟩, he⟩

/-- A ternary instruction writes its two results once the values they come from are read. -/
theorem perform_ternary (p : Program) (op : Operation) (a : Operand) (b c : Place)
    (m m₁ m₂ : Machine) (x y low high : Word) (hx : a.read p m = .ok x m₁)
    (hy : b.read p m₁ = .ok y m₂) (hr : op.results? x y = some (low, high)) :
    (Instruction.ternary op a b c).perform p m = (do b.write p low; c.write p high) m₂ := by
  refine (exec_bind_ok _ _ m m₁ x hx).trans ((exec_bind_ok _ _ m₁ m₂ y hy).trans ?_)
  simp only [hr]

-- With the program counter at `nx`, the action goes through and leaves the program counter there.
def Passes {α : Type} (nx : Address) (x : Exec α) : Prop :=
  ∀ m : Machine, m.cpu.nx = nx → ∃ a m', x m = .ok a m' ∧ m'.cpu.nx = nx

theorem passes_pure {α : Type} (nx : Address) (a : α) : Passes nx (pure a : Exec α) :=
  fun m hm => ⟨a, m, rfl, hm⟩

theorem passes_get (nx : Address) : Passes nx (get : Exec Machine) :=
  fun m hm => ⟨m, m, rfl, hm⟩

theorem passes_bind {α β : Type} (nx : Address) (x : Exec α) (f : α → Exec β)
    (hx : Passes nx x) (hf : ∀ a, Passes nx (f a)) : Passes nx (x >>= f) := by
  intro m hm
  obtain ⟨a, m', hxm, hm'⟩ := hx m hm
  obtain ⟨b, m'', hfm, hm''⟩ := hf a m' hm'
  exact ⟨b, m'', (exec_bind_ok x f m m' a hxm).trans hfm, hm''⟩

theorem setRegister_nx (m : Machine) (r : Register) (w : Word) :
    (m.setRegister r w).cpu.nx = m.cpu.nx := by
  cases r <;> rfl

-- Every label that is mentioned means something at `nx`.
def ResolvesAt (p : Program) (nx : Address) (label : Option Label) : Prop :=
  ∀ l, label = some l → (p.resolve? nx l).isSome = true

theorem lookUp_ok (p : Program) (m : Machine) (l : Label)
    (h : (p.resolve? m.cpu.nx l).isSome = true) : ∃ a, p.lookUp m l = .ok a := by
  obtain ⟨a, ha⟩ := Option.isSome_iff_exists.mp h
  exact ⟨a, by simp only [Program.lookUp, ha]⟩

/-- Of all places, only a labeled one can fail to be located. -/
theorem locate_found (p : Program) (m : Machine) (x : Place) (h : ResolvesAt p m.cpu.nx x.label?) :
    ∃ k, x.locate p m = .ok k := by
  cases x with
  | register r => exact ⟨_, rfl⟩
  | based r d => exact ⟨_, rfl⟩
  | indexed r i => exact ⟨_, rfl⟩
  | labeled l i d =>
    obtain ⟨a, ha⟩ := lookUp_ok p m l (h l rfl)
    exact ⟨_, by rw [Place.locate, ha]; rfl⟩

theorem find_passes (p : Program) (nx : Address) (x : Place) (h : ResolvesAt p nx x.label?) :
    Passes nx (x.find p) := by
  intro m hm
  subst hm
  obtain ⟨k, hk⟩ := locate_found p m x h
  exact ⟨k, m, by simp only [Place.find, hk], rfl⟩

theorem location_read_passes (nx : Address) (k : Location) : Passes nx k.read := by
  intro m hm
  cases k with
  | register r => exact ⟨_, m, rfl, hm⟩
  | memory a => exact ⟨_, _, rfl, hm⟩

theorem location_write_passes (nx : Address) (w : Word) (k : Location) : Passes nx (k.write w) := by
  intro m hm
  cases k with
  | register r => exact ⟨(), _, rfl, (setRegister_nx m r w).trans hm⟩
  | memory a => exact ⟨(), _, rfl, hm⟩

theorem place_read_passes (p : Program) (nx : Address) (x : Place) (h : ResolvesAt p nx x.label?) :
    Passes nx (x.read p) :=
  passes_bind nx _ _ (find_passes p nx x h) (location_read_passes nx)

theorem place_write_passes (p : Program) (nx : Address) (x : Place) (w : Word)
    (h : ResolvesAt p nx x.label?) : Passes nx (x.write p w) :=
  passes_bind nx _ _ (find_passes p nx x h) (location_write_passes nx w)

/-- An operand is read when its label resolves. -/
theorem operand_read_passes (p : Program) (nx : Address) (o : Operand)
    (h : ResolvesAt p nx o.label?) : Passes nx (o.read p) := by
  cases o with
  | immediate w => exact passes_pure nx w
  | address l =>
    intro m hm
    subst hm
    obtain ⟨a, ha⟩ := lookUp_ok p m l (h l rfl)
    exact ⟨a, m, by simp only [Operand.read, ha], rfl⟩
  | place x => exact place_read_passes p nx x h

/-- A well-formed instruction whose labels resolve never faults. -/
theorem execute_passes (p : Program) (nx : Address) (i : Instruction)
    (hw : i.isWellFormed = true) (h : ∀ o ∈ i.operands, ResolvesAt p nx o.label?) :
    Passes nx (i.execute p) := by
  apply execute_of_parts (Passes nx) p i hw
  exact
    { pure := passes_pure nx ()
      bind := passes_bind nx
      read := fun o ho => operand_read_passes p nx o (h o ho)
      write := fun x w hx => place_write_passes p nx x w (h _ hx)
      ifFlag := by
        intro x hx
        apply passes_bind nx _ _ (passes_get nx)
        intro m
        split_ifs
        · exact hx
        · exact passes_pure nx ()
      setFlag := fun b m hm => ⟨(), _, rfl, hm⟩ }

end PagedMachine
