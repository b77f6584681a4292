import PagedMachine.Engine
import PagedMachine.Linkage
import PagedMachine.Proofs.Reading

/-! Instructions that fault. Apart from the malformed ones these are the instructions with a label that
means nothing where they stand. They stop at the first such label, having read the operands that come
before it; only one with two destinations can have written anything by then, and that is the first of
them. -/
namespace PagedMachine

-- The operands of an instruction in the order in which they are used.
def Instruction.uses : Instruction → List Operand
  | .nullary _ | .trap _ => []
  | .unary _ dst => [.place dst]
  | .binary _ dst src => [src, .place dst]
  | .ternary _ a b c => [a, .place b, .place c]
  | .compare _ left right => [left, right]

-- The first label in use that means nothing at `nx`, and the operands that are used before it.
structure Instruction.Misses (p : Program) (nx : Address) (i : Instruction) (before : List Operand)
    (l : Label) : Prop where
  first : ∃ o after, i.uses = before ++ o :: after ∧ o.label? = some l
  resolved : ∀ o ∈ before, ResolvesAt p nx o.label?
  missing : p.resolve? nx l = none

theorem mem_uses (i : Instruction) (o : Operand) : o ∈ i.uses ↔ o ∈ i.operands := by
  cases i with
  | binary op dst src =>
    simp only [Instruction.uses, Instruction.operands, List.mem_cons, List.not_mem_nil, or_false]
    exact or_comm
  | nullary | unary | ternary | compare | trap => exact Iff.rfl

/-- Among the labels that mean nothing there is a first one. -/
theorem exists_misses (p : Program) (nx : Address) (i : Instruction)
    (h : ∃ o ∈ i.operands, ∃ l, o.label? = some l ∧ p.resolve? nx l = none) :
    ∃ before l, i.Misses p nx before l := by
  obtain ⟨o, ho, l, hl, hr⟩ := h
  let lost (o : Operand) : Bool := o.label?.any fun l => (p.resolve? nx l).isNone
  have hfound : (i.uses.find? lost).isSome = true := by
    rw [List.find?_isSome]
    exact ⟨o, (mem_uses i o).mpr ho, by simp [lost, hl, hr]⟩
  obtain ⟨o', ho'⟩ := Option.isSome_iff_exists.mp hfound
  obtain ⟨hlost, before, after, hsplit, hbefore⟩ := List.find?_eq_some_iff_append.mp ho'
  obtain ⟨l', hl', hr'⟩ : ∃ l', o'.label? = some l' ∧ p.resolve? nx l' = none := by
    simpa [lost, Option.any_eq_true] using hlost
  refine ⟨before, l', ⟨o', after, hsplit, hl'⟩, ?_, hr'⟩
  intro q hq l'' hl''
  simpa [lost, hl''] using hbefore q hq

-- With the program counter at `nx`, the action stops at once for want of a label.
def Stops {α : Type} (nx : Address) (l : Label) (x : Exec α) : Prop :=
  ∀ m : Machine, m.cpu.nx = nx → x m = .error (.undefinedLabel l) m

theorem stops_bind {α β : Type} (nx : Address) (l : Label) (x : Exec α) (f : α → Exec β)
    (h : Stops nx l x) : Stops nx l (x >>= f) :=
  fun m hm => exec_bind_error x f m m _ (h m hm)

section missing

variable (p : Program) (nx : Address) (l : Label) (hr : p.resolve? nx l = none)

include hr

theorem stops_read (o : Operand) (hl : o.label? = some l) : Stops nx l (o.read p) := by
  intro m hm
  exact operand_read_missing p m o l hl (hm ▸ hr)

theorem stops_write (x : Place) (w : Word) (hl : x.label? = some l) : Stops nx l (x.write p w) := by
  intro m hm
  exact place_write_failed p m x w _ (locate_missing p m x l hl (hm ▸ hr))

/-- Nothing is done before the first operand in use is read. -/
theorem perform_misses_first (i : Instruction) (m : Machine) (o : Operand) (after : List Operand)
    (hm : m.cpu.nx = nx) (hs : i.skips m = false) (hu : i.uses = o :: after)
    (hl : o.label? = some l) : i.perform p m = .error (.undefinedLabel l) m := by
  have hread := stops_read p nx l hr o hl
  cases i with
  | nullary op => contradiction
  | trap t => contradiction
  | unary op dst =>
    cases hu
    exact stops_bind nx l _ _ hread m hm
  | binary op dst src =>
    cases hu
    rcases perform_binary p op dst o m hs with ⟨-, he⟩ | ⟨-, he⟩ <;> rw [he]
    · exact stops_bind nx l _ _ hread m hm
    · exact stops_bind nx l _ _ hread m hm
  | ternary op a b c =>
    cases hu
    exact stops_bind nx l _ _ hread m hm
  | compare rel left right =>
    cases hu
    exact stops_bind nx l _ _ hread m hm

/-- Between the first and the second operand in use nothing is done either. -/
theorem perform_misses_second (i : Instruction) (m m₁ : Machine) (o₁ o : Operand) (w : Word)
    (after : List Operand) (hm : m₁.cpu.nx = nx) (hs : i.skips m = false)
    (hu : i.uses = o₁ :: o :: after) (h₁ : o₁.read p m = .ok w m₁) (hl : o.label? = some l) :
    i.perform p m = .error (.undefinedLabel l) m₁ := by
  have hread := stops_read p nx l hr o hl
  cases i with
  | nullary op => contradiction
  | trap t => contradiction
  | unary op dst => cases hu
  | binary op dst src =>
    cases hu
    -- A move goes on to write its destination and the others go on to read it.
    rcases perform_binary p op dst o₁ m hs with ⟨-, he⟩ | ⟨-, he⟩ <;>
      rw [he, exec_bind_ok _ _ m m₁ w h₁]
    · exact stops_write p nx l hr dst w hl m₁ hm
    · exact stops_bind nx l _ _ hread m₁ hm
  | ternary op a b c =>
    cases hu
    exact (exec_bind_ok _ _ m m₁ w h₁).trans (stops_bind nx l _ _ hread m₁ hm)
  | compare rel left right =>
    cases hu
    exact (exec_bind_ok _ _ m m₁ w h₁).trans (stops_bind nx l _ _ hread m₁ hm)

/-- The third operand is looked for when the second one is already written. -/
theorem perform_misses_third (op : Operation) (a : Operand) (b c : Place) (m m₁ m₂ : Machine)
    (x y low high : Word) (k : Location) (hm : m₂.cpu.nx = nx) (h₁ : a.read p m = .ok x m₁)
    (h₂ : b.read p m₁ = .ok y m₂) (hres : op.results? x y = some (low, high))
    (hk : b.locate p m₂ = .ok k) (hl : c.label? = some l) :
    (Instruction.ternary op a b c).perform p m = .error (.undefinedLabel l) (m₂.put k low) := by
  have hput : (m₂.put k low).cpu.nx = nx := (put_framed m₂ k low).nx.trans hm
  have hwrite := place_write_located p m₂ b low k hk
  rw [perform_ternary p op a b c m m₁ m₂ x y low high h₁ h₂ hres,
    exec_bind_ok _ _ m₂ (m₂.put k low) () hwrite]
  exact stops_write p nx l hr c high hl _ hput

end missing

/-- An instruction faults at the first label in reading order that does not resolve. -/
theorem execute_misses (p : Program) (i : Instruction) (m : Machine) (before : List Operand)
    (l : Label) (hw : i.isWellFormed = true) (hs : i.skips m = false)
    (h : i.Misses p m.cpu.nx before l) :
    ∃ ws m₁ m', OldValues p m before ws m₁ ∧ i.execute p m = .error (.undefinedLabel l) m' ∧
      (before.length < 2 ∧ m' = m₁ ∨
        ∃ op a b c x y low high k, i = .ternary op a b c ∧ before = [a, .place b] ∧ ws = [x, y] ∧
          op.results? x y = some (low, high) ∧ b.locate p m = .ok k ∧ m' = m₁.put k low) := by
  obtain ⟨⟨o, after, hu, hl⟩, hresolved, hr⟩ := h
  obtain ⟨ws, m₂, hreads⟩ := reads_of_resolved p m before hresolved
  have hold := oldValues_of_reads p m m₂ before ws hreads
  have hn : m₂.cpu.nx = m.cpu.nx := hold.framed.nx
  rw [execute_wellFormed p i m hw]
  cases hreads with
  | nil =>
    have he := perform_misses_first p m.cpu.nx l hr i m o after rfl hs hu hl
    exact ⟨[], m, m, hold, he, Or.inl ⟨Nat.zero_lt_two, rfl⟩⟩
  | @cons _ m₁ _ o₁ os x ws h₁ hrest =>
    cases hrest with
    | nil =>
      have he := perform_misses_second p m.cpu.nx l hr i m m₂ o₁ o x after hn hs hu h₁ hl
      exact ⟨_, m₂, m₂, hold, he, Or.inl ⟨Nat.one_lt_two, rfl⟩⟩
    | @cons _ _ _ o₂ os y ws h₂ hrest =>
      -- Only a ternary instruction has a third operand, and no more than that.
      cases i with
      | nullary | unary | binary | compare | trap => simp [Instruction.uses] at hu
      | ternary op a b c =>
        obtain ⟨rfl, rfl, rfl, rfl⟩ : a = o₁ ∧ .place b = o₂ ∧ [] = os ∧ .place c = o := by
          cases os <;> simp_all [Instruction.uses]
        cases hrest
        obtain ⟨⟨low, high⟩, hres⟩ :=
          results_isSome op x y (by simpa [Instruction.isWellFormed] using hw)
        obtain ⟨k, hk⟩ := locate_found p m b (hresolved (.place b) (by simp))
        have hk' : b.locate p m₂ = .ok k := (locate_framed p m m₂ _ b hold.framed).trans hk
        have he := perform_misses_third p m.cpu.nx l hr op a b c m m₁ m₂ x y low high k hn h₁ h₂ hres
          hk' hl
        exact ⟨[x, y], m₂, _, hold, he,
          Or.inr ⟨op, a, b, c, x, y, low, high, k, rfl, rfl, rfl, hres, hk, rfl⟩⟩

/-- Only for want of a label does a well-formed instruction fault, and then it does. -/
theorem faults_iff (p : Program) (i : Instruction) (m : Machine) :
    (∃ f m', i.execute p m = .error f m') ↔
      i.isWellFormed = false ∨
        i.skips m = false ∧
          ∃ o ∈ i.operands, ∃ l, o.label? = some l ∧ p.resolve? m.cpu.nx l = none := by
  constructor
  · rintro ⟨f, m', he⟩
    by_contra hok
    rw [not_or, Bool.not_eq_false] at hok
    obtain ⟨hw, hok⟩ := hok
    cases hs : i.skips m with
    | true =>
      rw [execute_skipped p i m hs] at he
      contradiction
    | false =>
      have hresolves : ∀ o ∈ i.operands, ResolvesAt p m.cpu.nx o.label? := by
        intro o ho l hl
        rw [Option.isSome_iff_ne_none]
        intro hr
        exact hok ⟨hs, o, ho, l, hl, hr⟩
      obtain ⟨u, m₁, hpass, -⟩ := execute_passes p _ i hw hresolves m rfl
      rw [hpass] at he
      contradiction
  · intro h
    cases hw : i.isWellFormed with
    | false => exact ⟨_, _, execute_malformed p i m hw⟩
    | true =>
      obtain ⟨hs, hlost⟩ := h.resolve_left (by simp [hw])
      obtain ⟨before, l, hm⟩ := exists_misses p m.cpu.nx i hlost
      obtain ⟨ws, m₁, m', -, he, -⟩ := execute_misses p i m before l hw hs hm
      exact ⟨_, _, he⟩

/-- When an instruction faults, and what the fault leaves behind. It faults exactly if it is malformed or
mentions a label that means nothing where it stands, unless it is a move that the clear flag skips. A
malformed one touches nothing. Otherwise the fault names the first such label in use; the operands before
it have been read, which may have drawn bytes, and nothing else has happened, except that a ternary
instruction whose third operand alone is missing has written the first of its results to the second. -/
theorem execute_faults (p : Program) (i : Instruction) (m : Machine) :
    ((∃ f m', i.execute p m = .error f m') ↔
      i.isWellFormed = false ∨
        i.skips m = false ∧
          ∃ o ∈ i.operands, ∃ l, o.label? = some l ∧ p.resolve? m.cpu.nx l = none) ∧
    (i.isWellFormed = false → i.execute p m = .error (.malformedInstruction i) m) ∧
    ((∃ o ∈ i.operands, ∃ l, o.label? = some l ∧ p.resolve? m.cpu.nx l = none) →
      ∃ before l, i.Misses p m.cpu.nx before l) ∧
    (i.isWellFormed = true → i.skips m = false → ∀ before l, i.Misses p m.cpu.nx before l →
      ∃ ws m₁ m', OldValues p m before ws m₁ ∧ i.execute p m = .error (.undefinedLabel l) m' ∧
        (before.length < 2 → m' = m₁) ∧
        ∀ op a b c, i = .ternary op a b c → before = [a, .place b] →
          ∃ x y low high k, ws = [x, y] ∧ op.results? x y = some (low, high) ∧
            b.locate p m = .ok k ∧ b.write p low m₁ = .ok () m' ∧ k.Holds m' low ∧
            m.Framed m' [k] (before.filterMap (·.location? p m))) := by
  refine ⟨faults_iff p i m, execute_malformed p i m, exists_misses p m.cpu.nx i, ?_⟩
  intro hw hs before l hm
  obtain ⟨ws, m₁, m', hold, he, hend⟩ := execute_misses p i m before l hw hs hm
  refine ⟨ws, m₁, m', hold, he, ?_⟩
  rcases hend with ⟨hlt, rfl⟩ | ⟨op, a, b, c, x, y, low, high, k, rfl, rfl, rfl, hres, hk, rfl⟩
  · refine ⟨fun _ => rfl, ?_⟩
    rintro op a b c - rfl
    exact absurd hlt (by simp)
  · refine ⟨fun hlt => absurd hlt (by simp), ?_⟩
    rintro op' a' b' c' hi -
    cases hi
    have hk' : b.locate p m₁ = .ok k := (locate_framed p m m₁ _ b hold.framed).trans hk
    exact ⟨x, y, low, high, k, rfl, hres, hk, place_write_located p m₁ b low k hk',
      put_holds m₁ k low,
      put_framed_of_reads p m m₁ _ _ _ b k low hold (List.Subset.refl _) (by simp) hk⟩

-- A module with a single exchange, whose second operand is a literal and whose third one is lost.
def lostSlot : Module where
  name := "main"
  instructions :=
    [⟨.ternary .xchg (.immediate 7) (.labeled "slot" none none) (.labeled "nowhere" none none), [],
      none⟩]
  literals := [⟨.number 5, .word, ["slot"]⟩]
  exports := []
  imports := []
  isEntry := true

/-- The literal is overwritten although the instruction faults. -/
theorem lostSlot_half_exchanged :
    let p := (link [lostSlot]).program
    let m := ((Engine.start {} (.seeded 0)).load p).machine
    let b : Place := .labeled "slot" none none
    let i : Instruction := .ternary .xchg (.immediate 7) b (.labeled "nowhere" none none)
    i.isWellFormed = true ∧ i.skips m = false ∧
    i.Misses p m.cpu.nx [.immediate 7, .place b] "nowhere" ∧
    ∃ m', i.execute p m = .error (.undefinedLabel "nowhere") m' ∧
      (Location.memory 0x00400004).Holds m' 7 := by
  intro p m b i
  have hmisses : i.Misses p m.cpu.nx [.immediate 7, .place b] "nowhere" := by
    refine ⟨⟨_, _, rfl, rfl⟩, ?_, by decide +kernel⟩
    rw [List.forall_mem_cons, List.forall_mem_singleton]
    refine ⟨fun l hl => by contradiction, ?_⟩
    rintro l ⟨⟩
    decide +kernel
  obtain ⟨ws, m₁, m', hold, he, -, hwritten⟩ :=
    (execute_faults p i m).2.2.2 rfl rfl _ _ hmisses
  obtain ⟨x, y, low, high, k, rfl, hres, hk, -, hholds, -⟩ := hwritten _ _ _ _ rfl rfl
  have hx : 7 = x := (List.forall₂_cons.mp hold.yields).1
  have hlow : x = low := (Prod.ext_iff.mp (Option.some.inj hres)).1
  have hslot : b.locate p m = .ok (.memory 0x00400004) := by decide +kernel
  rw [hslot] at hk
  cases hk
  rw [← hlow, ← hx] at hholds
  exact ⟨rfl, rfl, hmisses, m', he, hholds⟩

end PagedMachine
