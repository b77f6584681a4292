import PagedMachine.Engine

/-! All that a step of the engine can do, stated once. Invariants of runs are proved by going through
these cases; no other proof opens the definition of a step. -/
namespace PagedMachine

theorem trap_at_iff (a : Address) (t : Trap) : Trap.at? a = some t ↔ a = t.address := by
  have hne : Trap.debugOutput.address ≠ Trap.outermostReturn.address := by decide
  simp only [Trap.at?]
  cases t with
  | outermostReturn =>
    by_cases h : a = Trap.outermostReturn.address
    · simp only [h, ↓reduceIte]
    · by_cases hd : a = Trap.debugOutput.address <;> simp [h, hd]
  | debugOutput =>
    by_cases h : a = Trap.debugOutput.address
    · simp only [h, hne, ↓reduceIte]
    · by_cases ho : a = Trap.outermostReturn.address <;> simp [h, ho, hne.symm]

theorem trap_at_none (a : Address) (h : Trap.at? a = none) (t : Trap) : a ≠ t.address := by
  intro he
  rw [(trap_at_iff a t).mpr he] at h
  contradiction

/-- Beside the traps an instruction is fetched from its page. -/
theorem fetch_beside_traps (p : Program) (a : Address) (h : Trap.at? a = none) :
    p.fetch? a = (p.pageAt? a).bind (·.fetch? a) := by
  simp only [Program.fetch?, h]

section collectWarnings

variable (e : Engine) (span : Option Span)

@[simp] theorem collectWarnings_config : (e.collectWarnings span).config = e.config := rfl

@[simp] theorem collectWarnings_program : (e.collectWarnings span).program = e.program := rfl

@[simp] theorem collectWarnings_cpu : (e.collectWarnings span).machine.cpu = e.machine.cpu := rfl

@[simp] theorem collectWarnings_state : (e.collectWarnings span).state = e.state := rfl

@[simp] theorem collectWarnings_steps : (e.collectWarnings span).steps = e.steps := rfl

@[simp] theorem collectWarnings_output : (e.collectWarnings span).output = e.output := rfl

@[simp] theorem collectWarnings_faults : (e.collectWarnings span).faults = e.faults := rfl

end collectWarnings

section printArgument

variable (e : Engine)

@[simp] theorem printArgument_config : e.printArgument.config = e.config := rfl

@[simp] theorem printArgument_program : e.printArgument.program = e.program := rfl

@[simp] theorem printArgument_state : e.printArgument.state = e.state := rfl

@[simp] theorem printArgument_steps : e.printArgument.steps = e.steps := rfl

@[simp] theorem printArgument_faults : e.printArgument.faults = e.faults := rfl

@[simp] theorem printArgument_output_size : e.printArgument.output.size = e.output.size + 1 :=
  Array.size_push _

end printArgument

-- The engine once a step is under way and counted.
def Engine.counted (e : Engine) : Engine :=
  { e with state := .running, steps := e.steps + 1 }

-- The engine after an instruction went through and left a machine: it goes on where `xx` points.
def Engine.continued (e : Engine) (m : Machine) (span : Option Span) : Engine :=
  { e with machine := m.jump m.cpu.xx }.collectWarnings span

/-- Execution goes on at the address in `xx`. -/
theorem continued_nx (e : Engine) (m : Machine) (span : Option Span) :
    (e.continued m span).machine.cpu.nx = m.cpu.xx := by
  simp [Engine.continued, Machine.jump]

-- The machine on which a fetched instruction is executed, with its successor staged in `xx`.
def Engine.staged (e : Engine) (i : LoadedInstruction) : Machine :=
  e.machine.setRegister .xx i.successor

-- The ways in which a step takes one engine to another.
inductive Stepped (e : Engine) : Engine → Prop where
  -- The run was over.
  | finished (hh : e.state.isHalted = true) : Stepped e e
  | unloaded (hh : e.state.isHalted = false) (hp : e.program = none) :
    Stepped e (e.fault .notLoaded none)
  -- The step started at a reserved address.
  | trapped (p : Program) (t : Trap) (hh : e.state.isHalted = false) (hp : e.program = some p)
      (ht : Trap.at? e.machine.cpu.nx = some t) :
    Stepped e (e.counted.enterTrap t none)
  | unmapped (p : Program) (hh : e.state.isHalted = false) (hp : e.program = some p)
      (ht : Trap.at? e.machine.cpu.nx = none) (hi : p.fetch? e.machine.cpu.nx = none) :
    Stepped e (e.counted.fault (.invalidAddress e.machine.cpu.nx) none)
  | faulted (p : Program) (i : LoadedInstruction) (f : Fault) (m : Machine)
      (hh : e.state.isHalted = false) (hp : e.program = some p)
      (ht : Trap.at? e.machine.cpu.nx = none) (hi : p.fetch? e.machine.cpu.nx = some i)
      (hx : i.instruction.execute p (e.staged i) = .error f m) :
    Stepped e (({ e.counted with machine := m }.collectWarnings i.span).fault f i.span)
  | moved (p : Program) (i : LoadedInstruction) (m : Machine)
      (hh : e.state.isHalted = false) (hp : e.program = some p)
      (ht : Trap.at? e.machine.cpu.nx = none) (hi : p.fetch? e.machine.cpu.nx = some i)
      (hx : i.instruction.execute p (e.staged i) = .ok () m) (hn : Trap.at? m.cpu.xx = none) :
    Stepped e (e.counted.continued m i.span)
  -- The instruction led to a reserved address, which is served in the same step.
  | called (p : Program) (i : LoadedInstruction) (m : Machine) (t : Trap)
      (hh : e.state.isHalted = false) (hp : e.program = some p)
      (ht : Trap.at? e.machine.cpu.nx = none) (hi : p.fetch? e.machine.cpu.nx = some i)
      (hx : i.instruction.execute p (e.staged i) = .ok () m) (hn : Trap.at? m.cpu.xx = some t) :
    Stepped e ((e.counted.continued m i.span).enterTrap t i.span)

/-- A step that fetches an instruction depends on how its execution ends. -/
theorem step_fetched (e : Engine) (p : Program) (i : LoadedInstruction)
    (hh : e.state.isHalted = false) (hp : e.program = some p)
    (ht : Trap.at? e.machine.cpu.nx = none) (hi : p.fetch? e.machine.cpu.nx = some i) :
    e.step =
      match i.instruction.execute p (e.staged i) with
      | .error f m => ({ e.counted with machine := m }.collectWarnings i.span).fault f i.span
      | .ok _ m =>
        match Trap.at? (e.counted.continued m i.span).machine.cpu.nx with
        | some t => (e.counted.continued m i.span).enterTrap t i.span
        | none => e.counted.continued m i.span := by
  have hs : e.step = e.counted.perform p i := by
    simp [Engine.step, hh, hp, ht, hi, Engine.counted]
  rw [hs]
  -- Counting the step leaves the machine alone, so this is the execution that `perform` makes.
  rfl

/-- Each of these ways is what the step does under its conditions. -/
theorem step_of_stepped (e e' : Engine) (h : Stepped e e') : e.step = e' := by
  cases h with
  | finished hh => simp only [Engine.step, hh, ↓reduceIte]
  | unloaded hh hp => simp [Engine.step, hh, hp]
  | trapped p t hh hp ht => simp [Engine.step, hh, hp, ht, Engine.counted]
  | unmapped p hh hp ht hi => simp [Engine.step, hh, hp, ht, hi, Engine.counted]
  | faulted p i f m hh hp ht hi hx =>
    rw [step_fetched e p i hh hp ht hi, hx]
  | moved p i m hh hp ht hi hx hn =>
    rw [step_fetched e p i hh hp ht hi, hx]
    simp only [continued_nx, hn]
  | called p i m t hh hp ht hi hx hn =>
    rw [step_fetched e p i hh hp ht hi, hx]
    simp only [continued_nx, hn]

/-- Every engine has a step. -/
theorem stepped_total (e : Engine) : ∃ e', Stepped e e' := by
  cases hh : e.state.isHalted with
  | true => exact ⟨_, .finished hh⟩
  | false =>
    cases hp : e.program with
    | none => exact ⟨_, .unloaded hh hp⟩
    | some p =>
      cases ht : Trap.at? e.machine.cpu.nx with
      | some t => exact ⟨_, .trapped p t hh hp ht⟩
      | none =>
        cases hi : p.fetch? e.machine.cpu.nx with
        | none => exact ⟨_, .unmapped p hh hp ht hi⟩
        | some i =>
          cases hx : i.instruction.execute p (e.staged i) with
          | error f m => exact ⟨_, .faulted p i f m hh hp ht hi hx⟩
          | ok u m =>
            cases hn : Trap.at? m.cpu.xx with
            | some t => exact ⟨_, .called p i m t hh hp ht hi hx hn⟩
            | none => exact ⟨_, .moved p i m hh hp ht hi hx hn⟩

/-- A step goes one of the ways of `Stepped`. -/
theorem step_stepped (e : Engine) : Stepped e e.step := by
  obtain ⟨e', h⟩ := stepped_total e
  rw [step_of_stepped e e' h]
  exact h

theorem returnOutermost_program (e : Engine) (span : Option Span) :
    (e.returnOutermost span).program = e.program := by
  simp only [Engine.returnOutermost]
  split <;> rfl

theorem enterTrap_program (e : Engine) (t : Trap) (span : Option Span) :
    (e.enterTrap t span).program = e.program := by
  cases t with
  | outermostReturn => exact returnOutermost_program e span
  | debugOutput =>
    simp only [Engine.enterTrap]
    split
    · rw [returnOutermost_program, printArgument_program]
    · exact printArgument_program e

/-- A run keeps its program. -/
theorem step_program (e : Engine) : e.step.program = e.program := by
  have hs := step_stepped e
  generalize e.step = e' at hs
  cases hs with
  | finished | unloaded | unmapped | faulted | moved => rfl
  | trapped => exact enterTrap_program _ _ _
  | called => exact enterTrap_program _ _ _

end PagedMachine
