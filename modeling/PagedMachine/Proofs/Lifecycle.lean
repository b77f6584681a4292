import Mathlib.Logic.Relation
import Mathlib.Tactic.SplitIfs
import PagedMachine.Linkage
import PagedMachine.Proofs.Step

/-! The life of an engine, from its start through any sequence of calls. Between calls the state tells
what the logs and the program counter look like, and an engine that has halted stays as it is. -/
namespace PagedMachine

-- What holds of an engine between two calls, for the configuration it was started with.
structure Engine.Sound (c : Config) (e : Engine) : Prop where
  config : e.config = c
  one_fault : e.faults.size ≤ 1
  error_iff : e.state = .halted .error ↔ e.faults.size = 1
  normal : e.state = .halted .normal →
    e.machine.cpu.nx = Trap.outermostReturn.address ∧ e.machine.cpu.f5 = c.stack
  running : e.state = .running →
    1 ≤ e.steps ∧ e.machine.cpu.nx ≠ Trap.outermostReturn.address
  ready : e.state = .ready → e.steps = 0 ∧ e.output = #[]
  output_le : e.output.size ≤ e.steps

-- What holds of an engine in the middle of a step, wherever the program counter points.
structure Engine.Underway (c : Config) (e : Engine) : Prop where
  config : e.config = c
  running : e.state = .running
  no_fault : e.faults = #[]
  counted : 1 ≤ e.steps
  output_le : e.output.size ≤ e.steps

-- One completed call on an engine.
inductive Engine.Call (e : Engine) : Engine → Prop where
  | load (p : Program) : Call e (e.load p)
  | step : Call e e.step
  | stepLine (e' : Engine) (fuel : Nat) (h : e.stepLine fuel = some e') : Call e e'
  | run {σ : Type} (s : Scheduler σ) (fuel : Nat) (memo memo' : σ) (e' : Engine)
      (h : e.runWith s fuel memo = some (e', memo')) : Call e e'

-- The engines that any finite sequence of completed calls leads to.
def Engine.Reachable (c : Config) (r : Entropy) (e : Engine) : Prop :=
  Relation.ReflTransGen Engine.Call (Engine.start c r) e

/-- An engine that has not halted has recorded no fault. -/
theorem no_fault_of_not_halted (c : Config) (e : Engine) (h : e.Sound c)
    (hh : e.state.isHalted = false) : e.faults = #[] := by
  have hone := h.one_fault
  -- One fault would mean that the engine halted on it.
  have hsize : e.faults.size ≠ 1 := by
    intro hs
    rw [h.error_iff.mpr hs] at hh
    contradiction
  apply Array.size_eq_zero_iff.mp
  omega

/-- A sound engine that has not halted is under way once its step is counted. -/
theorem underway_counted (c : Config) (e : Engine) (h : e.Sound c)
    (hh : e.state.isHalted = false) : e.counted.Underway c := by
  have hle := h.output_le
  exact
    { config := h.config
      running := rfl
      no_fault := no_fault_of_not_halted c e h hh
      counted := Nat.succ_pos e.steps
      output_le := Nat.le_succ_of_le hle }

theorem underway_continued (c : Config) (e : Engine) (m : Machine) (span : Option Span)
    (h : e.Underway c) : (e.continued m span).Underway c where
  config := by simpa [Engine.continued] using h.config
  running := by simpa [Engine.continued] using h.running
  no_fault := by simpa [Engine.continued] using h.no_fault
  counted := by simpa [Engine.continued] using h.counted
  output_le := by simpa [Engine.continued] using h.output_le

theorem underway_printArgument (c : Config) (e : Engine) (h : e.Underway c)
    (ho : e.output.size < e.steps) : e.printArgument.Underway c where
  config := by simpa using h.config
  running := by simpa using h.running
  no_fault := by simpa using h.no_fault
  counted := by simpa using h.counted
  output_le := by simpa using Nat.succ_le_of_lt ho

/-- A step that ends away from the outermost return leaves the engine sound. -/
theorem sound_of_underway (c : Config) (e : Engine) (h : e.Underway c)
    (hn : e.machine.cpu.nx ≠ Trap.outermostReturn.address) : e.Sound c where
  config := h.config
  one_fault := by simp [h.no_fault]
  error_iff := by simp [h.running, h.no_fault]
  normal hs := by simp [h.running] at hs
  running _ := ⟨h.counted, hn⟩
  ready hs := by simp [h.running] at hs
  output_le := h.output_le

/-- A fault halts the engine and is the only one recorded. -/
theorem fault_sound (c : Config) (e : Engine) (f : Fault) (span : Option Span)
    (hc : e.config = c) (hf : e.faults = #[]) (ho : e.output.size ≤ e.steps) :
    (e.fault f span).Sound c where
  config := hc
  one_fault := by simp [Engine.fault, hf]
  error_iff := by simp [Engine.fault, hf]
  normal hs := by simp [Engine.fault] at hs
  running hs := by simp [Engine.fault] at hs
  ready hs := by simp [Engine.fault] at hs
  output_le := ho

/-- The outermost return halts the engine, with a fault exactly when the stack is out of balance. -/
theorem returnOutermost_sound (c : Config) (e : Engine) (span : Option Span) (h : e.Underway c)
    (hn : e.machine.cpu.nx = Trap.outermostReturn.address) : (e.returnOutermost span).Sound c := by
  simp only [Engine.returnOutermost]
  split_ifs with hs
  · rw [h.config] at hs
    exact
      { config := h.config
        one_fault := by simp [h.no_fault]
        error_iff := by simp [h.no_fault]
        normal := fun _ => ⟨hn, hs⟩
        running := by simp
        ready := by simp
        output_le := h.output_le }
  · exact fault_sound c e _ span h.config h.no_fault h.output_le

/-- A trap is served at its own address and prints at most one word. -/
theorem enterTrap_sound (c : Config) (e : Engine) (t : Trap) (span : Option Span)
    (h : e.Underway c) (ho : e.output.size < e.steps) (hn : e.machine.cpu.nx = t.address) :
    (e.enterTrap t span).Sound c := by
  cases t with
  | outermostReturn => exact returnOutermost_sound c e span h hn
  | debugOutput =>
    -- The print goes back to an address out of memory, which may be the outermost return itself.
    have hp := underway_printArgument c e h ho
    simp only [Engine.enterTrap]
    split_ifs with hb
    · exact returnOutermost_sound c _ span hp hb
    · exact sound_of_underway c _ hp hb

/-- Every way a step can go keeps an engine sound. -/
theorem stepped_sound (c : Config) (e e' : Engine) (hs : Stepped e e') (h : e.Sound c) :
    e'.Sound c := by
  -- The step is counted before anything is printed, which leaves room for the one word it may print.
  have hout : e.counted.output.size < e.counted.steps := by
    have hle := h.output_le
    change e.output.size < e.steps + 1
    omega
  cases hs with
  | finished => exact h
  | unloaded hh hp =>
    have hf := no_fault_of_not_halted c e h hh
    exact fault_sound c e _ none h.config hf h.output_le
  | trapped p t hh hp ht =>
    have hu := underway_counted c e h hh
    exact enterTrap_sound c _ t none hu hout ((trap_at_iff _ t).mp ht)
  | unmapped p hh hp ht hi =>
    have hu := underway_counted c e h hh
    exact fault_sound c _ _ none hu.config hu.no_fault hu.output_le
  | faulted p i f m hh hp ht hi hx =>
    have hu := underway_counted c e h hh
    apply fault_sound
    · simpa using hu.config
    · simpa using hu.no_fault
    · simpa using hu.output_le
  | moved p i m hh hp ht hi hx hn =>
    have hu := underway_continued c _ m i.span (underway_counted c e h hh)
    apply sound_of_underway c _ hu
    rw [continued_nx]
    exact trap_at_none _ hn _
  | called p i m t hh hp ht hi hx hn =>
    have hu := underway_continued c _ m i.span (underway_counted c e h hh)
    apply enterTrap_sound c _ t i.span hu
    · simpa [Engine.continued] using hout
    · rw [continued_nx]
      exact (trap_at_iff _ t).mp hn

theorem step_sound (c : Config) (e : Engine) (h : e.Sound c) : e.step.Sound c :=
  stepped_sound c e e.step (step_stepped e) h

theorem stepLine_sound (c : Config) (fuel : Nat) (e e' : Engine) (h : e.Sound c)
    (hs : e.stepLine fuel = some e') : e'.Sound c := by
  -- The steps of the call are made one by one, so the engine to start from varies with the fuel.
  induction fuel generalizing e with
  | zero => simp [Engine.stepLine] at hs
  | succ fuel ih =>
    simp only [Engine.stepLine] at hs
    split_ifs at hs
    · cases hs
      exact step_sound c e h
    · exact ih e.step (step_sound c e h) hs

/-- A run under any scheduler keeps an engine sound. -/
theorem runWith_sound {σ : Type} (c : Config) (s : Scheduler σ) (fuel : Nat) (memo memo' : σ)
    (e e' : Engine) (h : e.Sound c) (hs : e.runWith s fuel memo = some (e', memo')) :
    e'.Sound c := by
  induction fuel generalizing memo e with
  | zero => simp [Engine.runWith, Engine.runToCompletion] at hs
  | succ fuel ih =>
    simp only [Engine.runWith, Engine.runToCompletion] at hs
    split_ifs at hs
    · cases hs
      exact step_sound c e h
    · split at hs
      · exact ih _ e.step (step_sound c e h) hs
      · cases hs
        exact step_sound c e h

theorem start_sound (c : Config) (r : Entropy) : (Engine.start c r).Sound c := by
  constructor <;> simp [Engine.start]

theorem load_sound (c : Config) (e : Engine) (p : Program) (h : e.config = c) :
    (e.load p).Sound c := by
  subst h
  constructor <;> simp [Engine.load, Engine.start]

/-- Every call of a host keeps an engine sound. -/
theorem call_sound (c : Config) (e e' : Engine) (hc : e.Call e') (h : e.Sound c) : e'.Sound c := by
  cases hc with
  | load p => exact load_sound c e p h.config
  | step => exact step_sound c e h
  | stepLine e' fuel hs => exact stepLine_sound c fuel e e' h hs
  | run s fuel memo memo' e' hs => exact runWith_sound c s fuel memo memo' e e' h hs

/-- By induction on the calls: every reachable engine is sound. -/
theorem reachable_sound (c : Config) (r : Entropy) (e : Engine) (h : e.Reachable c r) :
    e.Sound c := by
  induction h with
  | refl => exact start_sound c r
  | tail _ hcall ih => exact call_sound c _ _ hcall ih

theorem step_halted (e : Engine) (h : e.state.isHalted = true) : e.step = e := by
  simp only [Engine.step, h, ↓reduceIte]

theorem stepLine_halted (e : Engine) (h : e.state.isHalted = true) (fuel : Nat) :
    e.stepLine (fuel + 1) = some e := by
  simp only [Engine.stepLine, step_halted e h, h, Bool.true_or, ↓reduceIte]

theorem runWith_halted {σ : Type} (e : Engine) (h : e.state.isHalted = true) (s : Scheduler σ)
    (fuel : Nat) (memo : σ) : e.runWith s (fuel + 1) memo = some (e, memo) := by
  simp only [Engine.runWith, Engine.runToCompletion, step_halted e h, h, ↓reduceIte]

/-- Whatever sequence of calls an engine has gone through: it has at most one fault, and one exactly if it
halted on an error; halted normally it stands at the outermost return with the initial stack; a run
under way has taken a step and a fresh one none; no step prints twice; and once it has halted, no call
but a load changes anything. -/
theorem reachable_lifecycle (c : Config) (r : Entropy) (e : Engine) (h : e.Reachable c r) :
    e.Sound c ∧
    (e.state.isHalted = true →
      e.step = e ∧ (∀ fuel, e.stepLine (fuel + 1) = some e) ∧
      ∀ (σ : Type) (s : Scheduler σ) (fuel : Nat) (memo : σ),
        e.runWith s (fuel + 1) memo = some (e, memo)) := by
  refine ⟨reachable_sound c r e h, ?_⟩
  intro hh
  refine ⟨step_halted e hh, stepLine_halted e hh, ?_⟩
  intro σ s fuel memo
  exact runWith_halted e hh s fuel memo

-- Four instructions, of which the second does not come from source text, and the last one returns to
-- whoever started the run.
def threeLines : Module where
  name := "main"
  instructions :=
    [⟨.nullary .nop, [], some ⟨1, 1, 3⟩⟩, ⟨.nullary .nop, [], none⟩, ⟨.nullary .nop, [], some ⟨2, 1, 3⟩⟩,
      ⟨.binary .mov (.register .xx) (.place (.based .f5 none)), [], some ⟨3, 1, 12⟩⟩]
  literals := []
  exports := []
  imports := []
  isEntry := true

/-- The program is loaded and stepped by a line, which takes two steps; then a run of it is paused after one
step and taken up again, and it halts normally. The engine that is left refuses to move. -/
theorem threeLines_lifecycle :
    let e := (Engine.start {} (.seeded 0)).load (link [threeLines]).program
    ∃ line paused ended : Engine,
      e.stepLine 2 = some line ∧ line.steps = 2 ∧
      line.runWith stepBudget 1 0 = some (paused, 0) ∧ paused.state = .running ∧ paused.steps = 3 ∧
      paused.runWith stepBudget 1 5 = some (ended, 5) ∧ ended.state = .halted .normal ∧ ended.steps = 4 ∧
      ended.Reachable {} (.seeded 0) ∧ ended.Sound {} ∧ ended.step = ended ∧
      ended.stepLine 1 = some ended ∧ ended.runWith stepBudget 1 7 = some (ended, 7) := by
  intro e
  have hload : e.Reachable {} (.seeded 0) := Relation.ReflTransGen.single (.load _)
  have hfirst : (e.step.state.isHalted || e.step.atLine) = false := by decide +kernel
  have hsecond : (e.step.step.state.isHalted || e.step.step.atLine) = true := by decide +kernel
  have hthird : e.step.step.step.state.isHalted = false := by decide +kernel
  have hfourth : e.step.step.step.step.state.isHalted = true := by decide +kernel
  have hrunning : e.step.step.step.state = .running := by decide +kernel
  have hnormal : e.step.step.step.step.state = .halted .normal := by decide +kernel
  have hsteps : e.step.step.steps = 2 ∧ e.step.step.step.steps = 3 ∧ e.step.step.step.step.steps = 4 := by
    decide +kernel
  -- Nothing is evaluated from here on.
  clear_value e
  have hline : e.stepLine 2 = some e.step.step := by
    simp only [Engine.stepLine, hfirst, hsecond, Bool.false_eq_true, ↓reduceIte]
  have hpause : e.step.step.runWith stepBudget 1 0 = some (e.step.step.step, 0) := by
    simp only [Engine.runWith, Engine.runToCompletion, hthird, Bool.false_eq_true, ↓reduceIte, stepBudget]
  have hend : e.step.step.step.runWith stepBudget 1 5 = some (e.step.step.step.step, 5) := by
    simp only [Engine.runWith, Engine.runToCompletion, hfourth, ↓reduceIte]
  have hreach : e.step.step.step.step.Reachable {} (.seeded 0) :=
    ((hload.tail (.stepLine _ _ hline)).tail (.run _ _ _ _ _ hpause)).tail (.run _ _ _ _ _ hend)
  obtain ⟨hsound, hstays⟩ := reachable_lifecycle {} (.seeded 0) _ hreach
  obtain ⟨hstep, hstepLine, hrun⟩ := hstays hfourth
  exact ⟨_, _, _, hline, hsteps.1, hpause, hrunning, hsteps.2.1, hend, hnormal, hsteps.2.2, hreach, hsound,
    hstep, hstepLine 0, hrun Nat stepBudget 0 7⟩

end PagedMachine
