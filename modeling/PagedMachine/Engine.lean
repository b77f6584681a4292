import PagedMachine.Execution

/-!
Runs of a program. A step fetches the instruction at `nx`, stages its successor in `xx`, executes it
and continues where `xx` then points, so that jumps and calls are writes to `xx`. Reserved addresses
are served in the step that reaches them. A fault halts the engine; warnings are logged. A scheduler is
asked between any two steps whether the run goes on; a run that is paused can be taken up again.
-/

namespace PagedMachine

inductive Outcome where
  | normal
  | error
  deriving DecidableEq, Repr

inductive State where
  -- Nothing has been executed yet.
  | ready
  | running
  | halted (o : Outcome)
  deriving DecidableEq, Repr

def State.isHalted : State → Bool
  | .halted _ => true
  | _ => false

def State.text : State → String
  | .ready => "Ready"
  | .running => "Running"
  | .halted .normal => "Halted(Normal)"
  | .halted .error => "Halted(Error)"

structure Engine where
  config : Config
  program : Option Program
  machine : Machine
  state : State
  -- The number of steps since the program was loaded.
  steps : Nat
  -- The words printed by the debug trap.
  output : Array Word
  faults : Array (Diagnostic Fault)
  warnings : Array (Diagnostic Warning)

def Engine.start (config : Config) (entropy : Entropy) : Engine where
  config
  program := none
  machine := Machine.start config entropy
  state := .ready
  steps := 0
  output := #[]
  faults := #[]
  warnings := #[]

-- Moves the warnings of the memory to the log and attributes them to a span.
def Engine.collectWarnings (e : Engine) (span : Option Span) : Engine :=
  let (taken, memory) := e.machine.memory.takeWarnings
  { e with
    machine := { e.machine with memory }
    warnings := e.warnings ++ taken.map (Diagnostic.mk · span) }

-- Prepares a fresh run: the literals are in memory, the program counter is at the entry, and the outermost
-- return address is in the return slot of the initial stack. Missing bytes go on being drawn from where the
-- previous run left off.
def Engine.load (e : Engine) (p : Program) : Engine :=
  let machine := (Machine.start e.config e.machine.memory.entropy).jump entryAddress
  let memory := p.writeLiterals machine.memory
  let memory := memory.write .word (e.config.stack + returnSlotOffset) Trap.outermostReturn.address
  { Engine.start e.config e.machine.memory.entropy with
    program := some p
    machine := { machine with memory } }.collectWarnings none

def Engine.fault (e : Engine) (f : Fault) (span : Option Span) : Engine :=
  { e with state := .halted .error, faults := e.faults.push ⟨f, span⟩ }

-- Ends the run, normally if the stack is as it was at the start.
def Engine.returnOutermost (e : Engine) (span : Option Span) : Engine :=
  if e.machine.cpu.f5 = e.config.stack then { e with state := .halted .normal }
  else e.fault (.stackImbalance e.config.stack e.machine.cpu.f5) span

-- Prints the argument above the stack pointer and goes to the return address in its slot.
def Engine.printArgument (e : Engine) : Engine :=
  let f5 := e.machine.cpu.f5
  let (argument, memory) := e.machine.memory.read .word (f5 + debugArgumentOffset)
  let (back, memory) := memory.read .word (f5 + returnSlotOffset)
  { e with
    machine := { e.machine with memory }.jump back
    output := e.output.push argument }.collectWarnings none

-- Serves a trap. The debug trap may itself return to the outermost return address.
def Engine.enterTrap (e : Engine) (t : Trap) (span : Option Span) : Engine :=
  match t with
  | .outermostReturn => e.returnOutermost span
  | .debugOutput =>
    let e := e.printArgument
    if e.machine.cpu.nx = Trap.outermostReturn.address then e.returnOutermost span else e

def Engine.perform (e : Engine) (p : Program) (i : LoadedInstruction) : Engine :=
  match i.instruction.execute p (e.machine.setRegister .xx i.successor) with
  | .error f machine => ({ e with machine }.collectWarnings i.span).fault f i.span
  | .ok _ machine =>
    let e := { e with machine := machine.jump machine.cpu.xx }.collectWarnings i.span
    match Trap.at? e.machine.cpu.nx with
    | some t => e.enterTrap t i.span
    | none => e

def Engine.step (e : Engine) : Engine :=
  if e.state.isHalted then e
  else
    match e.program with
    | none => e.fault .notLoaded none
    | some p =>
      let e := { e with state := .running, steps := e.steps + 1 }
      let nx := e.machine.cpu.nx
      match Trap.at? nx with
      | some t => e.enterTrap t none
      | none =>
        match p.fetch? nx with
        | some i => e.perform p i
        | none => e.fault (.invalidAddress nx) none

def Engine.next? (e : Engine) : Option LoadedInstruction :=
  e.program.bind (·.fetch? e.machine.cpu.nx)

def Engine.atLine (e : Engine) : Bool :=
  e.next?.any (·.span.isSome)

-- Steps at least once, until the run is over or the next instruction comes from source text. There is no
-- answer if the given number of steps does not suffice.
def Engine.stepLine : Nat → Engine → Option Engine
  | 0, _ => none
  | fuel + 1, e =>
    let e := e.step
    if e.state.isHalted || e.atLine then some e else e.stepLine fuel

/-! Running under a scheduler. -/

-- Decides whether a run goes on, and remembers what it needs for that.
structure Scheduler (σ : Type) where
  resume : σ → Engine → Bool × σ

-- Steps until the run is over or the scheduler declines, and asks it after every step that does not end the
-- run. The host is called with the finished engine, but not with one that was paused. There is no answer if
-- the given number of steps does not suffice.
def Engine.runToCompletion {σ : Type} (s : Scheduler σ) (onHalt : σ → Engine → σ) :
    Nat → σ → Engine → Option (Engine × σ)
  | 0, _, _ => none
  | fuel + 1, host, e =>
    let e := e.step
    if e.state.isHalted then some (e, onHalt host e)
    else
      match s.resume host e with
      | (true, host) => e.runToCompletion s onHalt fuel host
      | (false, host) => some (e, host)

-- A run whose end the host takes no notice of.
def Engine.runWith {σ : Type} (s : Scheduler σ) (fuel : Nat) (memo : σ) (e : Engine) :
    Option (Engine × σ) :=
  e.runToCompletion s (fun memo _ => memo) fuel memo

def stepBudget : Scheduler Nat where
  resume remaining _ :=
    match remaining with
    | 0 => (false, 0)
    | n + 1 => (true, n)

def unlimitedBudget : Nat := 0xffffffffffffffff

-- Pauses a run at an address, or when it has been asked a number of times. What it remembers is how often it
-- was asked.
def stopAt (a : Address) (limit : Nat) : Scheduler Nat where
  resume calls e := (e.machine.cpu.nx != a && calls + 1 < limit, calls + 1)

end PagedMachine
