import PagedMachine.Memory

/-!
The state of the hardware: registers, program counter, flag and memory.
-/

namespace PagedMachine

structure Config where
  -- The value of all registers but the stack pointer.
  garbage : Word := PagedMachine.garbage
  -- The value of the stack pointer.
  stack : Address := initialStack
  deriving DecidableEq, Repr

structure Cpu where
  f0 : Word
  f1 : Word
  f2 : Word
  f3 : Word
  f5 : Word
  xx : Word
  -- The program counter, which no operand can name.
  nx : Address
  -- The result of the last comparison.
  flag : Bool
  deriving DecidableEq, Repr

def Cpu.start (c : Config) : Cpu where
  f0 := c.garbage
  f1 := c.garbage
  f2 := c.garbage
  f3 := c.garbage
  f5 := c.stack
  xx := c.garbage
  nx := programBase
  flag := false

def Cpu.get (c : Cpu) : Register → Word
  | .f0 => c.f0
  | .f1 => c.f1
  | .f2 => c.f2
  | .f3 => c.f3
  | .f5 => c.f5
  | .xx => c.xx

def Cpu.set (c : Cpu) (r : Register) (w : Word) : Cpu :=
  match r with
  | .f0 => { c with f0 := w }
  | .f1 => { c with f1 := w }
  | .f2 => { c with f2 := w }
  | .f3 => { c with f3 := w }
  | .f5 => { c with f5 := w }
  | .xx => { c with xx := w }

structure Machine where
  cpu : Cpu
  memory : Memory

def Machine.start (c : Config) (entropy : Entropy) : Machine :=
  ⟨Cpu.start c, Memory.empty entropy⟩

def Machine.setRegister (m : Machine) (r : Register) (w : Word) : Machine :=
  { m with cpu := m.cpu.set r w }

def Machine.jump (m : Machine) (a : Address) : Machine :=
  { m with cpu := { m.cpu with nx := a } }

end PagedMachine
