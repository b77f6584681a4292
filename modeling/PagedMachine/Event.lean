import PagedMachine.Assembly.Reader
import PagedMachine.Engine
import PagedMachine.Linkage
import PagedMachine.Display.Table

/-!
What is worth logging about reading, linking and running a program. An event has a level, which decides
whether it is shown, and a message.
-/

namespace PagedMachine

inductive Level where
  | error
  | warn
  | info
  | debug
  | trace
  deriving DecidableEq, Repr

def Level.text : Level → String
  | .error => "ERROR"
  | .warn => " WARN"
  | .info => " INFO"
  | .debug => "DEBUG"
  | .trace => "TRACE"

def Level.isVerbose : Level → Bool
  | .debug | .trace => true
  | _ => false

inductive ReadFailure where
  | missing
  -- Something on the way to the file is no directory.
  | notDirectory
  | directory
  | nameTooLong
  | notText
  | other (reason : String)
  deriving DecidableEq, Repr

def ReadFailure.message : ReadFailure → String
  | .missing => "No such file or directory (os error 2)"
  | .notDirectory => "Not a directory (os error 20)"
  | .directory => "Is a directory (os error 21)"
  | .nameTooLong => "File name too long (os error 36)"
  | .notText => "stream did not contain valid UTF-8"
  | .other reason => reason

inductive Event where
  | unreadableFile (path : String) (failure : ReadFailure)
  | moduleRead (m : Module)
  | moduleRejected (name : String) (errors : Nat)
  | assemblyError (path : String) (error : AssemblyError)
  | modulePlaced (name : String) (page : Nat)
  | linkProblem (diagnostic : Diagnostic LinkError)
  | instructionFetched (address : Address) (instruction : Instruction)
  | warningRaised (warning : Warning)
  | wordPrinted (word : Word)
  | haltedNormally (steps : Nat)
  | faulted (steps : Nat) (fault : Fault)
  | runEnded (steps : Nat)
  | runPaused (steps : Nat)
  | warningSummary (diagnostic : Diagnostic Warning)
  | faultSummary (diagnostic : Diagnostic Fault)

def Event.level : Event → Level
  | .unreadableFile _ _ | .assemblyError _ _ | .linkProblem _ | .faulted _ _ | .faultSummary _ =>
    .error
  | .warningRaised _ => .warn
  | .runEnded _ | .runPaused _ | .warningSummary _ => .info
  | .moduleRead _ | .moduleRejected _ _ | .modulePlaced _ _ | .wordPrinted _ | .haltedNormally _ =>
    .debug
  | .instructionFetched _ _ => .trace

def Event.message : Event → String
  | .unreadableFile path failure => s!"could not read {path}: {failure.message}"
  | .moduleRead m =>
    s!"read module `{m.name}`: {m.instructions.length} instructions, {m.literals.length} literals"
  | .moduleRejected name errors => s!"module `{name}` has {errors} assembly errors"
  | .assemblyError path error => s!"{path}: {error.message}"
  | .modulePlaced name page => s!"link: module `{name}` on page {page} at {(pageBase page).hex}"
  | .linkProblem d => "link: " ++ d.message LinkError.message
  | .instructionFetched a i => s!"{a.hex}: {i.text}"
  | .warningRaised w => w.message
  | .wordPrinted w => s!"debug output: {w.decimal}"
  | .haltedNormally steps => s!"halted normally after {steps} steps"
  | .faulted steps f => s!"fault after {steps} steps: {f.message}"
  | .runEnded steps => s!"halted after {steps} steps"
  | .runPaused steps => s!"paused after {steps} steps"
  | .warningSummary d => "warning: " ++ d.message Warning.message
  | .faultSummary d => "fault: " ++ d.message Fault.message

-- An event as a line of the log, with nothing in it that a terminal would act on.
def Event.text (e : Event) : String :=
  e.level.text ++ " " ++ Text.escape e.message

-- What has to be kept of an engine before a step in order to tell afterwards what happened.
structure Mark where
  fetched : Option LoadedInstruction
  warnings : Nat
  output : Nat
  faults : Nat
  wasHalted : Bool

-- The mark of an engine. Reserved addresses hold nothing that is fetched.
def Engine.mark (e : Engine) : Mark where
  fetched := if (Trap.at? e.machine.cpu.nx).isSome then none else e.next?
  warnings := e.warnings.size
  output := e.output.size
  faults := e.faults.size
  wasHalted := e.state.isHalted

-- What happened in the step since a mark, in order: the instruction, its warnings, what was printed, and how
-- the run ended.
def Engine.eventsSince (e : Engine) (k : Mark) : List Event :=
  if k.wasHalted then []
  else
    (k.fetched.toList.map fun i => .instructionFetched i.address i.instruction)
      ++ ((e.warnings.extract k.warnings).toList.map fun d => .warningRaised d.issue)
      ++ (e.output.extract k.output).toList.map .wordPrinted
      ++ (if e.state = .halted .normal then [.haltedNormally e.steps] else [])
      ++ (e.faults.extract k.faults).toList.map fun d => .faulted e.steps d.issue

end PagedMachine
