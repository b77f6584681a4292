import PagedMachine.Display.Engine
import PagedMachine.Event
import PagedMachine.Options
import PagedMachine.Engine

/-!
A session: files are read, linked and run, and a report tells what to print and how to exit. The stages
end the session early if a file has no module or if the linked program must not be run.
-/

namespace PagedMachine

inductive Shown where
  -- A log line.
  | event (e : Event)
  -- Text that is printed whatever the level.
  | text (s : String)

structure Report where
  exit : Nat
  shown : List Shown

-- The run halted normally.
def exitNormal : Nat := 0

-- A file could not be read or assembled, or the program could not be linked.
def exitRejected : Nat := 1

-- The run halted on a fault.
def exitFault : Nat := 2

-- The run was paused by the step limit.
def exitPaused : Nat := 3

-- The command line could not be understood.
def exitUsage : Nat := 2

abbrev FileText := Except ReadFailure String

-- The last part of a path that names something; a trailing slash or dot does not.
def fileName (path : String) : String :=
  ((path.toList.splitOn '/').filter fun part => part != [] && part != ['.']).getLast?
    |>.map String.ofList |>.getD ""

-- The name of the module in a file: the file's name up to its last dot, unless nothing else is in front of
-- that dot.
def moduleName (path : String) : String :=
  let name := (fileName path).toList
  let stem := (name.reverse.dropWhile (· != '.')).drop 1
  if fileName path = "" || fileName path = ".." then path
  else if stem.isEmpty then String.ofList name
  else String.ofList stem.reverse

def readModule (path : String) (file : FileText) : Option Module × List Event :=
  match file with
  | .error failure => (none, [.unreadableFile path failure])
  | .ok text =>
    match Assembly.read (moduleName path) text with
    | .ok m => (some m, [.moduleRead m])
    | .error errors =>
      (none, .moduleRejected (moduleName path) errors.length :: errors.map (.assemblyError path))

-- What linking logs: the pages in the order of assignment, then every problem.
def linkEvents (modules : List Module) (k : Linkage) : List Event :=
  ((assignPages modules).map fun (id, m) => .modulePlaced m.name id)
    ++ k.diagnostics.toList.map .linkProblem

-- Steps once and then for as long as the budget lasts and the run is not over, and logs every step.
def Engine.runLogged : Nat → Engine → Array Event → Engine × Array Event
  | budget, e, log =>
    let mark := e.mark
    let e := e.step
    let log := log ++ e.eventsSince mark
    if e.state.isHalted then (e, log.push (.runEnded e.steps))
    else
      match budget with
      | 0 => (e, log)
      | n + 1 => e.runLogged n log

-- Runs until the engine halts or has taken as many steps as the limit allows.
def Engine.runLimited (e : Engine) (limit : Option Nat) : Engine × List Event :=
  match limit with
  | some 0 => (e, [])
  | some (n + 1) => let (e, log) := e.runLogged n #[]; (e, log.toList)
  | none => let (e, log) := e.runLogged unlimitedBudget #[]; (e, log.toList)

def Engine.summary (e : Engine) : List Shown :=
  (e.outputText.map fun line => .text (line ++ "\n"))
    ++ (e.warnings.toList.map fun d => .event (.warningSummary d))
    ++ e.faults.toList.map fun d => .event (.faultSummary d)

-- The report on a run that has stopped. The engine is shown unless it halted normally.
def Engine.report (e : Engine) : Report :=
  let display : Shown := .text (e.display ++ "\n")
  match e.state with
  | .halted .normal => ⟨exitNormal, e.summary⟩
  | .halted .error => ⟨exitFault, e.summary ++ [display]⟩
  | _ => ⟨exitPaused, e.summary ++ [.event (.runPaused e.steps), display]⟩

def Report.after (shown : List Shown) (r : Report) : Report :=
  { r with shown := shown ++ r.shown }

def runProgram (p : Program) (limit : Option Nat) (entropy : Entropy) : Report :=
  let loaded := (Engine.start {} entropy).load p
  let raised := loaded.warnings.toList.map fun d => Shown.event (.warningRaised d.issue)
  let (e, log) := loaded.runLimited limit
  e.report.after (raised ++ log.map .event)

-- Links modules and, if that went well, runs them. Every problem is told twice, by the linker and for the
-- session.
def linkAndRun (o : Options) (modules : List Module) (entropy : Entropy) : Report :=
  let k := link modules
  let linked := (linkEvents modules k ++ k.diagnostics.toList.map Event.linkProblem).map Shown.event
  let listing := if o.listing then [Shown.text (k.program.listing ++ "\n")] else []
  let report :=
    if k.isRunnable then runProgram k.program o.maxSteps entropy else ⟨exitRejected, []⟩
  report.after (linked ++ listing)

-- Runs the files of a command line. All of them are read before anything is linked.
def runFiles (o : Options) (files : List (String × FileText)) (entropy : Entropy) : Report :=
  let read := files.map fun (path, file) => readModule path file
  let modules := read.filterMap (·.1)
  let report :=
    if modules.length = read.length then linkAndRun o modules entropy else ⟨exitRejected, []⟩
  report.after (read.flatMap fun r => r.2.map .event)

-- The text of what is shown. Verbose events are left out unless asked for.
def Shown.render (verbose : Bool) : Shown → String
  | .text s => s
  | .event e => if e.level.isVerbose && !verbose then "" else e.text ++ "\n"

def Report.output (o : Options) (r : Report) : String :=
  String.join (r.shown.map (Shown.render o.verbose))

end PagedMachine
