import Mathlib.Data.List.Infix
import Mathlib.Data.List.Forall2
import PagedMachine.Proofs.Scheduling

/-! Sessions from files to exit codes. A session is rejected before anything runs if a file has no module or
the modules link to no program; otherwise its exit code tells how far the allowed steps have come, and a
run that is over looks the same under every larger limit. -/
namespace PagedMachine

-- Every file could be read, and its text is assembly of the module.
def FilesHold (files : List (String × FileText)) (modules : List Module) : Prop :=
  List.Forall₂ (fun f m => ∃ text, f.2 = .ok text ∧ Assembly.read (moduleName f.1) text = .ok m)
    files modules

-- The reasons for which files are not run at all.
inductive FilesRejected (files : List (String × FileText)) : Prop where
  | unreadable (path : String) (failure : ReadFailure) (h : (path, .error failure) ∈ files)
  | misassembled (path text : String) (errors : List AssemblyError) (h : (path, .ok text) ∈ files)
      (hread : Assembly.read (moduleName path) text = .error errors)
  | unrunnable (modules : List Module) (h : FilesHold files modules)
      (hlink : (link modules).isRunnable = false)

-- The exit code for a run that stopped in a state.
def State.exitCode : State → Nat
  | .halted .normal => 0
  | .halted .error => 2
  | _ => 3

-- What the next step executes, which is nothing at a reserved or unmapped address or after the end.
def Engine.pending? (e : Engine) : Option (Address × Instruction) :=
  if e.state.isHalted || (Trap.at? e.machine.cpu.nx).isSome then none
  else e.next?.map fun i => (i.address, i.instruction)

def Event.executed? : Event → Option (Address × Instruction)
  | .instructionFetched a i => some (a, i)
  | _ => none

def Shown.executed? : Shown → Option (Address × Instruction)
  | .event e => e.executed?
  | .text _ => none

-- The instructions that a session tells of as executed, in order.
def Report.executed (r : Report) : List (Address × Instruction) :=
  r.shown.filterMap Shown.executed?

theorem events_executed (es : List Event) :
    (es.map Shown.event).filterMap Shown.executed? = es.filterMap Event.executed? := by
  rw [List.filterMap_map]
  rfl

theorem after_executed (shown : List Shown) (r : Report) :
    (r.after shown).executed = shown.filterMap Shown.executed? ++ r.executed :=
  List.filterMap_append

theorem map_not_executed {α : Type} (g : α → Event) (h : ∀ x, (g x).executed? = none) (xs : List α) :
    (xs.map g).filterMap Event.executed? = [] := by
  rw [List.filterMap_map, List.filterMap_eq_nil_iff]
  intro x _
  exact h x

/-- The events of a step execute what was fetched before it, unless the engine had halted. -/
theorem eventsSince_executed (e : Engine) (k : Mark) :
    (e.eventsSince k).filterMap Event.executed? =
      if k.wasHalted then [] else k.fetched.toList.map fun i => (i.address, i.instruction) := by
  -- What is told behind the instruction is not one.
  have hend : (if e.state = .halted .normal then [Event.haltedNormally e.steps] else []).filterMap
      Event.executed? = [] := by
    split_ifs <;> rfl
  have hwarnings := map_not_executed
    (fun d : Diagnostic Warning => Event.warningRaised d.issue) fun _ => rfl
  have hfaults := map_not_executed
    (fun d : Diagnostic Fault => Event.faulted e.steps d.issue) fun _ => rfl
  have hwords := map_not_executed Event.wordPrinted fun _ => rfl
  rw [Engine.eventsSince]
  by_cases hk : k.wasHalted = true
  · rw [if_pos hk, if_pos hk, List.filterMap_nil]
  · rw [if_neg hk, if_neg hk, List.filterMap_append, List.filterMap_append, List.filterMap_append,
      List.filterMap_append, hwarnings, hwords, hend, hfaults]
    cases k.fetched <;> rfl

/-- A step executes what was pending. -/
theorem step_executed (e e' : Engine) :
    (e'.eventsSince e.mark).filterMap Event.executed? = e.pending?.toList := by
  rw [eventsSince_executed, Engine.pending?]
  change (if e.state.isHalted = true then [] else
    (if (Trap.at? e.machine.cpu.nx).isSome = true then none else e.next?).toList.map
      fun i => (i.address, i.instruction)) = _
  by_cases he : e.state.isHalted = true
  · simp [he]
  · by_cases ht : (Trap.at? e.machine.cpu.nx).isSome = true
    · simp [he, ht]
    · cases e.next? <;> simp [he, ht]

theorem pending_halted (e : Engine) (h : e.state.isHalted = true) : e.pending? = none := by
  rw [Engine.pending?, h, Bool.true_or, if_pos rfl]

-- The instructions that are pending before the first steps, one after the other.
def Engine.pendingAlong (e : Engine) (n : Nat) : List (Address × Instruction) :=
  (List.range n).filterMap fun j => (Engine.step^[j] e).pending?

theorem pendingAlong_succ (e : Engine) (n : Nat) :
    e.pendingAlong (n + 1) = e.pending?.toList ++ e.step.pendingAlong n := by
  simp only [Engine.pendingAlong, List.range_succ_eq_map, List.filterMap_cons, List.filterMap_map,
    Function.comp_def, Function.iterate_zero_apply, Function.iterate_succ_apply]
  cases e.pending? <;> rfl

theorem pendingAlong_halted (e : Engine) (h : e.state.isHalted = true) (n : Nat) :
    e.pendingAlong n = [] := by
  rw [Engine.pendingAlong, List.filterMap_eq_nil_iff]
  intro j _
  rw [iterate_step_halted e h, pending_halted e h]

theorem log_step_executed (e : Engine) (log : Array Event) :
    (log ++ e.step.eventsSince e.mark).toList.filterMap Event.executed? =
      log.toList.filterMap Event.executed? ++ e.pending?.toList := by
  rw [← step_executed e e.step, ← List.filterMap_append]
  simp

/-- By induction on the limit: the log of a run executes what was pending along it. -/
theorem runLogged_executed (n : Nat) (e : Engine) (log : Array Event) :
    (e.runLogged n log).2.toList.filterMap Event.executed? =
      log.toList.filterMap Event.executed? ++ e.pendingAlong (n + 1) := by
  -- The first step is told here, and the others by the run that starts behind it.
  induction n generalizing e log with
  | zero =>
    rw [Engine.runLogged, pendingAlong_succ, ← List.append_assoc, ← log_step_executed]
    split_ifs with hh
    · simp [Engine.pendingAlong, Event.executed?]
    · simp [Engine.pendingAlong]
  | succ n ih =>
    rw [Engine.runLogged, pendingAlong_succ, ← List.append_assoc, ← log_step_executed]
    split_ifs with hh
    · rw [pendingAlong_halted _ hh]
      simp [Event.executed?]
    · exact ih e.step _

/-- A limited run executes what was pending at each of its steps. -/
theorem runLimited_executed (e : Engine) (n : Nat) :
    (e.runLimited (some n)).2.filterMap Event.executed? = e.pendingAlong n := by
  cases n with
  | zero => rfl
  | succ n =>
    have h := runLogged_executed n e #[]
    rwa [List.filterMap_nil, List.nil_append] at h

theorem runLogged_after_halt (n m : Nat) (e : Engine) (log : Array Event)
    (h : (Engine.step^[n + 1] e).state.isHalted = true) :
    e.runLogged (n + m) log = e.runLogged n log := by
  induction n generalizing e log with
  | zero =>
    -- The first step ends the run, so the budget is not asked for.
    have hh : e.step.state.isHalted = true := h
    rw [Engine.runLogged.eq_def, Engine.runLogged.eq_def]
    simp only [hh, ↓reduceIte]
  | succ n ih =>
    rw [Function.iterate_succ_apply] at h
    rw [Nat.add_right_comm, Engine.runLogged, Engine.runLogged]
    split_ifs with hh
    · rfl
    · exact ih e.step _ h

/-- A run that halted within its limit is the same under any greater limit. -/
theorem runLimited_after_halt (e : Engine) (n m : Nat) (he : e.state.isHalted = false)
    (h : (Engine.step^[n] e).state.isHalted = true) (hnm : n ≤ m) :
    e.runLimited (some m) = e.runLimited (some n) := by
  obtain ⟨k, rfl⟩ := Nat.exists_eq_add_of_le hnm
  cases n with
  | zero =>
    -- No step was taken, so there was a halt to begin with.
    rw [Function.iterate_zero_apply, he] at h
    contradiction
  | succ n =>
    rw [Nat.add_right_comm]
    simp only [Engine.runLimited, runLogged_after_halt n k e #[] h]

/-- A file gives a module exactly when it was opened and its text was read. -/
theorem readModule_some (path : String) (file : FileText) (m : Module) :
    (readModule path file).1 = some m ↔
      ∃ text, file = .ok text ∧ Assembly.read (moduleName path) text = .ok m := by
  cases file with
  | error failure => simp [readModule]
  | ok text => cases hr : Assembly.read (moduleName path) text <;> simp [readModule, hr]

theorem readModule_none (path : String) (file : FileText) (h : (readModule path file).1 = none) :
    (∃ failure, file = .error failure) ∨
      ∃ text errors, file = .ok text ∧ Assembly.read (moduleName path) text = .error errors := by
  cases file with
  | error failure => exact Or.inl ⟨failure, rfl⟩
  | ok text =>
    cases hr : Assembly.read (moduleName path) text with
    | error errors => exact Or.inr ⟨text, errors, rfl, hr⟩
    | ok m => simp [readModule, hr] at h

theorem readModule_executed (path : String) (file : FileText) :
    (readModule path file).2.filterMap Event.executed? = [] := by
  cases file with
  | error failure => rfl
  | ok text =>
    cases hr : Assembly.read (moduleName path) text with
    | error errors => simp [readModule, hr, Event.executed?]
    | ok m => simp [readModule, hr, Event.executed?]

def readShown (files : List (String × FileText)) : List Shown :=
  files.flatMap fun f => (readModule f.1 f.2).2.map .event

-- What linking shows, with the listing if it is asked for.
def linkShown (o : Options) (modules : List Module) : List Shown :=
  (linkEvents modules (link modules) ++
      (link modules).diagnostics.toList.map Event.linkProblem).map Shown.event ++
    if o.listing then [Shown.text ((link modules).program.listing ++ "\n")] else []

theorem readShown_executed (files : List (String × FileText)) :
    (readShown files).filterMap Shown.executed? = [] := by
  rw [readShown, List.filterMap_flatMap, List.flatMap_eq_nil_iff]
  intro f _
  rw [events_executed, readModule_executed]

theorem linkShown_executed (o : Options) (modules : List Module) :
    (linkShown o modules).filterMap Shown.executed? = [] := by
  have hlisting : (if o.listing then [Shown.text ((link modules).program.listing ++ "\n")]
      else []).filterMap Shown.executed? = [] := by
    split_ifs <;> rfl
  have hplaced := map_not_executed
    (fun q : Nat × Module => Event.modulePlaced q.2.name q.1) fun _ => rfl
  have hproblems := map_not_executed Event.linkProblem fun _ => rfl
  rw [linkShown, List.filterMap_append, events_executed, hlisting, List.filterMap_append, linkEvents,
    List.filterMap_append, hplaced, hproblems]
  rfl

/-- Files hold modules exactly when each of them gives its module. -/
theorem filesHold_iff (files : List (String × FileText)) (modules : List Module) :
    FilesHold files modules ↔
      (files.map fun f => (readModule f.1 f.2).1) = modules.map some := by
  induction files generalizing modules with
  | nil => cases modules <;> simp [FilesHold]
  | cons f files ih =>
    cases modules with
    | nil => simp [FilesHold]
    | cons m modules =>
      rw [List.map_cons, List.map_cons, List.cons.injEq, ← ih, readModule_some]
      exact List.forall₂_cons

/-- Either every file gives a module or some file gives none. -/
theorem filesHold_or_none (files : List (String × FileText)) :
    (∃ modules, FilesHold files modules) ∨ ∃ f ∈ files, (readModule f.1 f.2).1 = none := by
  induction files with
  | nil => exact Or.inl ⟨[], .nil⟩
  | cons f files ih =>
    cases hf : (readModule f.1 f.2).1 with
    | none => exact Or.inr ⟨f, List.mem_cons_self, hf⟩
    | some m =>
      rcases ih with ⟨modules, h⟩ | ⟨g, hg, hnone⟩
      · exact Or.inl ⟨m :: modules, .cons ((readModule_some f.1 f.2 m).mp hf) h⟩
      · exact Or.inr ⟨g, List.mem_cons_of_mem f hg, hnone⟩

theorem runFiles_eq (o : Options) (files : List (String × FileText)) (r : Entropy) :
    runFiles o files r =
      Report.after (readShown files)
        (if (files.filterMap fun f => (readModule f.1 f.2).1).length = files.length then
            linkAndRun o (files.filterMap fun f => (readModule f.1 f.2).1) r
          else ⟨exitRejected, []⟩) := by
  have hshown : ((files.map fun f => readModule f.1 f.2).flatMap fun q => q.2.map Shown.event) =
      readShown files := List.flatMap_map ..
  simp only [runFiles, hshown, List.filterMap_map, List.length_map, Function.comp_def]

/-- Files that all give modules are linked, and run if they can be. -/
theorem runFiles_hold (o : Options) (files : List (String × FileText)) (r : Entropy)
    (modules : List Module) (h : FilesHold files modules) :
    runFiles o files r = (linkAndRun o modules r).after (readShown files) := by
  have hread := (filesHold_iff files modules).mp h
  have hmodules : (files.filterMap fun f => (readModule f.1 f.2).1) = modules := by
    have hmap := congrArg (List.filterMap id) hread
    rw [List.filterMap_map, List.filterMap_map] at hmap
    simpa [Function.comp_def] using hmap
  have hlength : modules.length = files.length := by
    simpa using (congrArg List.length hread).symm
  rw [runFiles_eq, hmodules, if_pos hlength]

/-- A file that gives no module rejects the session. -/
theorem runFiles_none (o : Options) (files : List (String × FileText)) (r : Entropy)
    (h : ∃ f ∈ files, (readModule f.1 f.2).1 = none) :
    runFiles o files r = Report.after (readShown files) ⟨exitRejected, []⟩ := by
  have hlength : (files.filterMap fun f => (readModule f.1 f.2).1).length < files.length := by
    rw [List.length_filterMap_lt_length_iff_exists]
    simpa using h
  rw [runFiles_eq, if_neg hlength.ne]

theorem linkAndRun_eq (o : Options) (modules : List Module) (r : Entropy) :
    linkAndRun o modules r =
      Report.after (linkShown o modules)
        (if (link modules).isRunnable then runProgram (link modules).program o.maxSteps r
          else ⟨exitRejected, []⟩) :=
  rfl

-- The engine that a session starts, with the program of its modules loaded.
def Engine.ofModules (modules : List Module) (r : Entropy) : Engine :=
  (Engine.start {} r).load (link modules).program

theorem report_exit (e : Engine) : e.report.exit = e.state.exitCode := by
  rw [Engine.report]
  split <;> simp_all [State.exitCode, exitNormal, exitFault, exitPaused]

theorem summary_executed (e : Engine) : e.summary.filterMap Shown.executed? = [] := by
  rw [Engine.summary, List.filterMap_append, List.filterMap_append]
  simp [Shown.executed?, Event.executed?]

theorem report_executed (e : Engine) : e.report.executed = [] := by
  have h := summary_executed e
  rw [Report.executed, Engine.report]
  split <;> simp [h, Shown.executed?, Event.executed?]

theorem summary_infix_report (e : Engine) : e.summary <:+: e.report.shown := by
  rw [Engine.report]
  split
  · exact List.infix_rfl
  · exact (List.prefix_append _ _).isInfix
  · exact (List.prefix_append _ _).isInfix

/-- No state of an engine has the exit code of a rejected session. -/
theorem exitCode_ne_rejected (s : State) : s.exitCode ≠ exitRejected := by
  cases s with
  | ready => decide
  | running => decide
  | halted o => cases o <;> decide

theorem isHalted_of_exitCode (s : State) (h : s.exitCode = 0 ∨ s.exitCode = 2) :
    s.isHalted = true := by
  cases s with
  | ready => exact absurd h (by decide)
  | running => exact absurd h (by decide)
  | halted o => rfl

theorem runProgram_exit (p : Program) (limit : Option Nat) (r : Entropy) :
    (runProgram p limit r).exit =
      (((Engine.start {} r).load p).runLimited limit).1.state.exitCode :=
  report_exit _

theorem summary_infix_runProgram (p : Program) (limit : Option Nat) (r : Entropy) :
    (((Engine.start {} r).load p).runLimited limit).1.summary <:+: (runProgram p limit r).shown :=
  (summary_infix_report _).trans (List.suffix_append _ _).isInfix

/-- A session executes what was pending along its run. -/
theorem runProgram_executed (p : Program) (n : Nat) (r : Entropy) :
    (runProgram p (some n) r).executed = ((Engine.start {} r).load p).pendingAlong n := by
  have hraised : (((Engine.start {} r).load p).warnings.toList.map fun d =>
      Shown.event (.warningRaised d.issue)).filterMap Shown.executed? = [] := by
    simp [Shown.executed?, Event.executed?]
  simp only [runProgram, after_executed, List.filterMap_append, events_executed, hraised,
    runLimited_executed, report_executed, List.nil_append, List.append_nil]

/-- A program that halted within its limit gives the same report under any greater limit. -/
theorem runProgram_after_halt (p : Program) (n m : Nat) (r : Entropy)
    (h : (Engine.step^[n] ((Engine.start {} r).load p)).state.isHalted = true) (hnm : n ≤ m) :
    runProgram p (some m) r = runProgram p (some n) r := by
  have hready : ((Engine.start {} r).load p).state.isHalted = false := rfl
  rw [runProgram, runProgram, runLimited_after_halt _ n m hready h hnm]

/-- Files that are rejected are not run, whatever the options are. -/
theorem runFiles_rejected (o : Options) (files : List (String × FileText)) (r : Entropy)
    (h : FilesRejected files) :
    (runFiles o files r).exit = 1 ∧ (runFiles o files r).executed = [] := by
  have hnone (hf : ∃ f ∈ files, (readModule f.1 f.2).1 = none) :
      (runFiles o files r).exit = 1 ∧ (runFiles o files r).executed = [] := by
    rw [runFiles_none o files r hf, after_executed, readShown_executed]
    exact ⟨rfl, rfl⟩
  cases h with
  | unreadable path failure h => exact hnone ⟨_, h, rfl⟩
  | misassembled path text errors h hread => exact hnone ⟨_, h, by simp [readModule, hread]⟩
  | unrunnable modules h hlink =>
    have hstop : linkAndRun o modules r = Report.after (linkShown o modules) ⟨exitRejected, []⟩ := by
      simp [linkAndRun_eq, hlink]
    rw [runFiles_hold o files r modules h, hstop, after_executed, after_executed, readShown_executed,
      linkShown_executed]
    exact ⟨rfl, rfl⟩

/-- Files that are not rejected hold modules that link. -/
theorem filesHold_of_not_rejected (files : List (String × FileText)) (h : ¬FilesRejected files) :
    ∃ modules, FilesHold files modules ∧ (link modules).isRunnable = true := by
  rcases filesHold_or_none files with ⟨modules, hmodules⟩ | ⟨⟨path, file⟩, hf, hnone⟩
  · refine ⟨modules, hmodules, ?_⟩
    by_contra hlink
    exact h (.unrunnable modules hmodules (Bool.not_eq_true _ ▸ hlink))
  · rcases readModule_none path file hnone with ⟨failure, rfl⟩ | ⟨text, errors, rfl, hread⟩
    · exact absurd (.unreadable path failure hf) h
    · exact absurd (.misassembled path text errors hf hread) h

/-- Files that link are run, behind what reading and linking show. -/
theorem runFiles_runnable (o : Options) (files : List (String × FileText)) (r : Entropy)
    (modules : List Module) (h : FilesHold files modules) (hlink : (link modules).isRunnable = true) :
    runFiles o files r =
      (runProgram (link modules).program o.maxSteps r).after
        (readShown files ++ linkShown o modules) := by
  rw [runFiles_hold o files r modules h, linkAndRun_eq, if_pos hlink]
  simp [Report.after]

/-- The exit code of a rejected session has no other cause. -/
theorem runFiles_rejected_of_exit (o : Options) (files : List (String × FileText)) (r : Entropy)
    (h : (runFiles o files r).exit = 1) : FilesRejected files := by
  by_contra hrejected
  obtain ⟨modules, hmodules, hlink⟩ := filesHold_of_not_rejected files hrejected
  rw [runFiles_runnable o files r modules hmodules hlink] at h
  exact exitCode_ne_rejected _ ((runProgram_exit _ _ _).symm.trans h)

theorem runFiles_limited (o : Options) (files : List (String × FileText)) (r : Entropy)
    (modules : List Module) (h : FilesHold files modules) (hlink : (link modules).isRunnable = true)
    (n : Nat) :
    (runFiles { o with maxSteps := some n } files r).exit =
      (Engine.step^[n] (Engine.ofModules modules r)).state.exitCode ∧
    (runFiles { o with maxSteps := some n } files r).executed =
      (Engine.ofModules modules r).pendingAlong n ∧
    (Engine.step^[n] (Engine.ofModules modules r)).summary <:+:
      (runFiles { o with maxSteps := some n } files r).shown := by
  rw [runFiles_runnable _ files r modules h hlink, ← runLimited_engine]
  refine ⟨runProgram_exit _ _ _, ?_, ?_⟩
  · rw [after_executed, List.filterMap_append, readShown_executed, linkShown_executed,
      runProgram_executed]
    rfl
  · exact (summary_infix_runProgram _ _ _).trans (List.suffix_append _ _).isInfix

/-- A session exits with 1 exactly if its files are rejected, and then nothing is executed. Otherwise a
session with a limit executes and shows what as many steps of the linked program do, and its exit code
tells the state after them; once that is a halt, a larger limit gives the same report. -/
theorem session_exit_by_stage (o : Options) (files : List (String × FileText)) (r : Entropy) :
    ((runFiles o files r).exit = 1 ↔ FilesRejected files) ∧
    (FilesRejected files → (runFiles o files r).executed = []) ∧
    (¬FilesRejected files →
      ∃ modules, FilesHold files modules ∧ (link modules).isRunnable = true ∧ ∀ n,
        (runFiles { o with maxSteps := some n } files r).exit =
          (Engine.step^[n] (Engine.ofModules modules r)).state.exitCode ∧
        (runFiles { o with maxSteps := some n } files r).executed =
          (Engine.ofModules modules r).pendingAlong n ∧
        (Engine.step^[n] (Engine.ofModules modules r)).summary <:+:
          (runFiles { o with maxSteps := some n } files r).shown) ∧
    ∀ n m, n ≤ m →
      ((runFiles { o with maxSteps := some n } files r).exit = 0 ∨
        (runFiles { o with maxSteps := some n } files r).exit = 2) →
      runFiles { o with maxSteps := some m } files r =
        runFiles { o with maxSteps := some n } files r := by
  refine ⟨⟨runFiles_rejected_of_exit o files r, fun h => (runFiles_rejected o files r h).1⟩,
    fun h => (runFiles_rejected o files r h).2, ?_, ?_⟩
  · intro hrejected
    obtain ⟨modules, h, hlink⟩ := filesHold_of_not_rejected files hrejected
    exact ⟨modules, h, hlink, runFiles_limited o files r modules h hlink⟩
  · intro n m hnm hexit
    -- The code tells that the files were run, and then that the run was over.
    have hrejected : ¬FilesRejected files := by
      intro hrejected
      have hone := (runFiles_rejected { o with maxSteps := some n } files r hrejected).1
      omega
    obtain ⟨modules, h, hlink⟩ := filesHold_of_not_rejected files hrejected
    rw [(runFiles_limited o files r modules h hlink n).1] at hexit
    have hhalt := isHalted_of_exitCode _ hexit
    rw [runFiles_runnable _ files r modules h hlink, runFiles_runnable _ files r modules h hlink,
      runProgram_after_halt _ n m r hhalt hnm]
    rfl

-- One file: a step that does nothing and one that ends the run.
def nopFiles : List (String × FileText) := [("main.s", .ok ".entry\nnop\nmov xx, [f5]\n")]

theorem nopFiles_hold :
    ∃ modules, FilesHold nopFiles modules ∧ (link modules).isRunnable = true ∧
      (Engine.step^[1] (Engine.ofModules modules (.seeded 0))).state = .running ∧
      (Engine.step^[2] (Engine.ofModules modules (.seeded 0))).state = .halted .normal := by
  refine ⟨[{
    name := "main"
    instructions :=
      [⟨.nullary .nop, [], some ⟨2, 1, 3⟩⟩,
        ⟨.binary .mov (.register .xx) (.place (.based .f5 none)), [], some ⟨3, 1, 12⟩⟩]
    literals := []
    exports := []
    imports := []
    isEntry := true }], .cons ((readModule_some _ _ _).mp (by decide +kernel)) .nil, ?_⟩
  decide +kernel

theorem nopFiles_exit_codes :
    ¬FilesRejected nopFiles ∧
    (runFiles { maxSteps := some 1 } nopFiles (.seeded 0)).exit = 3 ∧
    (runFiles { maxSteps := some 2 } nopFiles (.seeded 0)).exit = 0 ∧
    ∀ m, 2 ≤ m → runFiles { maxSteps := some m } nopFiles (.seeded 0) =
      runFiles { maxSteps := some 2 } nopFiles (.seeded 0) := by
  obtain ⟨modules, h, hlink, hrunning, hhalted⟩ := nopFiles_hold
  have hpaused := (runFiles_limited {} nopFiles (.seeded 0) modules h hlink 1).1
  have hended := (runFiles_limited {} nopFiles (.seeded 0) modules h hlink 2).1
  rw [hrunning] at hpaused
  rw [hhalted] at hended
  have hrejected : ¬FilesRejected nopFiles := by
    rw [← (session_exit_by_stage { maxSteps := some 2 } nopFiles (.seeded 0)).1, hended]
    decide
  exact ⟨hrejected, hpaused, hended, fun m hm =>
    (session_exit_by_stage {} nopFiles (.seeded 0)).2.2.2 2 m hm (Or.inl hended)⟩

end PagedMachine
