import PagedMachine.Proofs.Reproducibility
import PagedMachine.Proofs.Warnings

/-! The warnings of a run. Loading and stepping touch the memory by reads and writes alone. What these raise
waits in the memory until the engine collects it, and the engine does so behind each instruction and behind
the debug trap, so that no warning is lost, logged twice or attributed to something else. -/
namespace PagedMachine

-- The memory after a history of accesses, whatever values are read.
def Memory.accessAll (m : Memory) (xs : List Access) : Memory :=
  (m.run xs).2

-- The memory without the warnings that nobody has taken yet.
def Memory.drained (m : Memory) : Memory :=
  { m with warnings := #[] }

-- The warnings that a history deserves, each with the span of the access that raises it.
def attributedAfter (earlier : List Access) : List (Access × Option Span) → List (Diagnostic Warning)
  | [] => []
  | (x, span) :: xs => (x.warnings earlier).map (⟨·, span⟩) ++ attributedAfter (earlier ++ [x]) xs

-- The accesses by which a program is loaded: the literals that have a value, and the return slot.
def Program.loadAccesses (p : Program) (c : Config) : List Access :=
  (p.literals.filterMap fun l => (p.literalValue? l).map (.write l.width l.address)) ++
    [.write .word (c.stack + returnSlotOffset) Trap.outermostReturn.address]

def Machine.argumentReads (m : Machine) : List Access :=
  [.read .word (m.cpu.f5 + debugArgumentOffset), .read .word (m.cpu.f5 + returnSlotOffset)]

-- The instruction that the next step executes, if it executes one.
def Engine.executed? (e : Engine) : Option LoadedInstruction :=
  if e.state.isHalted || (Trap.at? e.machine.cpu.nx).isSome then none else e.next?

-- Whether the next step starts by serving the debug trap.
def Engine.atDebugTrap (e : Engine) : Bool :=
  !e.state.isHalted && e.program.isSome && e.machine.cpu.nx == Trap.debugOutput.address

-- The accesses that the next step makes, each with the span that its warnings are to be attributed to: those
-- of an instruction have the instruction's, those of the debug trap have none. An instruction makes those
-- that lead to the memory it leaves, with the warnings that wait there.
inductive Engine.StepMakes (e : Engine) : List (Access × Option Span) → Prop where
  | nothing (hi : e.executed? = none) (ht : e.atDebugTrap = false) : e.StepMakes []
  | served (ht : e.atDebugTrap = true) : e.StepMakes (e.machine.argumentReads.map (·, none))
  -- An instruction goes through without calling the debug trap, or it faults.
  | executed (p : Program) (i : LoadedInstruction) (xs : List Access) (hp : e.program = some p)
      (hi : e.executed? = some i)
      (hx : (leftBy (i.instruction.execute p) (e.staged i)).memory = e.machine.memory.accessAll xs)
      (hn : ∀ m, i.instruction.execute p (e.staged i) = .ok () m →
        m.cpu.xx ≠ Trap.debugOutput.address) :
    e.StepMakes (xs.map (·, i.span))
  -- An instruction calls the debug trap.
  | printed (p : Program) (i : LoadedInstruction) (m : Machine) (xs : List Access)
      (hp : e.program = some p) (hi : e.executed? = some i)
      (hm : i.instruction.execute p (e.staged i) = .ok () m)
      (hx : m.memory = e.machine.memory.accessAll xs) (hn : m.cpu.xx = Trap.debugOutput.address) :
    e.StepMakes (xs.map (·, i.span) ++ m.argumentReads.map (·, none))

-- The accesses of a number of steps, in order.
inductive Engine.RunMakes (e : Engine) : Nat → List (Access × Option Span) → Prop where
  | zero : e.RunMakes 0 []
  | succ (n : Nat) (history made : List (Access × Option Span)) (hn : e.RunMakes n history)
      (hm : (Engine.step^[n] e).StepMakes made) : e.RunMakes (n + 1) (history ++ made)

/-! Accesses and the warnings that wait. -/

theorem accessAll_cons (m : Memory) (x : Access) (xs : List Access) :
    m.accessAll (x :: xs) = (m.access x).accessAll xs := by
  cases x <;> rfl

theorem accessAll_append (m : Memory) (xs ys : List Access) :
    m.accessAll (xs ++ ys) = (m.accessAll xs).accessAll ys := by
  induction xs generalizing m with
  | nil => rfl
  | cons x xs ih => rw [List.cons_append, accessAll_cons, accessAll_cons, ih]

/-- Accesses one after another report what the history before each of them makes of it. -/
theorem accessAll_warnings (xs : List Access) (m : Memory) (earlier : List Access)
    (h : m.Remembers earlier) :
    (m.accessAll xs).Remembers (earlier ++ xs) ∧
      (m.accessAll xs).warnings.toList = m.warnings.toList ++ warningsAfter earlier xs := by
  induction xs generalizing m earlier with
  | nil =>
    rw [List.append_nil, warningsAfter, List.append_nil]
    exact ⟨h, rfl⟩
  | cons x xs ih =>
    obtain ⟨hlast, hwarnings⟩ := ih (m.access x) (earlier ++ [x]) (access_remembers m earlier x h)
    rw [access_warnings m earlier x h, List.append_assoc] at hwarnings
    rw [List.append_assoc] at hlast
    rw [accessAll_cons]
    exact ⟨hlast, hwarnings⟩

theorem settleAll_drained (m : Memory) (a : Address) (n : Nat) :
    m.drained.settleAll a n = ((m.settleAll a n).1, (m.settleAll a n).2.drained) := by
  have hsettle (m : Memory) (a : Address) :
      m.drained.settle a = ((m.settle a).1, (m.settle a).2.drained) := by
    have hget : m.drained.get? a = m.get? a := rfl
    simp only [Memory.settle, hget]
    split <;> rfl
  induction n generalizing m a with
  | zero => rfl
  | succ n ih => simp only [Memory.settleAll, hsettle, ih]

theorem checkAlignment_drained (m : Memory) (w : Width) (a : Address) :
    (m.drained.checkAlignment w a).drained = (m.checkAlignment w a).drained := by
  have hmarked : m.drained.misaligned = m.misaligned := rfl
  simp only [Memory.checkAlignment, hmarked]
  split_ifs <;> rfl

theorem store_drained (m : Memory) (a : Address) (bs : List Byte) :
    m.drained.store a bs = (m.store a bs).drained := by
  induction bs generalizing m a with
  | nil => rfl
  | cons b bs ih => exact ih (m.setByte a b) (a + 1)

/-- What an access does to the rest of the memory does not depend on warnings that wait. -/
theorem access_drained (m : Memory) (x : Access) : (m.drained.access x).drained = (m.access x).drained := by
  cases x with
  | read w a =>
    have hread (m : Memory) :
        (m.read w a).2.drained = ((m.checkAlignment w a).drained.settleAll a w.bytes).2 := by
      rw [settleAll_drained]
      simp only [Memory.read]
      split_ifs <;> rfl
    simp only [Memory.access, hread, checkAlignment_drained]
  | write w a v => simp only [Memory.access, Memory.write, ← store_drained, checkAlignment_drained]

/-- Draining before accesses changes nothing but what is pending. -/
theorem accessAll_drained (xs : List Access) (m : Memory) :
    (m.drained.accessAll xs).drained = (m.accessAll xs).drained := by
  induction xs generalizing m with
  | nil => rfl
  | cons x xs ih =>
    calc (m.drained.accessAll (x :: xs)).drained
        _ = ((m.drained.access x).drained.accessAll xs).drained := by rw [accessAll_cons, ih]
        _ = ((m.access x).drained.accessAll xs).drained := by rw [access_drained]
        _ = (m.accessAll (x :: xs)).drained := by rw [accessAll_cons, ih]

/-- The attributed warnings of a longer history are those of its start followed by those of the
rest. -/
theorem attributedAfter_append (history more : List (Access × Option Span)) (earlier : List Access) :
    attributedAfter earlier (history ++ more) =
      attributedAfter earlier history ++ attributedAfter (earlier ++ history.map Prod.fst) more := by
  induction history generalizing earlier with
  | nil => simp [attributedAfter]
  | cons x history ih => simp [attributedAfter, ih]

/-- Accesses of one instruction are all attributed to its span. -/
theorem attributedAfter_same (xs : List Access) (span : Option Span) (earlier : List Access) :
    attributedAfter earlier (xs.map (·, span)) = (warningsAfter earlier xs).map (⟨·, span⟩) := by
  induction xs generalizing earlier with
  | nil => rfl
  | cons x xs ih => simp [attributedAfter, warningsAfter, ih]

theorem attributedAfter_issues (history : List (Access × Option Span)) (earlier : List Access) :
    (attributedAfter earlier history).map Diagnostic.issue =
      warningsAfter earlier (history.map Prod.fst) := by
  induction history generalizing earlier with
  | nil => rfl
  | cons x history ih => simp [attributedAfter, warningsAfter, ih, Function.comp_def]

/-! Instructions. -/

-- An action touches the memory by accesses alone, whether it goes through or faults.
def AccessesOnly {α : Type} (x : Exec α) : Prop :=
  ∀ m, ∃ xs, (leftBy x m).memory = m.memory.accessAll xs

/-- An action that leaves the memory alone. -/
theorem accessesOnly_none {α : Type} (x : Exec α) (h : ∀ m, (leftBy x m).memory = m.memory) :
    AccessesOnly x :=
  fun m => ⟨[], h m⟩

theorem accessesOnly_bind {α β : Type} (x : Exec α) (f : α → Exec β) (hx : AccessesOnly x)
    (hf : ∀ a, AccessesOnly (f a)) : AccessesOnly (x >>= f) := by
  intro m
  obtain ⟨xs, hxs⟩ := hx m
  cases he : x m with
  | error g m' =>
    simp only [leftBy, he] at hxs
    exact ⟨xs, by simp only [leftBy, exec_bind_error x f m m' g he, hxs]⟩
  | ok a m' =>
    obtain ⟨ys, hys⟩ := hf a m'
    simp only [leftBy, he] at hxs
    refine ⟨xs ++ ys, ?_⟩
    rw [accessAll_append, ← hxs, ← hys]
    simp only [leftBy, exec_bind_ok x f m m' a he]

theorem find_accessesOnly (p : Program) (x : Place) : AccessesOnly (x.find p) := by
  apply accessesOnly_none
  intro m
  simp only [leftBy, Place.find]
  cases x.locate p m <;> rfl

theorem location_read_accessesOnly (k : Location) : AccessesOnly k.read := by
  intro m
  cases k with
  | register r => exact ⟨[], rfl⟩
  | memory a => exact ⟨[.read .word a], rfl⟩

theorem location_write_accessesOnly (w : Word) (k : Location) : AccessesOnly (k.write w) := by
  intro m
  cases k with
  | register r => exact ⟨[], rfl⟩
  | memory a => exact ⟨[.write .word a w], rfl⟩

theorem operand_read_accessesOnly (p : Program) (o : Operand) : AccessesOnly (o.read p) := by
  cases o with
  | immediate w => exact accessesOnly_none _ fun m => rfl
  | address l =>
    apply accessesOnly_none
    intro m
    simp only [leftBy, Operand.read]
    cases p.lookUp m l <;> rfl
  | place x => exact accessesOnly_bind _ _ (find_accessesOnly p x) location_read_accessesOnly

theorem ifFlag_accessesOnly (x : Exec Unit) (hx : AccessesOnly x) :
    AccessesOnly (do if (← get).cpu.flag then x) := by
  intro m
  cases hf : m.cpu.flag with
  | true =>
    obtain ⟨xs, hxs⟩ := hx m
    exact ⟨xs, by simpa only [leftBy, ifFlag_set x m hf] using hxs⟩
  | false => exact ⟨[], by simp only [leftBy, ifFlag_clear x m hf]; rfl⟩

/-- An instruction reaches memory by accesses alone. -/
theorem execute_accessesOnly (p : Program) (i : Instruction) : AccessesOnly (i.execute p) := by
  cases hw : i.isWellFormed with
  | true =>
    apply execute_of_parts AccessesOnly p i hw
    exact
      { pure := accessesOnly_none _ fun m => rfl
        bind := accessesOnly_bind
        read := fun o _ => operand_read_accessesOnly p o
        write := fun x w _ =>
          accessesOnly_bind _ _ (find_accessesOnly p x) (location_write_accessesOnly w)
        ifFlag := ifFlag_accessesOnly
        setFlag := fun b => accessesOnly_none _ fun m => rfl }
  | false =>
    apply accessesOnly_none
    intro m
    simp only [leftBy, execute_malformed p i m hw]

/-! Engines. -/

-- The memory of an engine is what a history makes of an empty one, all of the warnings have been taken, and
-- the log has those that the history deserves.
structure Engine.Accounted (e : Engine) (r : Entropy) (history : List (Access × Option Span)) : Prop where
  memory : e.machine.memory = ((Memory.empty r).accessAll (history.map Prod.fst)).drained
  log : e.warnings.toList = attributedAfter [] history

/-- An engine stays accounted for when further accesses are made and what they raise is collected. -/
theorem accounted_collect (e e' : Engine) (r : Entropy) (history : List (Access × Option Span))
    (xs : List Access) (span : Option Span) (h : e.Accounted r history)
    (hm : e'.machine.memory = e.machine.memory.accessAll xs) (hw : e'.warnings = e.warnings) :
    (e'.collectWarnings span).Accounted r (history ++ xs.map (·, span)) := by
  have hfst : (history ++ xs.map (·, span)).map Prod.fst = history.map Prod.fst ++ xs := by
    simp [Function.comp_def]
  obtain ⟨hlast, -⟩ := accessAll_warnings (history.map Prod.fst) _ [] (remembers_empty r)
  obtain ⟨-, hraised⟩ := accessAll_warnings xs e.machine.memory (history.map Prod.fst)
    (h.memory ▸ ⟨hlast.stored, hlast.misaligned⟩)
  -- What waits is due to the new accesses alone, for everything before them was taken.
  have hpending : e.machine.memory.warnings = #[] := by
    rw [h.memory]
    rfl
  rw [hpending, List.nil_append] at hraised
  constructor
  · have hdrained : (e'.collectWarnings span).machine.memory = e'.machine.memory.drained := rfl
    rw [hdrained, hm, hfst, h.memory, accessAll_drained, accessAll_append]
  · have hlog : (e'.collectWarnings span).warnings.toList =
        e'.warnings.toList ++ e'.machine.memory.warnings.toList.map (⟨·, span⟩) := by
      simp [Engine.collectWarnings, Memory.takeWarnings]
    rw [hlog, hw, h.log, hm, hraised, attributedAfter_append, attributedAfter_same, List.nil_append]

theorem returnOutermost_accounted (e : Engine) (r : Entropy) (history : List (Access × Option Span))
    (span : Option Span) (h : e.Accounted r history) : (e.returnOutermost span).Accounted r history := by
  simp only [Engine.returnOutermost]
  split_ifs <;> exact ⟨h.memory, h.log⟩

/-- The debug trap makes its two reads and attributes what they raise to nothing; what it may go on to makes
no access. -/
theorem debugTrap_accounted (e : Engine) (r : Entropy) (history : List (Access × Option Span))
    (span : Option Span) (h : e.Accounted r history) :
    (e.enterTrap .debugOutput span).Accounted r (history ++ e.machine.argumentReads.map (·, none)) := by
  have hprint : e.printArgument.Accounted r (history ++ e.machine.argumentReads.map (·, none)) :=
    accounted_collect e _ r history e.machine.argumentReads none h rfl rfl
  simp only [Engine.enterTrap]
  split_ifs
  · exact returnOutermost_accounted _ r _ span hprint
  · exact hprint

theorem executed_of_fetched (e : Engine) (p : Program) (i : LoadedInstruction)
    (hh : e.state.isHalted = false) (hp : e.program = some p)
    (ht : Trap.at? e.machine.cpu.nx = none) (hi : p.fetch? e.machine.cpu.nx = some i) :
    e.executed? = some i := by
  simp [Engine.executed?, hh, ht, Engine.next?, hp, hi]

/-- The accesses of an instruction, for which the engine accounts by collecting what they raise. -/
theorem execute_accounted (e : Engine) (p : Program) (i : LoadedInstruction) (r : Entropy)
    (history : List (Access × Option Span)) (h : e.Accounted r history) :
    ∃ xs, (leftBy (i.instruction.execute p) (e.staged i)).memory = e.machine.memory.accessAll xs ∧
      ∀ e' : Engine, e'.machine.memory = (leftBy (i.instruction.execute p) (e.staged i)).memory →
        e'.warnings = e.warnings →
        (e'.collectWarnings i.span).Accounted r (history ++ xs.map (·, i.span)) := by
  obtain ⟨xs, hxs⟩ := execute_accessesOnly p i.instruction (e.staged i)
  exact ⟨xs, hxs, fun e' hm hw => accounted_collect e e' r history xs i.span h (hm.trans hxs) hw⟩

/-- A step makes accesses that are to be attributed in some way, and accounts for them in that way. -/
theorem stepped_accounted (e e' : Engine) (r : Entropy) (history : List (Access × Option Span))
    (hs : Stepped e e') (h : e.Accounted r history) :
    ∃ made, e.StepMakes made ∧ e'.Accounted r (history ++ made) := by
  have hcounted : e.counted.Accounted r history := ⟨h.memory, h.log⟩
  have hnothing (e' : Engine) (ha : e'.Accounted r history) (hi : e.executed? = none)
      (ht : e.atDebugTrap = false) : ∃ made, e.StepMakes made ∧ e'.Accounted r (history ++ made) :=
    ⟨[], .nothing hi ht, by rwa [List.append_nil]⟩
  cases hs with
  | finished hh => exact hnothing e h (by simp [Engine.executed?, hh]) (by simp [Engine.atDebugTrap, hh])
  | unloaded hh hp =>
    exact hnothing _ ⟨h.memory, h.log⟩ (by simp [Engine.executed?, Engine.next?, hp])
      (by simp [Engine.atDebugTrap, hp])
  | trapped p t hh hp ht =>
    have hn := (trap_at_iff _ t).mp ht
    cases t with
    | outermostReturn =>
      -- The end of the run touches no memory.
      have hne : Trap.outermostReturn.address ≠ Trap.debugOutput.address := by decide
      exact hnothing _ (returnOutermost_accounted _ r history none hcounted)
        (by simp [Engine.executed?, ht]) (by simp [Engine.atDebugTrap, hn, hne])
    | debugOutput =>
      exact ⟨_, .served (by simp [Engine.atDebugTrap, hh, hp, hn]),
        debugTrap_accounted _ r history none hcounted⟩
  | unmapped p hh hp ht hi =>
    refine hnothing _ ⟨h.memory, h.log⟩ (by simp [Engine.executed?, Engine.next?, hp, hi]) ?_
    simp [Engine.atDebugTrap, trap_at_none _ ht .debugOutput]
  | faulted p i f m hh hp ht hi hx =>
    obtain ⟨xs, hxs, hcollect⟩ := execute_accounted e p i r history h
    have hm : m.memory = (leftBy (i.instruction.execute p) (e.staged i)).memory := by
      simp only [leftBy, hx]
    -- What was accessed before the fault is collected before the fault is recorded.
    have ha := hcollect { e.counted with machine := m } hm rfl
    exact ⟨_, .executed p i xs hp (executed_of_fetched e p i hh hp ht hi) hxs (by simp [hx]),
      ha.memory, ha.log⟩
  | moved p i m hh hp ht hi hx hn =>
    obtain ⟨xs, hxs, hcollect⟩ := execute_accounted e p i r history h
    have hm : m.memory = (leftBy (i.instruction.execute p) (e.staged i)).memory := by
      simp only [leftBy, hx]
    refine ⟨_, .executed p i xs hp (executed_of_fetched e p i hh hp ht hi) hxs ?_, hcollect _ hm rfl⟩
    intro m' hx'
    cases hx.symm.trans hx'
    exact trap_at_none _ hn .debugOutput
  | called p i m t hh hp ht hi hx hn =>
    obtain ⟨xs, hxs, hcollect⟩ := execute_accounted e p i r history h
    have hm : m.memory = (leftBy (i.instruction.execute p) (e.staged i)).memory := by
      simp only [leftBy, hx]
    have hcontinued : (e.counted.continued m i.span).Accounted r (history ++ xs.map (·, i.span)) :=
      hcollect _ hm rfl
    have hexecuted := executed_of_fetched e p i hh hp ht hi
    have hxx := (trap_at_iff _ t).mp hn
    cases t with
    | outermostReturn =>
      refine ⟨_, .executed p i xs hp hexecuted hxs ?_, returnOutermost_accounted _ r _ i.span hcontinued⟩
      intro m' hx'
      cases hx.symm.trans hx'
      rw [hxx]
      decide
    | debugOutput =>
      -- The engine collects twice: with the span behind the instruction, without one behind the trap.
      refine ⟨_, .printed p i m xs hp hexecuted hx (hm.trans hxs) hxx, ?_⟩
      rw [← List.append_assoc]
      exact debugTrap_accounted _ r _ i.span hcontinued

/-- Writing literals is writing their values one after another. -/
theorem writeLiterals_accesses (p : Program) (ls : List PlacedLiteral) (m : Memory) :
    ls.foldl p.writeLiteral m =
      m.accessAll (ls.filterMap fun l => (p.literalValue? l).map (.write l.width l.address)) := by
  induction ls generalizing m with
  | nil => rfl
  | cons l ls ih =>
    rw [List.foldl_cons, ih, Program.writeLiteral]
    cases hv : p.literalValue? l with
    | none => simp [hv]
    | some v => simp [hv, accessAll_cons, Memory.access]

/-- After loading, the log accounts for the literals and the return slot, attributed to no line. -/
theorem load_accounted (e : Engine) (p : Program) :
    (e.load p).Accounted e.machine.memory.entropy ((p.loadAccesses e.config).map (·, none)) := by
  have hstart : (Engine.start e.config e.machine.memory.entropy).Accounted e.machine.memory.entropy [] :=
    ⟨rfl, rfl⟩
  refine accounted_collect _ _ _ [] (p.loadAccesses e.config) none hstart ?_ rfl
  rw [Program.loadAccesses, accessAll_append, ← writeLiterals_accesses]
  rfl

/-- By induction on the steps: the log of a run accounts for the accesses of the run, each with
its span. -/
theorem run_accounted (e : Engine) (r : Entropy) (loaded : List (Access × Option Span))
    (h : e.Accounted r loaded) (n : Nat) :
    ∃ history, e.RunMakes n history ∧ (Engine.step^[n] e).Accounted r (loaded ++ history) := by
  induction n with
  | zero => exact ⟨[], .zero, by rwa [List.append_nil]⟩
  | succ n ih =>
    obtain ⟨history, hmakes, ha⟩ := ih
    obtain ⟨made, hmade, ha'⟩ := stepped_accounted _ _ r (loaded ++ history) (step_stepped _) ha
    refine ⟨history ++ made, .succ n history made hmakes hmade, ?_⟩
    rwa [Function.iterate_succ_apply', ← List.append_assoc]

/-- However many steps a loaded program has taken, no warning waits in the memory. The log has, in order and
once each, the warnings that a memory which nobody takes any from raises under the accesses since the load:
those of an instruction with its span, those of the load and of the debug trap with none. -/
theorem run_warnings_attributed (e : Engine) (p : Program) (n : Nat) :
    (Engine.step^[n] (e.load p)).machine.memory.warnings = #[] ∧
      ∃ history, (e.load p).RunMakes n history ∧
        (Engine.step^[n] (e.load p)).machine.memory =
          ((Memory.empty e.machine.memory.entropy).accessAll
            (p.loadAccesses e.config ++ history.map Prod.fst)).drained ∧
        (Engine.step^[n] (e.load p)).warnings.toList.map Diagnostic.issue =
          ((Memory.empty e.machine.memory.entropy).accessAll
            (p.loadAccesses e.config ++ history.map Prod.fst)).warnings.toList ∧
        (Engine.step^[n] (e.load p)).warnings.toList =
          attributedAfter [] ((p.loadAccesses e.config).map (·, none) ++ history) := by
  obtain ⟨history, hmakes, ha⟩ := run_accounted _ _ _ (load_accounted e p) n
  have hmemory := ha.memory
  have hfst : ((p.loadAccesses e.config).map (fun x => (x, (none : Option Span))) ++
      history).map Prod.fst = p.loadAccesses e.config ++ history.map Prod.fst := by
    simp [Function.comp_def]
  rw [hfst] at hmemory
  refine ⟨by rw [hmemory]; rfl, history, hmakes, hmemory, ?_, ha.log⟩
  rw [ha.log, attributedAfter_issues, hfst]
  exact (accessAll_warnings _ _ [] (remembers_empty _)).2.symm

end PagedMachine
