import Mathlib.Logic.Function.Iterate
import PagedMachine.Display.Engine
import PagedMachine.Proofs.InitialMemory
import PagedMachine.Proofs.Reading

/-! The calling convention. A call exchanges its target for the address behind it, which is staged in `xx`,
and leaves that address in the slot that the stack pointer is at. A return moves it back. The slot may be
anywhere in memory, also unaligned or around the end of it. -/
namespace PagedMachine

-- The target goes to `xx`, and what is staged there to the return slot.
def Instruction.call (target : Operand) : Instruction :=
  .ternary .xchg target (.register .xx) (.based .f5 none)

-- Execution goes on at the address in the return slot.
def Instruction.ret : Instruction :=
  .binary .mov (.register .xx) (.place (.based .f5 none))

-- A run of a program that is not over and has an instruction to execute next.
structure Engine.About (e : Engine) (p : Program) (x : Instruction) : Prop where
  going : e.state.isHalted = false
  program : e.program = some p
  next : e.next?.map (·.instruction) = some x

/-- An instruction on a page is followed by the next address, which is no trap. -/
theorem link_fetch_successor (modules : List Module) (a : Address) (i : LoadedInstruction)
    (ht : Trap.at? a = none) (h : (link modules).program.fetch? a = some i) :
    i.successor = a + 4 ∧ Trap.at? (a + 4) = none := by
  rcases (link_fetch modules a i).mp h with ⟨t, rfl, -⟩ | ⟨page, hpage, hi, rfl⟩
  · exact absurd rfl (trap_at_none _ ht t)
  obtain ⟨id, m, hid, -, rfl⟩ := (mem_link_pages modules page).mp hpage
  obtain ⟨n, hn⟩ := Array.mem_iff_getElem?.mp hi
  rw [layOut_getElem] at hn
  obtain ⟨k, hk, rfl⟩ := Option.map_eq_some_iff.mp hn
  have hlt : n < instructionCapacity := by
    obtain ⟨hlen, -⟩ := List.getElem?_eq_some_iff.mp hk
    exact Nat.lt_of_lt_of_le hlen (List.length_take_le _ _)
  have hoffset : n * instructionSize + 4 ≤ pageSize := by
    simp only [instructionCapacity, instructionSize, pageSize] at hlt ⊢
    omega
  have hend := page_end_le id hid
  have haddress := toNat_pageBase_add id (n * instructionSize) hid (by omega)
  refine ⟨rfl, ?_⟩
  -- The page and the address behind it are below the stack, and the traps above.
  rw [Option.eq_none_iff_forall_ne_some]
  intro t hat
  have htrap := congrArg BitVec.toNat ((trap_at_iff _ t).mp hat)
  have hbelow : initialStack.toNat = 0x7fffff00 := by decide
  rw [BitVec.toNat_add, haddress] at htrap
  cases t <;> simp [Trap.address] at htrap <;> omega

/-- What a run of a linked program is about to execute stands on a page, unless it is a trap. -/
theorem about_linked (modules : List Module) (e : Engine) (x : Instruction)
    (h : e.About (link modules).program x) (hw : x.isWellFormed = true) :
    ∃ i, (link modules).program.fetch? e.machine.cpu.nx = some i ∧ i.instruction = x ∧
      i.successor = e.machine.cpu.nx + 4 ∧ Trap.at? e.machine.cpu.nx = none ∧
      Trap.at? (e.machine.cpu.nx + 4) = none := by
  obtain ⟨i, hi, rfl⟩ := Option.map_eq_some_iff.mp h.next
  rw [Engine.next?, h.program, Option.bind_some] at hi
  have ht : Trap.at? e.machine.cpu.nx = none := by
    cases ht : Trap.at? e.machine.cpu.nx with
    | none => rfl
    | some t =>
      simp only [Program.fetch?, ht, Option.some.injEq] at hi
      rw [← hi] at hw
      contradiction
  obtain ⟨hsuccessor, hnext⟩ := link_fetch_successor modules _ i ht hi
  exact ⟨i, hi, rfl, hsuccessor, ht, hnext⟩

/-! Frames around the end of a step. -/

theorem framed_jump (m m' : Machine) (a : Address) (written touched : List Location)
    (h : m.Framed m' written touched) : (m.jump a).Framed (m'.jump a) written touched where
  nx := rfl
  flag := h.flag
  registers := by
    intro r hr
    have hget := h.registers r hr
    cases r <;> exact hget
  kept := h.kept
  fresh := h.fresh

theorem framed_collectWarnings (m : Machine) (e : Engine) (span : Option Span)
    (written touched : List Location) (h : m.Framed e.machine written touched) :
    m.Framed (e.collectWarnings span).machine written touched :=
  ⟨h.nx, h.flag, h.registers, h.kept, h.fresh⟩

theorem framed_continued (m m' : Machine) (e : Engine) (span : Option Span)
    (written touched : List Location) (h : m.Framed m' written touched) :
    (m.jump m'.cpu.xx).Framed (e.continued m' span).machine written touched :=
  framed_collectWarnings _ _ span _ _ (framed_jump m m' _ _ _ h)

theorem memory_apart_register (a : Address) (r : Register) :
    (Location.memory a).Apart (.register r) :=
  ⟨Location.noConfusion, fun _ _ h => h⟩

theorem next_word_apart (a : Address) : (Location.memory (a + 4)).Apart (.memory a) := by
  refine ⟨?_, ?_⟩
  · intro h
    have ha : a + 4 = a := Location.memory.inj h
    bv_omega
  · intro b hb hb'
    simp only [Location.Covers, Width.Covers, Width.bytes] at hb hb'
    bv_omega

/-! Calls and returns. -/

theorem locate_slot (p : Program) (m : Machine) :
    (Place.based .f5 none).locate p m = .ok (.memory m.cpu.f5) := by
  have hslot : m.cpu.f5 + (none : Option Word).getD 0 = m.cpu.f5 := BitVec.add_zero _
  simp only [Place.locate, Cpu.get, hslot]

/-- A call reads its target before it writes, so the target may itself be found through `xx` or in the
slot. -/
theorem call_executes (p : Program) (m m₁ : Machine) (target : Operand) (t : Word)
    (h : target.read p m = .ok t m₁) :
    ∃ m' touched, (Instruction.call target).execute p m = .ok () m' ∧ m'.cpu.xx = t ∧
      (Location.memory m.cpu.f5).Holds m' m.cpu.xx ∧
      m.Framed m' [.register .xx, .memory m.cpu.f5] touched := by
  obtain ⟨hframed, -⟩ := operand_read p m m₁ target t h
  -- The read leaves the registers alone, so what was staged is still in `xx` to be exchanged.
  have hcpu := framed_cpu m m₁ _ hframed
  let m₂ := m₁.put (.register .xx) t
  have hstaged : (Place.register .xx).read p m₁ = .ok m.cpu.xx m₁ := by
    rw [← hcpu]
    rfl
  have hslot : (Place.based .f5 none).locate p m₂ = .ok (.memory m.cpu.f5) := by
    rw [← hcpu]
    exact locate_slot p m₂
  refine ⟨m₂.put (.memory m.cpu.f5) m.cpu.xx, _, ?_, rfl, put_holds _ _ _,
    framed_trans m m₁ _ [] _ _ _ hframed
      (framed_trans m₁ m₂ _ _ _ _ _ (put_framed m₁ _ t) (put_framed m₂ _ _))⟩
  rw [execute_wellFormed p _ m rfl, Instruction.call,
    perform_ternary p .xchg target _ _ m m₁ m₁ t _ t _ h hstaged rfl,
    exec_bind_ok _ _ m₁ m₂ () (place_write_located p m₁ _ t _ rfl)]
  exact place_write_located p m₂ _ _ _ hslot

theorem ret_executes (p : Program) (m : Machine) (w : Word)
    (h : (Location.memory m.cpu.f5).Holds m w) :
    ∃ m' touched, Instruction.ret.execute p m = .ok () m' ∧ m'.cpu.xx = w ∧
      m.Framed m' [.register .xx] touched := by
  obtain ⟨m₁, hread, hframed⟩ := location_read_of_holds m _ w h
  rw [← place_read_located p m _ _ (locate_slot p m)] at hread
  refine ⟨m₁.put (.register .xx) w, _, ?_, rfl,
    framed_trans m m₁ _ [] _ _ _ hframed (put_framed m₁ _ w)⟩
  rw [execute_wellFormed p _ m rfl]
  exact (exec_bind_ok _ _ m m₁ w hread).trans (place_write_located p m₁ _ w _ rfl)

/-- A step whose instruction goes through. It stages the next address in `xx`, so besides what the
instruction writes it writes `xx`; then it goes on where `xx` points, or serves the trap there. -/
theorem step_through (modules : List Module) (e : Engine) (x : Instruction) (m : Machine)
    (written touched : List Location) (h : e.About (link modules).program x)
    (hx : x.execute (link modules).program (e.machine.setRegister .xx (e.machine.cpu.nx + 4)) = .ok () m)
    (hf : (e.machine.setRegister .xx (e.machine.cpu.nx + 4)).Framed m written touched)
    (hxx : .register .xx ∈ written) :
    Trap.at? (e.machine.cpu.nx + 4) = none ∧
    (∃ touched', e.machine.Framed m written touched') ∧
    ∃ span, (Trap.at? m.cpu.xx = none → e.step = e.counted.continued m span) ∧
      ∀ t, Trap.at? m.cpu.xx = some t → e.step = (e.counted.continued m span).enterTrap t span := by
  obtain ⟨i, hi, rfl, hsuccessor, ht, hnext⟩ := about_linked modules e x h (execute_ok _ _ _ m hx).1
  have hstaged := put_framed e.machine (.register .xx) (e.machine.cpu.nx + 4)
  have hall := framed_trans _ _ m _ _ _ _ hstaged hf
  have hsub : [.register .xx] ++ written ⊆ written := List.cons_subset.mpr ⟨hxx, List.Subset.refl _⟩
  rw [← hsuccessor] at hx
  refine ⟨hnext, ⟨_, framed_mono _ _ _ _ _ _ hall hsub (List.Subset.refl _)⟩, i.span, ?_, ?_⟩
  · intro hn
    exact step_of_stepped e _ (.moved _ i m h.going h.program ht hi hx hn)
  · intro t hn
    exact step_of_stepped e _ (.called _ i m t h.going h.program ht hi hx hn)

/-- The debug trap reads the word above the slot and the slot, and goes to what is in the slot. -/
theorem printArgument_reads (e : Engine) (back : Word)
    (h : (Location.memory e.machine.cpu.f5).Holds e.machine back) :
    ∃ w m touched, e.machine.Framed m [] touched ∧
      (Location.memory (e.machine.cpu.f5 + 4)).Holds m w ∧
      e.printArgument =
        { e with machine := m.jump back, output := e.output.push w }.collectWarnings none := by
  have hslot : e.machine.cpu.f5 + returnSlotOffset = e.machine.cpu.f5 := BitVec.add_zero _
  have habove : e.machine.cpu.f5 + debugArgumentOffset = e.machine.cpu.f5 + 4 := rfl
  have hfirst := memory_read_framed e.machine (e.machine.cpu.f5 + 4)
  have hargument := memory_read_holds e.machine (e.machine.cpu.f5 + 4)
  -- The results of the reads are named, so that nothing looks into the reads again.
  generalize hread : e.machine.memory.read .word (e.machine.cpu.f5 + 4) = r at hfirst hargument
  obtain ⟨w, memory₁⟩ := r
  let m₁ : Machine := { e.machine with memory := memory₁ }
  have hsecond := memory_read_framed m₁ e.machine.cpu.f5
  have hback := memory_read_of_holds m₁ _ back (holds_framed _ m₁ _ _ [] _ hfirst (by simp) h)
  generalize hread' : memory₁.read .word e.machine.cpu.f5 = r at hsecond hback
  obtain ⟨back', memory₂⟩ := r
  cases hback
  refine ⟨w, { e.machine with memory := memory₂ }, _, framed_trans _ m₁ _ [] [] _ _ hfirst hsecond,
    holds_framed m₁ _ _ _ [] _ hsecond (by simp) hargument, ?_⟩
  simp only [Engine.printArgument, hslot, habove, hread, hread']

/-- Unless it is a trap, the address in the slot is where the debug trap comes back to. -/
theorem debugOutput_prints (e : Engine) (span : Option Span) (back : Word)
    (h : (Location.memory e.machine.cpu.f5).Holds e.machine back) (hn : Trap.at? back = none) :
    ∃ w touched, (e.enterTrap .debugOutput span).state = e.state ∧
      (e.enterTrap .debugOutput span).output = e.output.push w ∧
      (Location.memory (e.machine.cpu.f5 + 4)).Holds (e.enterTrap .debugOutput span).machine w ∧
      (e.machine.jump back).Framed (e.enterTrap .debugOutput span).machine [] touched := by
  obtain ⟨w, m, touched, hreads, hargument, hprint⟩ := printArgument_reads e back h
  have hne : e.printArgument.machine.cpu.nx ≠ Trap.outermostReturn.address := by
    rw [hprint]
    exact trap_at_none back hn .outermostReturn
  have htrap : e.enterTrap .debugOutput span = e.printArgument := by
    simp only [Engine.enterTrap]
    rw [if_neg hne]
  have hback := framed_jump e.machine m back _ _ hreads
  rw [htrap, hprint]
  exact ⟨w, touched, rfl, rfl, hargument, framed_collectWarnings _ _ none _ _ hback⟩

section linked

variable (modules : List Module) (e : Engine)

/-- A call stores the successor in the return slot and goes on at its target. -/
theorem step_call (target : Operand) (t : Word) (m₁ : Machine)
    (h : e.About (link modules).program (.call target))
    (hr : target.read (link modules).program (e.machine.setRegister .xx (e.machine.cpu.nx + 4)) =
      .ok t m₁) :
    ∃ m touched span, m.cpu.xx = t ∧
      (Location.memory e.machine.cpu.f5).Holds m (e.machine.cpu.nx + 4) ∧
      e.machine.Framed m [.register .xx, .memory e.machine.cpu.f5] touched ∧
      Trap.at? (e.machine.cpu.nx + 4) = none ∧
      (Trap.at? t = none → e.step = e.counted.continued m span) ∧
      ∀ s, Trap.at? t = some s → e.step = (e.counted.continued m span).enterTrap s span := by
  obtain ⟨m, touched, hx, rfl, hslot, hframed⟩ := call_executes _ _ m₁ target t hr
  obtain ⟨hnext, ⟨touched', hall⟩, span, hstep⟩ :=
    step_through modules e _ m _ touched h hx hframed List.mem_cons_self
  exact ⟨m, touched', span, rfl, hslot, hall, hnext, hstep⟩

/-- A return goes on at the word in the return slot. -/
theorem step_ret (w : Word) (h : e.About (link modules).program .ret)
    (hslot : (Location.memory e.machine.cpu.f5).Holds e.machine w) :
    ∃ m touched span, m.cpu.xx = w ∧ e.machine.Framed m [.register .xx] touched ∧
      (Trap.at? w = none → e.step = e.counted.continued m span) ∧
      ∀ s, Trap.at? w = some s → e.step = (e.counted.continued m span).enterTrap s span := by
  obtain ⟨m, touched, hx, rfl, hframed⟩ := ret_executes (link modules).program
    (e.machine.setRegister .xx (e.machine.cpu.nx + 4)) w hslot
  obtain ⟨-, ⟨touched', hall⟩, span, hstep⟩ :=
    step_through modules e _ m _ touched h hx hframed List.mem_cons_self
  exact ⟨m, touched', span, rfl, hall, hstep⟩

theorem call_goes (target : Operand) (t : Word) (m₁ : Machine)
    (h : e.About (link modules).program (.call target))
    (hr : target.read (link modules).program (e.machine.setRegister .xx (e.machine.cpu.nx + 4)) =
      .ok t m₁) (ht : Trap.at? t = none) :
    ∃ touched, e.step.state = .running ∧
      (Location.memory e.machine.cpu.f5).Holds e.step.machine (e.machine.cpu.nx + 4) ∧
      (e.machine.jump t).Framed e.step.machine [.register .xx, .memory e.machine.cpu.f5] touched := by
  obtain ⟨m, touched, span, rfl, hslot, hframed, -, hgo, -⟩ := step_call modules e target t m₁ h hr
  rw [hgo ht]
  exact ⟨touched, rfl, hslot, framed_continued e.machine m e.counted span _ _ hframed⟩

theorem ret_goes (back : Word) (h : e.About (link modules).program .ret)
    (hslot : (Location.memory e.machine.cpu.f5).Holds e.machine back) (hn : Trap.at? back = none) :
    e.step.state = .running ∧ e.step.machine.cpu.nx = back := by
  obtain ⟨m, -, span, hxx, -, hgo, -⟩ := step_ret modules e back h hslot
  rw [hgo hn]
  exact ⟨rfl, hxx⟩

/-- A call of the debug trap comes back in the same step, to the address that it left in the slot. -/
theorem call_prints (target : Operand) (m₁ : Machine)
    (h : e.About (link modules).program (.call target))
    (hr : target.read (link modules).program (e.machine.setRegister .xx (e.machine.cpu.nx + 4)) =
      .ok Trap.debugOutput.address m₁) :
    ∃ w touched, e.step.state = .running ∧ e.step.output = e.output.push w ∧
      (Location.memory (e.machine.cpu.f5 + 4)).Holds e.step.machine w ∧
      (e.machine.jump (e.machine.cpu.nx + 4)).Framed e.step.machine
        [.register .xx, .memory e.machine.cpu.f5] touched := by
  obtain ⟨m, touched, span, -, hslot, hframed, hnext, -, htrap⟩ := step_call modules e target _ m₁ h hr
  have hf5 : m.cpu.f5 = e.machine.cpu.f5 := hframed.registers .f5 (by simp)
  have hslot' : (Location.memory (e.counted.continued m span).machine.cpu.f5).Holds
      (e.counted.continued m span).machine (e.machine.cpu.nx + 4) := by
    change (Location.memory m.cpu.f5).Holds m _
    rw [hf5]
    exact hslot
  obtain ⟨w, touched', hstate, houtput, hargument, hreads⟩ :=
    debugOutput_prints _ span _ hslot' hnext
  -- The jump to the trap is undone by the jump back.
  have hcalled := framed_jump _ _ (e.machine.cpu.nx + 4) _ _
    (framed_continued e.machine m e.counted span _ _ hframed)
  rw [← htrap .debugOutput (by decide)] at hstate houtput hargument hreads
  refine ⟨w, _, hstate, houtput, ?_, framed_trans _ _ _ _ [] _ _ hcalled hreads⟩
  rw [← hf5]
  exact hargument

theorem ret_halts (h : e.About (link modules).program .ret)
    (hf5 : e.machine.cpu.f5 = e.config.stack)
    (hslot : (Location.memory e.machine.cpu.f5).Holds e.machine Trap.outermostReturn.address) :
    e.step.state = .halted .normal := by
  obtain ⟨m, touched, span, -, hframed, -, htrap⟩ := step_ret modules e _ h hslot
  have hbalanced : m.cpu.f5 = e.config.stack := (hframed.registers .f5 (by simp)).trans hf5
  have hreturn : (e.counted.continued m span).returnOutermost span =
      { e.counted.continued m span with state := .halted .normal } := if_pos hbalanced
  rw [htrap .outermostReturn (by decide), Engine.enterTrap, hreturn]

end linked

/-- A loaded engine has the outermost return in its first return slot. -/
theorem load_slot (e : Engine) (p : Program) :
    (Location.memory e.config.stack).Holds (e.load p).machine Trap.outermostReturn.address := by
  have hwritten := put_holds
    ⟨e.machine.cpu, p.writeLiterals (Memory.empty e.machine.memory.entropy)⟩
    (.memory e.config.stack) Trap.outermostReturn.address
  intro i hi
  rw [(load_memory e p).1]
  exact hwritten i hi

/-- The calling convention of linked programs, at every stack address. A call of a target that is no trap
goes there and leaves the address behind it in the slot; a return that finds it there, with the stack
pointer where it was, comes back to it. A call of the debug trap prints the word above the slot and has
come back when the step is over. Neither touches anything but `xx` and the slot. And loading leaves the
outermost return address in the first slot, from where a return ends the run. -/
theorem calling_convention (modules : List Module) :
    let p := (link modules).program
    (∀ (e : Engine) (target : Operand) (t : Address) (m : Machine), e.About p (.call target) →
      target.read p (e.machine.setRegister .xx (e.machine.cpu.nx + 4)) = .ok t m →
      let back := e.machine.cpu.nx + 4
      let slot := Location.memory e.machine.cpu.f5
      (Trap.at? t = none →
        e.step.state = .running ∧ e.step.machine.cpu.nx = t ∧ slot.Holds e.step.machine back ∧
        (∃ touched, (e.machine.jump t).Framed e.step.machine [.register .xx, slot] touched) ∧
        ∀ e' : Engine, e'.About p .ret → e'.machine.cpu.f5 = e.machine.cpu.f5 →
          slot.Holds e'.machine back → e'.step.state = .running ∧ e'.step.machine.cpu.nx = back) ∧
      (t = Trap.debugOutput.address →
        e.step.state = .running ∧ e.step.machine.cpu.nx = back ∧
        (∃ touched, (e.machine.jump back).Framed e.step.machine [.register .xx, slot] touched) ∧
        ∃ w, e.step.outputText = e.outputText ++ [toString w.toInt] ∧
          (Location.memory (e.machine.cpu.f5 + 4)).Holds e.step.machine w ∧
          ∀ w', (Location.memory (e.machine.cpu.f5 + 4)).Holds e.machine w' → w' = w)) ∧
    (∀ e : Engine,
      let slot := Location.memory e.config.stack
      (e.load p).machine.cpu.f5 = e.config.stack ∧
      slot.Holds (e.load p).machine Trap.outermostReturn.address ∧
      ∀ e' : Engine, e'.config = e.config → e'.About p .ret → e'.machine.cpu.f5 = e.config.stack →
        slot.Holds e'.machine Trap.outermostReturn.address → e'.step.state = .halted .normal) := by
  intro p
  refine ⟨?_, ?_⟩
  · intro e target t m h hr back slot
    refine ⟨?_, ?_⟩
    · intro ht
      obtain ⟨touched, hstate, hslot, hframed⟩ := call_goes modules e target t m h hr ht
      obtain ⟨i, -, -, -, -, hback⟩ := about_linked modules e _ h rfl
      refine ⟨hstate, hframed.nx, hslot, ⟨touched, hframed⟩, ?_⟩
      intro e' h' hf5 hslot'
      exact ret_goes modules e' back h' (hf5 ▸ hslot') hback
    · rintro rfl
      obtain ⟨w, touched, hstate, houtput, hargument, hframed⟩ := call_prints modules e target m h hr
      refine ⟨hstate, hframed.nx, ⟨touched, hframed⟩, w, ?_, hargument, ?_⟩
      · simp only [Engine.outputText, houtput, Array.toList_push, List.map_append, List.map_cons,
          List.map_nil]
        rfl
      · intro w' hw'
        -- The slot is the only word in memory that is written, and the argument is beside it.
        have hapart : ∀ k ∈ [.register .xx, slot], (Location.memory (e.machine.cpu.f5 + 4)).Apart k := by
          rw [List.forall_mem_cons, List.forall_mem_singleton]
          exact ⟨memory_apart_register _ _, next_word_apart _⟩
        have hkept := holds_framed (e.machine.jump back) _ (.memory _) w' _ _ hframed hapart hw'
        exact holds_unique _ _ _ _ hkept hargument
  · intro e slot
    refine ⟨rfl, load_slot e p, ?_⟩
    intro e' hconfig h' hf5 hslot
    exact ret_halts modules e' h' (hf5.trans (hconfig ▸ rfl)) (hf5 ▸ hslot)

-- A module that prints 7, calls a function that does nothing, and returns.
def printAndCall : Module where
  name := "main"
  instructions :=
    [⟨.binary .sub (.register .f5) (.immediate 8), [], none⟩,
      ⟨.binary .mov (.based .f5 (some 4)) (.immediate 7), [], none⟩,
      ⟨.call (.immediate Trap.debugOutput.address), [], none⟩,
      ⟨.call (.address "leaf"), [], none⟩,
      ⟨.binary .add (.register .f5) (.immediate 8), [], none⟩,
      ⟨.ret, [], none⟩,
      ⟨.ret, ["leaf"], none⟩]
  literals := []
  exports := []
  imports := []
  isEntry := true

-- Its run after a number of steps.
def printAndCallAfter (n : Nat) : Engine :=
  Engine.step^[n] ((Engine.start {} (.seeded 0)).load (link [printAndCall]).program)

theorem printAndCall_returns :
    let p := (link [printAndCall]).program
    let e := printAndCallAfter
    (e 2).About p (.call (.immediate Trap.debugOutput.address)) ∧
    (e 3).About p (.call (.address "leaf")) ∧ (e 4).About p .ret ∧ (e 6).About p .ret ∧
    (e 3).outputText = ["7"] ∧ (e 4).machine.cpu.nx = 0x00400018 ∧
    (e 5).machine.cpu.nx = 0x00400010 ∧ (e 7).state = .halted .normal := by
  intro p e
  have hsucc (n : Nat) : e (n + 1) = (e n).step := Function.iterate_succ_apply' _ _ _
  have hprint : (e 2).About p (.call (.immediate Trap.debugOutput.address)) :=
    ⟨by decide +kernel, rfl, by decide +kernel⟩
  have hleaf : (e 3).About p (.call (.address "leaf")) := ⟨by decide +kernel, rfl, by decide +kernel⟩
  have hback : (e 4).About p .ret := ⟨by decide +kernel, rfl, by decide +kernel⟩
  have hend : (e 6).About p .ret := ⟨by decide +kernel, rfl, by decide +kernel⟩
  obtain ⟨hcalls, houtermost⟩ := calling_convention [printAndCall]
  refine ⟨hprint, hleaf, hback, hend, ?_, ?_⟩
  · obtain ⟨-, -, -, w, htext, -, hargument⟩ := (hcalls (e 2) _ _ _ hprint rfl).2 rfl
    rw [hsucc 2, htext, ← hargument 7 (by decide +kernel)]
    decide +kernel
  · have hresolved : p.resolve? (e 3).machine.cpu.nx "leaf" = some 0x00400018 := by decide +kernel
    obtain ⟨m, hread⟩ := operand_read_of_yields p
      ((e 3).machine.setRegister .xx ((e 3).machine.cpu.nx + 4)) (.address "leaf") _ hresolved
    obtain ⟨-, hnx, hslot, -, hreturn⟩ := (hcalls (e 3) _ _ _ hleaf hread).1 (by decide)
    rw [← hsucc 3] at hnx hslot
    obtain ⟨-, hnx'⟩ := hreturn (e 4) hback (by decide +kernel) hslot
    rw [← hsucc 4] at hnx'
    obtain ⟨-, -, hhalts⟩ := houtermost (Engine.start {} (.seeded 0))
    have hhalted := hhalts (e 6) rfl hend (by decide +kernel) (by decide +kernel)
    rw [← hsucc 6] at hhalted
    exact ⟨hnx, hnx'.trans (by decide +kernel), hhalted⟩

end PagedMachine
