import Mathlib.Logic.Function.Iterate
import PagedMachine.Linkage
import PagedMachine.Proofs.Execution
import PagedMachine.Proofs.Memory
import PagedMachine.Proofs.Step

/-! Reproducible runs. Bytes are drawn only by reads that are reported, and no report gets lost, so a run
that has reported no uninitialized read goes the same way whatever generator the memory has. -/
namespace PagedMachine

-- The same memory with another generator.
def Memory.reseeded (m : Memory) (r : Entropy) : Memory :=
  { m with entropy := r }

def Machine.reseeded (m : Machine) (r : Entropy) : Machine :=
  { m with memory := m.memory.reseeded r }

-- The same engine with another generator: everything else is left as it is.
def Engine.reseeded (e : Engine) (r : Entropy) : Engine :=
  { e with machine := e.machine.reseeded r }

-- None of the warnings that wait to be taken is about an uninitialized read.
def Memory.Quiet (m : Memory) : Prop :=
  ∀ a, .uninitialized a ∉ m.warnings

-- No uninitialized read has been reported, neither in the log nor in what the memory still holds.
structure Engine.Quiet (e : Engine) : Prop where
  log : ∀ d ∈ e.warnings, ∀ a, d.issue ≠ .uninitialized a
  memory : e.machine.memory.Quiet

/-! Memory. -/

theorem checkAlignment_reseeded (m : Memory) (r : Entropy) (w : Width) (a : Address) :
    (m.reseeded r).checkAlignment w a = (m.checkAlignment w a).reseeded r := by
  by_cases h : a.toNat % w.bytes = 0 ∨ m.misaligned.contains a
  · have h' : a.toNat % w.bytes = 0 ∨ (m.reseeded r).misaligned.contains a := h
    simp only [Memory.checkAlignment, h, h', ↓reduceIte]
  · have h' : ¬(a.toNat % w.bytes = 0 ∨ (m.reseeded r).misaligned.contains a) := h
    simp only [Memory.checkAlignment, h, h', ↓reduceIte]
    rfl

theorem store_reseeded (m : Memory) (r : Entropy) (a : Address) (bs : List Byte) :
    (m.reseeded r).store a bs = (m.store a bs).reseeded r := by
  induction bs generalizing m a with
  | nil => rfl
  | cons b bs ih => exact ih (m.setByte a b) (a + 1)

/-- A write does not draw on the source of random bytes. -/
theorem write_reseeded (m : Memory) (r : Entropy) (w : Width) (a : Address) (v : Word) :
    (m.reseeded r).write w a v = (m.write w a v).reseeded r := by
  rw [Memory.write, checkAlignment_reseeded, store_reseeded, Memory.write]

theorem checkAlignment_quiet (m : Memory) (w : Width) (a : Address)
    (h : (m.checkAlignment w a).Quiet) : m.Quiet := by
  intro b hb
  apply h b
  simp only [Memory.checkAlignment]
  split_ifs
  · exact hb
  · exact Array.mem_push_of_mem _ hb

theorem store_warnings (m : Memory) (a : Address) (bs : List Byte) :
    (m.store a bs).warnings = m.warnings := by
  rw [store_eq, withContents_warnings]

theorem write_quiet (m : Memory) (w : Width) (a : Address) (v : Word)
    (h : (m.write w a v).Quiet) : m.Quiet := by
  apply checkAlignment_quiet m w a
  intro b hb
  apply h b
  rw [Memory.write, store_warnings]
  exact hb

/-- Where no byte is missing it does not matter where they come from. -/
theorem settleAll_present (m : Memory) (r : Entropy) (a : Address) (n : Nat)
    (h : m.isMissing a n = false) :
    (m.reseeded r).settleAll a n = ((m.settleAll a n).1, (m.settleAll a n).2.reseeded r) := by
  induction n generalizing a with
  | zero => rfl
  | succ n ih =>
    obtain ⟨⟨b, hb⟩, hrest⟩ := (isMissing_succ m a n).mp h
    have hb' : (m.reseeded r).get? a = some b := hb
    simp only [Memory.settleAll, Memory.settle, hb, hb', ih (a + 1) hrest]

theorem checkAlignment_isMissing (m : Memory) (w : Width) (a b : Address) (n : Nat) :
    (m.checkAlignment w a).isMissing b n = m.isMissing b n := by
  simp only [Memory.checkAlignment]
  split_ifs <;> rfl

/-- A read of stored bytes does not draw on the source of random bytes. -/
theorem read_reseeded (m : Memory) (r : Entropy) (w : Width) (a : Address)
    (h : m.isMissing a w.bytes = false) :
    (m.reseeded r).read w a = ((m.read w a).1, (m.read w a).2.reseeded r) := by
  have h' : (m.reseeded r).isMissing a w.bytes = false := h
  have hs := settleAll_present (m.checkAlignment w a) r a w.bytes
    ((checkAlignment_isMissing m w a a w.bytes).trans h)
  simp only [Memory.read, h, h', checkAlignment_reseeded, hs, Bool.false_eq_true, ↓reduceIte]

/-- A read of a missing byte is reported. -/
theorem read_quiet (m : Memory) (w : Width) (a : Address) (h : (m.read w a).2.Quiet) :
    m.Quiet ∧ m.isMissing a w.bytes = false := by
  cases hm : m.isMissing a w.bytes with
  | true =>
    have hread : (m.read w a).2 =
        ((m.checkAlignment w a).settleAll a w.bytes).2.warn (.uninitialized a) := by
      simp only [Memory.read, hm, ↓reduceIte]
    rw [hread] at h
    exact absurd (Array.mem_push_self) (h a)
  | false =>
    refine ⟨?_, rfl⟩
    apply checkAlignment_quiet m w a
    have hread : (m.read w a).2 = ((m.checkAlignment w a).settleAll a w.bytes).2 := by
      simp [Memory.read, hm]
    intro b hb
    apply h b
    rw [hread, (settleAll_reports _ a w.bytes).1]
    exact hb

/-! Actions. -/

-- The machine that an action leaves, whether it faults or not.
def leftBy {α : Type} (x : Exec α) (m : Machine) : Machine :=
  match x m with
  | .ok _ m' => m'
  | .error _ m' => m'

-- The same result on machines with another generator.
def reseededResult {α : Type} (r : Entropy) :
    EStateM.Result Fault Machine α → EStateM.Result Fault Machine α
  | .ok a m => .ok a (m.reseeded r)
  | .error f m => .error f (m.reseeded r)

-- Unless the action reports an uninitialized read, it does not matter which generator there is. A report
-- that was there before is still there afterwards.
def Indifferent {α : Type} (x : Exec α) : Prop :=
  ∀ m, (leftBy x m).memory.Quiet →
    m.memory.Quiet ∧ ∀ r, x (m.reseeded r) = reseededResult r (x m)

theorem indifferent_ok {α : Type} (x : Exec α) (hx : Indifferent x) (m m' : Machine) (a : α)
    (h : x m = .ok a m') (hq : m'.memory.Quiet) :
    m.memory.Quiet ∧ ∀ r, x (m.reseeded r) = .ok a (m'.reseeded r) := by
  have hxm := hx m
  simp only [leftBy, h] at hxm
  exact hxm hq

theorem indifferent_error {α : Type} (x : Exec α) (hx : Indifferent x) (m m' : Machine) (f : Fault)
    (h : x m = .error f m') (hq : m'.memory.Quiet) :
    m.memory.Quiet ∧ ∀ r, x (m.reseeded r) = .error f (m'.reseeded r) := by
  have hxm := hx m
  simp only [leftBy, h] at hxm
  exact hxm hq

theorem indifferent_pure {α : Type} (a : α) : Indifferent (pure a : Exec α) :=
  fun _ hq => ⟨hq, fun _ => rfl⟩

theorem indifferent_throw {α : Type} (f : Fault) : Indifferent (throw f : Exec α) :=
  fun _ hq => ⟨hq, fun _ => rfl⟩

theorem indifferent_bind {α β : Type} (x : Exec α) (f : α → Exec β) (hx : Indifferent x)
    (hf : ∀ a, Indifferent (f a)) : Indifferent (x >>= f) := by
  intro m hq
  cases he : x m with
  | error g m' =>
    simp only [leftBy, exec_bind_error x f m m' g he] at hq
    obtain ⟨hm, hr⟩ := indifferent_error x hx m m' g he hq
    refine ⟨hm, ?_⟩
    intro r
    rw [exec_bind_error x f _ _ g (hr r), exec_bind_error x f m m' g he]
    rfl
  | ok a m' =>
    simp only [leftBy, exec_bind_ok x f m m' a he] at hq
    -- The second action keeps the reports of the first one, so neither has reported anything.
    obtain ⟨hm', hrest⟩ := hf a m' hq
    obtain ⟨hm, hr⟩ := indifferent_ok x hx m m' a he hm'
    refine ⟨hm, ?_⟩
    intro r
    rw [exec_bind_ok x f _ _ a (hr r), exec_bind_ok x f m m' a he]
    exact hrest r

theorem find_indifferent (p : Program) (x : Place) : Indifferent (x.find p) := by
  intro m hq
  -- To locate a place the memory is not needed.
  have hl (r : Entropy) : x.locate p (m.reseeded r) = x.locate p m := by
    cases x <;> rfl
  cases he : x.locate p m with
  | ok k =>
    simp only [leftBy, Place.find, he] at hq
    refine ⟨hq, ?_⟩
    intro r
    simp only [Place.find, hl r, he]
    rfl
  | error f =>
    simp only [leftBy, Place.find, he] at hq
    refine ⟨hq, ?_⟩
    intro r
    simp only [Place.find, hl r, he]
    rfl

theorem location_read_indifferent (k : Location) : Indifferent k.read := by
  intro m hq
  cases k with
  | register q => exact ⟨hq, fun _ => rfl⟩
  | memory a =>
    obtain ⟨hm, hmissing⟩ := read_quiet m.memory .word a hq
    refine ⟨hm, ?_⟩
    intro r
    have hread : (m.reseeded r).memory.read .word a =
        ((m.memory.read .word a).1, (m.memory.read .word a).2.reseeded r) :=
      read_reseeded m.memory r .word a hmissing
    simp only [Location.read, hread]
    rfl

theorem location_write_indifferent (w : Word) (k : Location) : Indifferent (k.write w) := by
  intro m hq
  cases k with
  | register q => exact ⟨hq, fun _ => rfl⟩
  | memory a =>
    refine ⟨write_quiet m.memory .word a w hq, ?_⟩
    intro r
    have hwrite : (m.reseeded r).memory.write .word a w = (m.memory.write .word a w).reseeded r :=
      write_reseeded m.memory r .word a w
    simp only [Location.write, hwrite]
    rfl

theorem operand_read_indifferent (p : Program) (o : Operand) : Indifferent (o.read p) := by
  cases o with
  | immediate w => exact indifferent_pure w
  | address l =>
    intro m hq
    cases he : p.lookUp m l with
    | ok a =>
      simp only [leftBy, Operand.read, he] at hq
      refine ⟨hq, ?_⟩
      intro r
      have he' : p.lookUp (m.reseeded r) l = .ok a := he
      simp only [Operand.read, he, he']
      rfl
    | error f =>
      simp only [leftBy, Operand.read, he] at hq
      refine ⟨hq, ?_⟩
      intro r
      have he' : p.lookUp (m.reseeded r) l = .error f := he
      simp only [Operand.read, he, he']
      rfl
  | place x => exact indifferent_bind _ _ (find_indifferent p x) location_read_indifferent

theorem ifFlag_indifferent (x : Exec Unit) (hx : Indifferent x) :
    Indifferent (do if (← get).cpu.flag then x) := by
  intro m hq
  cases hf : m.cpu.flag with
  | true =>
    simp only [leftBy, ifFlag_set x m hf] at hq
    obtain ⟨hm, hr⟩ := hx m hq
    refine ⟨hm, ?_⟩
    intro r
    rw [ifFlag_set x m hf, ifFlag_set x (m.reseeded r) hf]
    exact hr r
  | false =>
    simp only [leftBy, ifFlag_clear x m hf] at hq
    refine ⟨hq, ?_⟩
    intro r
    rw [ifFlag_clear x m hf, ifFlag_clear x (m.reseeded r) hf]
    rfl

/-- An instruction that reports nothing does not draw on the source of random bytes. -/
theorem execute_indifferent (p : Program) (i : Instruction) : Indifferent (i.execute p) := by
  cases hw : i.isWellFormed with
  | true =>
    apply execute_of_parts Indifferent p i hw
    exact
      { pure := indifferent_pure ()
        bind := indifferent_bind
        read := fun o _ => operand_read_indifferent p o
        write := fun x w _ =>
          indifferent_bind _ _ (find_indifferent p x) (location_write_indifferent w)
        ifFlag := ifFlag_indifferent
        setFlag := fun b m hq => ⟨hq, fun r => rfl⟩ }
  | false =>
    simp only [Instruction.execute, hw, Bool.false_eq_true, ↓reduceIte]
    exact indifferent_throw _

/-! Engines. -/

theorem mem_collectWarnings (e : Engine) (span : Option Span) (d : Diagnostic Warning) :
    d ∈ (e.collectWarnings span).warnings ↔
      d ∈ e.warnings ∨ ∃ w ∈ e.machine.memory.warnings, ⟨w, span⟩ = d := by
  rw [← Array.mem_toList_iff]
  simp [Engine.collectWarnings, Memory.takeWarnings]

theorem collectWarnings_quiet (e : Engine) (span : Option Span)
    (h : (e.collectWarnings span).Quiet) : e.Quiet := by
  constructor
  · intro d hd
    exact h.log d ((mem_collectWarnings e span d).mpr (Or.inl hd))
  · intro a ha
    exact h.log _ ((mem_collectWarnings e span _).mpr (Or.inr ⟨_, ha, rfl⟩)) a rfl

-- Unless a report of an uninitialized read comes of it, the operation does the same to an engine with
-- another generator.
def Reproducible (f : Engine → Engine) : Prop :=
  ∀ e, (f e).Quiet → e.Quiet ∧ ∀ r, f (e.reseeded r) = (f e).reseeded r

theorem fault_reproducible (f : Fault) (span : Option Span) : Reproducible (·.fault f span) :=
  fun _ hq => ⟨⟨hq.log, hq.memory⟩, fun _ => rfl⟩

theorem returnOutermost_reproducible (span : Option Span) : Reproducible (·.returnOutermost span) := by
  intro e hq
  by_cases hs : e.machine.cpu.f5 = e.config.stack
  · have he (r : Entropy) : (e.reseeded r).machine.cpu.f5 = (e.reseeded r).config.stack := hs
    simp only [Engine.returnOutermost, hs, he, ↓reduceIte] at hq ⊢
    exact ⟨⟨hq.log, hq.memory⟩, fun _ => rfl⟩
  · have he (r : Entropy) : ¬(e.reseeded r).machine.cpu.f5 = (e.reseeded r).config.stack := hs
    simp only [Engine.returnOutermost, hs, he, ↓reduceIte] at hq ⊢
    exact fault_reproducible _ span e hq

theorem printArgument_reproducible : Reproducible Engine.printArgument := by
  intro e hq
  -- Two words are read, and what they report is collected at once.
  let argument := e.machine.memory.read .word (e.machine.cpu.f5 + debugArgumentOffset)
  have hc := collectWarnings_quiet _ _ hq
  obtain ⟨hfirst, hback⟩ := read_quiet argument.2 .word (e.machine.cpu.f5 + returnSlotOffset) hc.memory
  obtain ⟨hm, harg⟩ := read_quiet _ _ _ hfirst
  refine ⟨⟨hc.log, hm⟩, ?_⟩
  intro r
  have hread : (e.reseeded r).machine.memory.read .word (e.machine.cpu.f5 + debugArgumentOffset) =
      (argument.1, argument.2.reseeded r) :=
    read_reseeded e.machine.memory r .word _ harg
  have hread' := read_reseeded argument.2 r .word _ hback
  have hf5 : (e.reseeded r).machine.cpu.f5 = e.machine.cpu.f5 := rfl
  simp only [Engine.printArgument, hf5, hread, hread']
  rfl

theorem enterTrap_reproducible (t : Trap) (span : Option Span) :
    Reproducible (·.enterTrap t span) := by
  cases t with
  | outermostReturn => exact returnOutermost_reproducible span
  | debugOutput =>
    intro e hq
    by_cases hn : e.printArgument.machine.cpu.nx = Trap.outermostReturn.address
    · simp only [Engine.enterTrap, hn, ↓reduceIte] at hq ⊢
      obtain ⟨hp, hreturn⟩ := returnOutermost_reproducible span e.printArgument hq
      obtain ⟨he, hprint⟩ := printArgument_reproducible e hp
      refine ⟨he, ?_⟩
      intro r
      have hn' : (e.printArgument.reseeded r).machine.cpu.nx = Trap.outermostReturn.address := hn
      simp only [hprint r, hn', ↓reduceIte]
      exact hreturn r
    · simp only [Engine.enterTrap, hn, ↓reduceIte] at hq ⊢
      obtain ⟨he, hprint⟩ := printArgument_reproducible e hq
      refine ⟨he, ?_⟩
      intro r
      have hn' : ¬(e.printArgument.reseeded r).machine.cpu.nx = Trap.outermostReturn.address := hn
      simp only [hprint r, hn', ↓reduceIte]

/-- Every way a step can go is the same under another source, as long as it reports nothing. -/
theorem stepped_reproducible (e e' : Engine) (hs : Stepped e e') (hq : e'.Quiet) :
    e.Quiet ∧ ∀ r, Stepped (e.reseeded r) (e'.reseeded r) := by
  cases hs with
  | finished hh => exact ⟨hq, fun r => .finished hh⟩
  | unloaded hh hp => exact ⟨⟨hq.log, hq.memory⟩, fun r => .unloaded hh hp⟩
  | trapped p t hh hp ht =>
    obtain ⟨hc, hr⟩ := enterTrap_reproducible t none e.counted hq
    refine ⟨⟨hc.log, hc.memory⟩, ?_⟩
    intro r
    rw [← hr r]
    exact .trapped p t hh hp ht
  | unmapped p hh hp ht hi => exact ⟨⟨hq.log, hq.memory⟩, fun r => .unmapped p hh hp ht hi⟩
  | faulted p i f m hh hp ht hi hx =>
    have hc := collectWarnings_quiet { e.counted with machine := m } i.span ⟨hq.log, hq.memory⟩
    obtain ⟨hm, hr⟩ := indifferent_error _ (execute_indifferent p i.instruction) _ m f hx hc.memory
    exact ⟨⟨hc.log, hm⟩, fun r => .faulted p i f (m.reseeded r) hh hp ht hi (hr r)⟩
  | moved p i m hh hp ht hi hx hn =>
    have hc := collectWarnings_quiet _ i.span hq
    obtain ⟨hm, hr⟩ := indifferent_ok _ (execute_indifferent p i.instruction) _ m () hx hc.memory
    exact ⟨⟨hc.log, hm⟩, fun r => .moved p i (m.reseeded r) hh hp ht hi (hr r) hn⟩
  | called p i m t hh hp ht hi hx hn =>
    obtain ⟨hcalled, htrap⟩ := enterTrap_reproducible t i.span _ hq
    have hc := collectWarnings_quiet _ i.span hcalled
    obtain ⟨hm, hr⟩ := indifferent_ok _ (execute_indifferent p i.instruction) _ m () hx hc.memory
    refine ⟨⟨hc.log, hm⟩, ?_⟩
    intro r
    rw [← htrap r]
    exact .called p i (m.reseeded r) t hh hp ht hi (hr r) hn

/-- A step that reports nothing is the same under another source. -/
theorem step_reproducible : Reproducible Engine.step := by
  intro e hq
  obtain ⟨he, hr⟩ := stepped_reproducible e e.step (step_stepped e) hq
  exact ⟨he, fun r => step_of_stepped _ _ (hr r)⟩

/-- By induction on the steps: a run that reports nothing is the same under another source. -/
theorem run_reproducible (n : Nat) : Reproducible Engine.step^[n] := by
  induction n with
  | zero => exact fun e hq => ⟨hq, fun _ => rfl⟩
  | succ n ih =>
    intro e hq
    rw [Function.iterate_succ_apply'] at hq
    obtain ⟨hn, hstep⟩ := step_reproducible _ hq
    obtain ⟨he, hrun⟩ := ih e hn
    refine ⟨he, ?_⟩
    intro r
    rw [Function.iterate_succ_apply', Function.iterate_succ_apply', hrun r, hstep r]

theorem writeLiteral_reseeded (p : Program) (m : Memory) (l : PlacedLiteral) (r : Entropy) :
    p.writeLiteral (m.reseeded r) l = (p.writeLiteral m l).reseeded r := by
  simp only [Program.writeLiteral]
  split
  · exact write_reseeded m r _ _ _
  · rfl

theorem writeLiterals_reseeded (p : Program) (m : Memory) (r : Entropy) :
    p.writeLiterals (m.reseeded r) = (p.writeLiterals m).reseeded r := by
  rw [Program.writeLiterals, Program.writeLiterals]
  exact List.foldl_hom (Memory.reseeded · r) fun m l => writeLiteral_reseeded p m l r

/-- Loading writes and reads nothing, so it never draws. -/
theorem load_reseeded (e : Engine) (p : Program) (r : Entropy) :
    (e.reseeded r).load p = (e.load p).reseeded r := by
  let image (q : Entropy) : Memory :=
    (p.writeLiterals (Memory.empty q)).write .word (e.config.stack + returnSlotOffset)
      Trap.outermostReturn.address
  let loaded (m : Memory) : Engine :=
    { Engine.start e.config r with
      program := some p
      machine := { (Machine.start e.config r).jump entryAddress with memory := m } }.collectWarnings none
  have himage : image r = (image e.machine.memory.entropy).reseeded r := by
    have hl : p.writeLiterals (Memory.empty r) =
        (p.writeLiterals (Memory.empty e.machine.memory.entropy)).reseeded r :=
      writeLiterals_reseeded p (Memory.empty _) r
    simp only [image, hl, write_reseeded]
  calc (e.reseeded r).load p
      _ = loaded (image r) := rfl
      _ = loaded ((image e.machine.memory.entropy).reseeded r) := by rw [himage]
      _ = (e.load p).reseeded r := rfl

-- The memory's warnings have all been taken.
def Engine.Taken (e : Engine) : Prop :=
  e.machine.memory.warnings = #[]

theorem collectWarnings_taken (e : Engine) (span : Option Span) : (e.collectWarnings span).Taken :=
  rfl

theorem enterTrap_taken (e : Engine) (t : Trap) (span : Option Span) (h : e.Taken) :
    (e.enterTrap t span).Taken := by
  have hr (e : Engine) (h : e.Taken) : (e.returnOutermost span).Taken := by
    simp only [Engine.returnOutermost]
    split_ifs <;> exact h
  cases t with
  | outermostReturn => exact hr e h
  | debugOutput =>
    have hp : e.printArgument.Taken := collectWarnings_taken _ none
    simp only [Engine.enterTrap]
    split_ifs
    · exact hr _ hp
    · exact hp

/-- No step leaves a warning behind, not even one that faults. -/
theorem stepped_taken (e e' : Engine) (hs : Stepped e e') (h : e.Taken) : e'.Taken := by
  cases hs with
  | finished hh => exact h
  | unloaded hh hp => exact h
  | trapped p t hh hp ht => exact enterTrap_taken e.counted t none h
  | unmapped p hh hp ht hi => exact h
  | faulted p i f m hh hp ht hi hx => exact collectWarnings_taken _ i.span
  | moved p i m hh hp ht hi hx hn => exact collectWarnings_taken _ i.span
  | called p i m t hh hp ht hi hx hn =>
    exact enterTrap_taken _ t i.span (collectWarnings_taken _ i.span)

/-- After every step the warnings have been taken from the memory. -/
theorem run_taken (e : Engine) (h : e.Taken) (n : Nat) : (Engine.step^[n] e).Taken := by
  induction n with
  | zero => exact h
  | succ n ih =>
    rw [Function.iterate_succ_apply']
    exact stepped_taken _ _ (step_stepped _) ih

/-- Runs without uninitialized reads do not depend on the generator. Take two engines that differ in their
generators alone, load the same program and make the same number of steps: if the log of the first
shows no uninitialized read, then the second engine is the first one with the other generator, so that
they agree on state, registers, flag, stored bytes, step count, output, faults and warnings. -/
theorem run_entropy_independent (p : Program) (e : Engine) (r : Entropy) (n : Nat)
    (h : ∀ d ∈ (Engine.step^[n] (e.load p)).warnings, ∀ a, d.issue ≠ .uninitialized a) :
    Engine.step^[n] ((e.reseeded r).load p) = (Engine.step^[n] (e.load p)).reseeded r := by
  have htaken := run_taken (e.load p) (collectWarnings_taken _ none) n
  have hq : (Engine.step^[n] (e.load p)).Quiet := by
    refine ⟨h, ?_⟩
    intro a ha
    rw [htaken] at ha
    simp at ha
  rw [load_reseeded]
  exact (run_reproducible n _ hq).2 r

-- A module that leaves a word as the argument of the debug trap, calls the trap and ends the run.
def printSeven : Module where
  name := "main"
  instructions :=
    [⟨.binary .mov (.based .f5 (some 4)) (.immediate 7), [], none⟩,
      ⟨.ternary .xchg (.immediate Trap.debugOutput.address) (.register .xx) (.based .f5 none), [],
        none⟩,
      ⟨.binary .mov (.register .xx) (.immediate Trap.outermostReturn.address), [], none⟩]
  literals := []
  exports := []
  imports := []
  isEntry := true

/-- The trap reads its argument and its return address, both of which the module has written. -/
theorem printSeven_entropy_independent :
    (∀ d ∈ (Engine.step^[3]
        ((Engine.start {} (.seeded 0)).load (link [printSeven]).program)).warnings,
      ∀ a, d.issue ≠ .uninitialized a) ∧
    Engine.step^[3] (((Engine.start {} (.seeded 0)).reseeded (.seeded 1)).load
        (link [printSeven]).program) =
      (Engine.step^[3] ((Engine.start {} (.seeded 0)).load
        (link [printSeven]).program)).reseeded (.seeded 1) ∧
    (Engine.step^[3] (((Engine.start {} (.seeded 0)).reseeded (.seeded 1)).load
        (link [printSeven]).program)).output = #[7] := by
  have hw : (Engine.step^[3] ((Engine.start {} (.seeded 0)).load
      (link [printSeven]).program)).warnings = #[] := by decide +kernel
  have h : ∀ d ∈ (Engine.step^[3]
      ((Engine.start {} (.seeded 0)).load (link [printSeven]).program)).warnings,
      ∀ a, d.issue ≠ .uninitialized a := by
    rw [hw]
    simp
  exact ⟨h, run_entropy_independent _ _ _ 3 h, by decide +kernel⟩

end PagedMachine
