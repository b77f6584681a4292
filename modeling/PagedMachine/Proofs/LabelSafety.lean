import Mathlib.Logic.Function.Iterate
import PagedMachine.Proofs.Acceptance
import PagedMachine.Proofs.Draft
import PagedMachine.Proofs.Execution
import PagedMachine.Proofs.Step

/-! Runs that never miss a label. In a program linked without problems an instruction is fetched only from
the page of the module it comes from, and there each of its labels means something, so that a run can
go wrong only in where it goes. -/
namespace PagedMachine

-- The labels in the operands of a module's instructions are all defined or imported by the module.
def Module.LabelClosed (m : Module) : Prop :=
  ∀ i ∈ m.instructions, ∀ o ∈ i.instruction.operands, ∀ l, o.label? = some l →
    l ∈ m.definedLabels ∨ l ∈ m.imports

-- Whatever can be fetched is well formed, and its labels resolve from where it is fetched.
def Program.LabelSafe (p : Program) : Prop :=
  ∀ a i, Trap.at? a = none → p.fetch? a = some i →
    i.instruction.isWellFormed = true ∧ ∀ o ∈ i.instruction.operands, ResolvesAt p a o.label?

-- Faults in where a run goes: to no instruction, or out of the program with a wrong stack.
def Fault.IsControl (f : Fault) : Prop :=
  (∃ a, f = .invalidAddress a) ∨ ∃ expected actual, f = .stackImbalance expected actual

-- An engine that runs a program and has recorded control faults only.
structure Engine.Contained (p : Program) (e : Engine) : Prop where
  program : e.program = some p
  faults : ∀ d ∈ e.faults, d.issue.IsControl

/-- Nothing but the program and the faults of an engine counts. -/
theorem contained_of_same (p : Program) (e e' : Engine) (h : e.Contained p)
    (hp : e'.program = e.program) (hf : e'.faults = e.faults) : e'.Contained p := by
  refine ⟨hp.trans h.program, ?_⟩
  rw [hf]
  exact h.faults

theorem fault_contained (p : Program) (e : Engine) (f : Fault) (span : Option Span)
    (h : e.Contained p) (hf : f.IsControl) : (e.fault f span).Contained p := by
  refine ⟨h.program, ?_⟩
  intro d hd
  rcases Array.mem_push.mp hd with hd | rfl
  · exact h.faults d hd
  · exact hf

theorem returnOutermost_contained (p : Program) (e : Engine) (span : Option Span)
    (h : e.Contained p) : (e.returnOutermost span).Contained p := by
  simp only [Engine.returnOutermost]
  split_ifs
  · exact contained_of_same p e _ h rfl rfl
  · exact fault_contained p e _ span h (Or.inr ⟨_, _, rfl⟩)

theorem enterTrap_contained (p : Program) (e : Engine) (t : Trap) (span : Option Span)
    (h : e.Contained p) : (e.enterTrap t span).Contained p := by
  cases t with
  | outermostReturn => exact returnOutermost_contained p e span h
  | debugOutput =>
    have hp : e.printArgument.Contained p :=
      contained_of_same p e _ h (printArgument_program e) (printArgument_faults e)
    simp only [Engine.enterTrap]
    split_ifs
    · exact returnOutermost_contained p _ span hp
    · exact hp

/-- One step of a label-safe program raises no fault but those of control. -/
theorem stepped_contained (p : Program) (hp : p.LabelSafe) (e e' : Engine) (hs : Stepped e e')
    (h : e.Contained p) : e'.Contained p := by
  have hc : e.counted.Contained p := contained_of_same p e _ h rfl rfl
  have hm (m : Machine) (span : Option Span) : (e.counted.continued m span).Contained p :=
    contained_of_same p _ _ hc (collectWarnings_program _ span) (collectWarnings_faults _ span)
  cases hs with
  | finished => exact h
  | unloaded hh hnone =>
    rw [h.program] at hnone
    contradiction
  | trapped q t hh hq ht => exact enterTrap_contained p _ t none hc
  | unmapped q hh hq ht hi => exact fault_contained p _ _ none hc (Or.inl ⟨_, rfl⟩)
  | faulted q i f m hh hq ht hi hx =>
    -- The instruction stands at the program counter, where all of its labels resolve.
    rw [h.program] at hq
    cases hq
    obtain ⟨hw, hl⟩ := hp _ i ht hi
    obtain ⟨u, m', hok, -⟩ := execute_passes p _ i.instruction hw hl (e.staged i) rfl
    rw [hok] at hx
    contradiction
  | moved q i m hh hq ht hi hx hn => exact hm m i.span
  | called q i m t hh hq ht hi hx hn => exact enterTrap_contained p _ t i.span (hm m i.span)

/-- By induction on the steps: a run of a label-safe program raises no fault but those of
control. -/
theorem run_contained (p : Program) (hp : p.LabelSafe) (e : Engine) (h : e.Contained p) (n : Nat) :
    (Engine.step^[n] e).Contained p := by
  induction n with
  | zero => exact h
  | succ n ih =>
    rw [Function.iterate_succ_apply']
    exact stepped_contained p hp _ _ (step_stepped _) ih

theorem load_contained (e : Engine) (p : Program) : (e.load p).Contained p := by
  refine ⟨rfl, ?_⟩
  intro d hd
  simp [Engine.load, Engine.start] at hd

/-- What is fetched beside the traps is an instruction of the module on that page. -/
theorem fetch_linked (modules : List Module) (a : Address) (i : LoadedInstruction)
    (ht : Trap.at? a = none) (h : (link modules).program.fetch? a = some i) :
    ∃ id m, pageOf? a = some id ∧ moduleOn? modules id = some m ∧
      ∃ k ∈ m.instructions, k.instruction = i.instruction := by
  rw [fetch_beside_traps _ a ht, link_pageAt] at h
  obtain ⟨page, hpage, hi⟩ := Option.bind_eq_some_iff.mp h
  obtain ⟨id, hid, hmap⟩ := Option.bind_eq_some_iff.mp hpage
  obtain ⟨m, hm, rfl⟩ := Option.map_eq_some_iff.mp hmap
  simp only [Page.fetch?] at hi
  split_ifs at hi
  exact ⟨id, m, hid, hm, layOut_instruction m id i (Array.mem_of_getElem? hi)⟩

/-- In a program without link problems, a module sees each label that it defines or imports. -/
theorem linkable_resolves (modules : List Module) (h : Linkable modules) (a : Address) (id : Nat)
    (m : Module) (ha : pageOf? a = some id) (hm : moduleOn? modules id = some m) (l : Label)
    (hl : l ∈ m.definedLabels ∨ l ∈ m.imports) :
    ((link modules).program.resolve? a l).isSome = true := by
  have hmem := moduleOn_mem modules id m hm
  rw [link_resolve_linked modules a l id m ha hm, Option.isSome_or, Bool.or_eq_true]
  rcases hl with hl | hl
  · exact Or.inl ((address_isSome m id l (h.tidy m hmem).fits).mpr hl)
  · -- The exporting module has a page as well, since there are pages for all.
    obtain ⟨m', hm', hx⟩ := h.imports_exported m hmem l hl
    obtain ⟨id', hid'⟩ := moduleOn_of_mem modules m' h.one_entry h.enough_pages hm'
    rw [if_pos hl]
    exact Or.inr (exportedAddress_isSome modules l id' m' hid' (h.tidy m' hm') hx)

/-- A linked program of label-closed modules resolves every label its instructions name. -/
theorem link_labelSafe (modules : List Module) (hl : Linkable modules)
    (hw : ∀ m ∈ modules, ∀ k ∈ m.instructions, k.instruction.isWellFormed = true)
    (hc : ∀ m ∈ modules, m.LabelClosed) : (link modules).program.LabelSafe := by
  intro a i ht hi
  obtain ⟨id, m, ha, hm, k, hk, he⟩ := fetch_linked modules a i ht hi
  have hmem := moduleOn_mem modules id m hm
  refine ⟨he ▸ hw m hmem k hk, ?_⟩
  intro o ho l hol
  exact linkable_resolves modules hl a id m ha hm l (hc m hmem k hk o (he ▸ ho) l hol)

/-- Built modules that link without a problem, and whose instructions mention only labels that their
module defines or imports, never make a run miss a label, execute a malformed instruction or find no
program: however the engine is configured and wherever uninitialized bytes come from, after any number
of steps it has recorded no other fault than a lost program counter or an unbalanced stack. -/
theorem linked_run_control_faults (modules : List Module) (hb : ∀ m ∈ modules, m.IsBuilt)
    (hr : (link modules).isRunnable = true) (hc : ∀ m ∈ modules, m.LabelClosed) (e : Engine)
    (n : Nat) :
    ∀ d ∈ (Engine.step^[n] (e.load (link modules).program)).faults,
      (∃ a, d.issue = .invalidAddress a) ∨
        ∃ expected actual, d.issue = .stackImbalance expected actual := by
  have hw : ∀ m ∈ modules, ∀ k ∈ m.instructions, k.instruction.isWellFormed = true := by
    intro m hm
    obtain ⟨name, directives, hbuild⟩ := hb m hm
    exact ((build_ok_iff _ m).mp hbuild).2.1
  have hsafe := link_labelSafe modules (linkable_of_isRunnable modules hr) hw hc
  exact (run_contained _ hsafe _ (load_contained e _) n).faults

-- A module that reads a constant of another one and then runs off its end.
def sharedConstant : List Module :=
  [{ name := "main"
     instructions :=
      [⟨.binary .mov (.register .f0) (.place (.labeled "seven" none none)), ["start"], none⟩,
        ⟨.compare .eq (.place (.register .f0)) (.address "start"), [], none⟩]
     literals := []
     exports := []
     imports := ["seven"]
     isEntry := true },
    { name := "constants"
      instructions := []
      literals := [⟨.number 7, .word, ["seven"]⟩]
      exports := ["seven"]
      imports := []
      isEntry := false }]

theorem sharedConstant_control_faults :
    (∀ m ∈ sharedConstant, m.IsBuilt) ∧ (link sharedConstant).isRunnable = true ∧
    (∀ m ∈ sharedConstant, m.LabelClosed) ∧
    ∀ d ∈ (Engine.step^[3]
        ((Engine.start {} (.seeded 0)).load (link sharedConstant).program)).faults,
      (∃ a, d.issue = .invalidAddress a) ∨
        ∃ expected actual, d.issue = .stackImbalance expected actual := by
  have hb : ∀ m ∈ sharedConstant, m.IsBuilt := by
    rw [sharedConstant, List.forall_mem_cons, List.forall_mem_singleton]
    refine ⟨⟨"main",
      [.entry, .imports "seven", .label "start",
        .instruction (.binary .mov (.register .f0) (.place (.labeled "seven" none none))),
        .instruction (.compare .eq (.place (.register .f0)) (.address "start"))],
      by decide +kernel⟩, ?_⟩
    exact ⟨"constants", [.exports "seven", .label "seven", .literal (.number 7) .word],
      by decide +kernel⟩
  have hr : (link sharedConstant).isRunnable = true := by decide +kernel
  have hc : ∀ m ∈ sharedConstant, m.LabelClosed := by
    simp [sharedConstant, Module.LabelClosed, Instruction.operands, Operand.label?, Place.label?,
      Module.definedLabels]
  exact ⟨hb, hr, hc, linked_run_control_faults sharedConstant hb hr hc _ 3⟩

end PagedMachine
