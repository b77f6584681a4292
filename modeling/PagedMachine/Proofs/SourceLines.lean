import PagedMachine.Proofs.Scheduling

/-! Stepping by source lines. A call that steps to the next line is a run under a scheduler that declines at
an instruction from source text, so it takes the least number of steps to one, and returns if there is one. -/
namespace PagedMachine

-- Whether stepping by lines may stop at an engine: the run is over, or the instruction at the program
-- counter comes from source text.
def Engine.AtStop (e : Engine) : Prop :=
  e.state.isHalted = true ∨
    ∃ p i s, e.program = some p ∧ p.fetch? e.machine.cpu.nx = some i ∧ i.span = some s

-- The `k`th step is the first one that leads to such an engine. Where the run starts does not count.
structure Engine.StopsFirst (e : Engine) (k : Nat) : Prop where
  positive : 1 ≤ k
  passes : ∀ j, 1 ≤ j → j < k → ¬(Engine.step^[j] e).AtStop
  stops : (Engine.step^[k] e).AtStop

-- Lets a run go on where the next instruction does not come from source text.
def betweenLines : Scheduler Unit where
  resume _ e := (!e.atLine, ())

theorem atLine_iff (e : Engine) :
    e.atLine = true ↔
      ∃ p i s, e.program = some p ∧ p.fetch? e.machine.cpu.nx = some i ∧ i.span = some s := by
  rw [Engine.atLine, Option.any_eq_true]
  constructor
  · rintro ⟨i, hi, hs⟩
    obtain ⟨p, hp, hf⟩ := Option.bind_eq_some_iff.mp hi
    obtain ⟨s, hs⟩ := Option.isSome_iff_exists.mp hs
    exact ⟨p, i, s, hp, hf, hs⟩
  · rintro ⟨p, i, s, hp, hf, hs⟩
    exact ⟨i, Option.bind_eq_some_iff.mpr ⟨p, hp, hf⟩, Option.isSome_iff_exists.mpr ⟨s, hs⟩⟩

theorem atStop_iff (e : Engine) : e.AtStop ↔ e.state.isHalted = true ∨ e.atLine = true := by
  rw [atLine_iff]
  rfl

/-- Stepping to the next line is a run between lines. -/
theorem stepLine_eq_runWith (fuel : Nat) (e : Engine) :
    e.stepLine fuel = (e.runWith betweenLines fuel ()).map Prod.fst := by
  -- Both make the first step before they look where it led.
  induction fuel generalizing e with
  | zero => rfl
  | succ fuel ih =>
    rw [Engine.stepLine, Engine.runWith, Engine.runToCompletion, ih]
    cases hh : e.step.state.isHalted with
    | true => rfl
    | false => cases hl : e.step.atLine <;> simp [betweenLines, hl, Engine.runWith]

theorem betweenLines_answer (e : Engine) (n : Nat) :
    betweenLines.answer () e n = !(Engine.step^[n] e).atLine := rfl

/-- The scheduler between lines ends at the first stop. -/
theorem betweenLines_endsAt (e : Engine) (k : Nat) :
    betweenLines.EndsAt () e k ↔ e.StopsFirst k := by
  have hstop (n : Nat) : (Engine.step^[n] e).AtStop ↔
      (Engine.step^[n] e).state.isHalted = true ∨ betweenLines.answer () e n = false := by
    rw [atStop_iff, betweenLines_answer, Bool.not_eq_false']
  constructor
  · intro h
    refine ⟨h.positive, ?_, (hstop k).mpr h.ends⟩
    intro j hj hjk
    rw [hstop, not_or, Bool.not_eq_true, Bool.not_eq_false]
    exact h.goes_on j hj hjk
  · intro h
    refine ⟨h.positive, ?_, (hstop k).mp h.stops⟩
    intro j hj hjk
    have hpass := h.passes j hj hjk
    rwa [hstop, not_or, Bool.not_eq_true, Bool.not_eq_false] at hpass

/-- A line step within its fuel returns the engine at the first stop. -/
theorem stepLine_iff (fuel : Nat) (e e' : Engine) :
    e.stepLine fuel = some e' ↔ ∃ k ≤ fuel, e.StopsFirst k ∧ e' = Engine.step^[k] e := by
  rw [stepLine_eq_runWith, Option.map_eq_some_iff]
  constructor
  · rintro ⟨⟨e', host⟩, h, rfl⟩
    obtain ⟨k, hk, hend, he, -⟩ := (runToCompletion_iff _ _ fuel () e e' host).mp h
    exact ⟨k, hk, (betweenLines_endsAt e k).mp hend, he⟩
  · rintro ⟨k, hk, hfirst, rfl⟩
    exact ⟨(_, ()), (runToCompletion_iff _ _ fuel () e _ ()).mpr
      ⟨k, hk, (betweenLines_endsAt e k).mpr hfirst, rfl, rfl⟩, rfl⟩

theorem stopsFirst_unique (e : Engine) (k k' : Nat) (h : e.StopsFirst k) (h' : e.StopsFirst k') :
    k = k' := by
  by_contra hne
  rcases Nat.lt_or_gt_of_ne hne with hlt | hlt
  · exact h'.passes k h.positive hlt h.stops
  · exact h.passes k' h'.positive hlt h'.stops

/-- If some step leads to a stop, there is a first one. -/
theorem exists_stopsFirst (e : Engine) (n : Nat) (hn : 1 ≤ n) (h : (Engine.step^[n] e).AtStop) :
    ∃ k ≤ n, e.StopsFirst k := by
  induction n using Nat.strongRecOn with
  | ind n ih =>
    by_cases hearlier : ∃ j, 1 ≤ j ∧ j < n ∧ (Engine.step^[j] e).AtStop
    · obtain ⟨j, hj, hjn, hstop⟩ := hearlier
      obtain ⟨k, hk, hfirst⟩ := ih j hjn hj hstop
      exact ⟨k, by omega, hfirst⟩
    · refine ⟨n, Nat.le_refl n, hn, ?_, h⟩
      intro j hj hjn hstop
      exact hearlier ⟨j, hj, hjn, hstop⟩

/-- Stepping by lines takes the least number of steps, one at least, to a halt or to an instruction from
source text. If there is such a number, the call returns as soon as it is allowed that many steps, with the
engine exactly as they leave it; and it never returns, however many steps it is allowed, if and only if no
number of steps leads there. -/
theorem stepLine_least (e : Engine) :
    (∀ k, e.StopsFirst k →
      ∀ fuel, e.stepLine fuel = if k ≤ fuel then some (Engine.step^[k] e) else none) ∧
    ((∀ fuel, e.stepLine fuel = none) ↔ ¬∃ k, e.StopsFirst k) ∧
    ((∀ fuel, e.stepLine fuel = none) ↔ ∀ n, 1 ≤ n → ¬(Engine.step^[n] e).AtStop) := by
  have hnever : (∀ fuel, e.stepLine fuel = none) ↔ ¬∃ k, e.StopsFirst k := by
    constructor
    · rintro hnone ⟨k, hfirst⟩
      have hsome := (stepLine_iff k e _).mpr ⟨k, Nat.le_refl k, hfirst, rfl⟩
      rw [hnone k] at hsome
      contradiction
    · intro hno fuel
      rw [Option.eq_none_iff_forall_ne_some]
      intro e' he
      obtain ⟨k, -, hfirst, -⟩ := (stepLine_iff fuel e e').mp he
      exact hno ⟨k, hfirst⟩
  refine ⟨?_, hnever, hnever.trans ?_⟩
  · intro k hfirst fuel
    split_ifs with hk
    · exact (stepLine_iff fuel e _).mpr ⟨k, hk, hfirst, rfl⟩
    · rw [Option.eq_none_iff_forall_ne_some]
      intro e' he
      obtain ⟨k', hk', hfirst', -⟩ := (stepLine_iff fuel e e').mp he
      rw [stopsFirst_unique e k k' hfirst hfirst'] at hk
      exact hk hk'
  · constructor
    · intro hno n hn hstop
      obtain ⟨k, -, hfirst⟩ := exists_stopsFirst e n hn hstop
      exact hno ⟨k, hfirst⟩
    · rintro hall ⟨k, hfirst⟩
      exact hall k hfirst.positive hfirst.stops

-- Three instructions of which the second does not come from source text, and a jump to itself behind them,
-- which does not either.
def scarceLines : Module where
  name := "main"
  instructions :=
    [⟨.nullary .nop, [], some ⟨1, 1, 3⟩⟩, ⟨.nullary .nop, [], none⟩,
      ⟨.nullary .nop, [], some ⟨2, 1, 3⟩⟩,
      ⟨.binary .mov (.register .xx) (.immediate 0x0040000c), [], none⟩]
  literals := []
  exports := []
  imports := []
  isEntry := true

def scarceLinesJump : LoadedInstruction :=
  ⟨0x0040000c, 0x00400010, .binary .mov (.register .xx) (.immediate 0x0040000c), none⟩

-- An engine that stands at the jump.
structure Engine.AtJump (e : Engine) : Prop where
  goes_on : e.state.isHalted = false
  program : e.program = some (link [scarceLines]).program
  fetched : (link [scarceLines]).program.fetch? e.machine.cpu.nx = some scarceLinesJump
  no_trap : Trap.at? e.machine.cpu.nx = none

theorem atJump_of_nx (e : Engine) (hh : e.state.isHalted = false)
    (hp : e.program = some (link [scarceLines]).program) (hnx : e.machine.cpu.nx = 0x0040000c) :
    e.AtJump where
  goes_on := hh
  program := hp
  fetched := by
    rw [hnx]
    decide +kernel
  no_trap := by
    rw [hnx]
    rfl

theorem atJump_step (e : Engine) (h : e.AtJump) : e.step.AtJump := by
  rw [step_of_stepped e _ (.moved _ _ _ h.goes_on h.program h.no_trap h.fetched rfl rfl)]
  exact atJump_of_nx _ rfl h.program rfl

theorem not_atStop_of_atJump (e : Engine) (h : e.AtJump) : ¬e.AtStop := by
  rintro (hh | ⟨p, i, s, hp, hi, hs⟩)
  · exact absurd (h.goes_on.symm.trans hh) (by decide)
  · obtain rfl := Option.some.inj (h.program.symm.trans hp)
    obtain rfl := Option.some.inj (h.fetched.symm.trans hi)
    contradiction

/-- From the first instruction the second one is passed over. From the third one the jump is reached and
never left. -/
theorem scarceLines_stepped :
    let e := (Engine.start {} (.seeded 0)).load (link [scarceLines]).program
    e.StopsFirst 2 ∧ e.stepLine 1 = none ∧ e.stepLine 2 = some (Engine.step^[2] e) ∧
      ∀ fuel, (Engine.step^[2] e).stepLine fuel = none := by
  intro e
  have hfirst : e.StopsFirst 2 := by
    refine ⟨by decide, ?_, ?_⟩
    · intro j hj hj2
      obtain rfl : j = 1 := by omega
      rw [atStop_iff]
      decide +kernel
    · rw [atStop_iff]
      decide +kernel
  have hjump : (Engine.step^[3] e).AtJump := by
    have hp : (Engine.step^[3] e).program = e.program := by
      simp only [Function.iterate_succ_apply', step_program, Function.iterate_zero_apply]
    exact atJump_of_nx _ (by decide +kernel) hp (by decide +kernel)
  -- Nothing is evaluated from here on.
  clear_value e
  have hspins (n : Nat) : (Engine.step^[n] (Engine.step^[3] e)).AtJump := by
    induction n with
    | zero => exact hjump
    | succ n ih =>
      rw [Function.iterate_succ_apply']
      exact atJump_step _ ih
  obtain ⟨hreturns, -, -⟩ := stepLine_least e
  obtain ⟨-, -, hnever⟩ := stepLine_least (Engine.step^[2] e)
  refine ⟨hfirst, hreturns 2 hfirst 1, hreturns 2 hfirst 2, hnever.mpr ?_⟩
  intro n hn
  obtain ⟨k, rfl⟩ := Nat.exists_eq_add_of_le' hn
  have hk := hspins k
  rw [← Function.iterate_add_apply] at hk ⊢
  exact not_atStop_of_atJump _ hk

end PagedMachine
