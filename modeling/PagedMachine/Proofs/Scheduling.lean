import Mathlib.Logic.Function.Iterate
import PagedMachine.Proofs.Lifecycle
import PagedMachine.Session

/-! Runs under a scheduler are runs of plain steps. Whoever decides when to pause, and however often a run
is paused and taken up again, the engine is the one that some number of steps leads to; the number and
all calls to the host are determined by the steps alone. -/
namespace PagedMachine

theorem iterate_step_halted (e : Engine) (h : e.state.isHalted = true) (n : Nat) :
    Engine.step^[n] e = e :=
  Function.iterate_fixed (step_halted e h) n

/-- Once halted, further steps change nothing. -/
theorem iterate_step_after_halt (e : Engine) (n m : Nat)
    (h : (Engine.step^[n] e).state.isHalted = true) :
    Engine.step^[n + m] e = Engine.step^[n] e := by
  rw [Nat.add_comm, Function.iterate_add_apply]
  exact iterate_step_halted _ h m

/-- A logged run takes one step more than its budget. -/
theorem runLogged_engine (n : Nat) (e : Engine) (log : Array Event) :
    (e.runLogged n log).1 = Engine.step^[n + 1] e := by
  -- The budget shrinks while the engine and its log move on.
  induction n generalizing e log with
  | zero =>
    rw [Engine.runLogged]
    split_ifs <;> rfl
  | succ n ih =>
    rw [Engine.runLogged, Function.iterate_succ_apply]
    split_ifs with hh
    · exact (iterate_step_halted _ hh (n + 1)).symm
    · exact ih _ _

/-- A limited run takes as many steps as its limit. -/
theorem runLimited_engine (e : Engine) (n : Nat) :
    (e.runLimited (some n)).1 = Engine.step^[n] e := by
  cases n with
  | zero => rfl
  | succ n => exact runLogged_engine n e #[]

/-- A budget allows as many steps as it counts, after the one that comes before any question. -/
theorem stepBudget_engine (onHalt : Nat → Engine → Nat) (n : Nat) (e : Engine) :
    (e.runToCompletion stepBudget onHalt (n + 1) n).map Prod.fst = some (Engine.step^[n + 1] e) := by
  induction n generalizing e with
  | zero =>
    simp only [Engine.runToCompletion]
    split_ifs <;> rfl
  | succ n ih =>
    rw [Engine.runToCompletion, Function.iterate_succ_apply]
    split_ifs with hh
    · rw [iterate_step_halted _ hh]
      rfl
    · exact ih e.step

-- What a scheduler remembers after it has been asked after each of the first `n` steps.
def Scheduler.memoAfter {σ : Type} (s : Scheduler σ) (memo : σ) (e : Engine) : Nat → σ
  | 0 => memo
  | n + 1 => (s.resume (s.memoAfter memo e n) (Engine.step^[n + 1] e)).2

-- What a scheduler answers after the `n`th step, if it has been asked after each step before it.
def Scheduler.answer {σ : Type} (s : Scheduler σ) (memo : σ) (e : Engine) (n : Nat) : Bool :=
  (s.resume (s.memoAfter memo e (n - 1)) (Engine.step^[n] e)).1

-- The `k`th step is the first one after which the run is over or the scheduler declines.
structure Scheduler.EndsAt {σ : Type} (s : Scheduler σ) (memo : σ) (e : Engine) (k : Nat) : Prop where
  positive : 1 ≤ k
  goes_on : ∀ j, 1 ≤ j → j < k →
    (Engine.step^[j] e).state.isHalted = false ∧ s.answer memo e j = true
  ends : (Engine.step^[k] e).state.isHalted = true ∨ s.answer memo e k = false

-- What the calls of a run of `k` steps leave behind: the host is called at the end if the engine has halted,
-- and otherwise the last call was a question.
def Scheduler.hostAfter {σ : Type} (s : Scheduler σ) (onHalt : σ → Engine → σ) (host : σ) (e : Engine)
    (k : Nat) : σ :=
  if (Engine.step^[k] e).state.isHalted then
    onHalt (s.memoAfter host e (k - 1)) (Engine.step^[k] e)
  else s.memoAfter host e k

section Consultation

variable {σ : Type} (s : Scheduler σ)

-- The first question may as well be taken as the start of a shorter run.
theorem memoAfter_succ (memo : σ) (e : Engine) (n : Nat) :
    s.memoAfter memo e (n + 1) = s.memoAfter (s.resume memo e.step).2 e.step n := by
  induction n with
  | zero => rfl
  | succ n ih => rw [Scheduler.memoAfter, ih, Function.iterate_succ_apply, Scheduler.memoAfter]

theorem answer_succ (memo : σ) (e : Engine) (n : Nat) (hn : 1 ≤ n) :
    s.answer memo e (n + 1) = s.answer (s.resume memo e.step).2 e.step n := by
  obtain ⟨k, rfl⟩ := Nat.exists_eq_add_of_le' hn
  simp only [Scheduler.answer, Nat.add_sub_cancel, memoAfter_succ, Function.iterate_succ_apply]

theorem hostAfter_succ (onHalt : σ → Engine → σ) (host : σ) (e : Engine) (k : Nat) (hk : 1 ≤ k) :
    s.hostAfter onHalt host e (k + 1) =
      s.hostAfter onHalt (s.resume host e.step).2 e.step k := by
  obtain ⟨n, rfl⟩ := Nat.exists_eq_add_of_le' hk
  simp only [Scheduler.hostAfter, Nat.add_sub_cancel, memoAfter_succ, Function.iterate_succ_apply]

/-- A first step that halts, or that the scheduler lets nothing follow, is the last one. -/
theorem endsAt_first (memo : σ) (e : Engine) (k : Nat)
    (h : e.step.state.isHalted = true ∨ (s.resume memo e.step).1 = false) :
    s.EndsAt memo e k ↔ k = 1 := by
  constructor
  · intro hk
    by_contra hne
    have hpos := hk.positive
    obtain ⟨hh, ha⟩ := hk.goes_on 1 (Nat.le_refl 1) (by omega)
    rcases h with h | h
    · exact absurd (hh.symm.trans h) (by decide)
    · exact absurd (h.symm.trans ha) (by decide)
  · rintro rfl
    refine ⟨Nat.le_refl 1, ?_, h⟩
    intro j hj hj1
    omega

/-- A run that goes on after its first step ends where the rest of it does. -/
theorem endsAt_succ (memo : σ) (e : Engine) (k : Nat) (hh : e.step.state.isHalted = false)
    (ha : (s.resume memo e.step).1 = true) :
    s.EndsAt memo e (k + 1) ↔ s.EndsAt (s.resume memo e.step).2 e.step k := by
  constructor
  · intro h
    -- The first step is none to end at, so there is another one.
    have hk : 1 ≤ k := by
      by_contra hk
      obtain rfl : k = 0 := by omega
      rcases h.ends with hend | hend
      · exact absurd (hh.symm.trans hend) (by decide)
      · exact absurd (hend.symm.trans ha) (by decide)
    refine ⟨hk, ?_, ?_⟩
    · intro j hj hjk
      have hstep := h.goes_on (j + 1) (by omega) (by omega)
      rwa [answer_succ s memo e j hj, Function.iterate_succ_apply] at hstep
    · have hend := h.ends
      rwa [answer_succ s memo e k hk, Function.iterate_succ_apply] at hend
  · intro h
    refine ⟨by omega, ?_, ?_⟩
    · intro j hj hjk
      obtain ⟨i, rfl⟩ := Nat.exists_eq_add_of_le' hj
      rcases Nat.eq_zero_or_pos i with rfl | hpos
      · exact ⟨hh, ha⟩
      · rw [answer_succ s memo e i hpos, Function.iterate_succ_apply]
        exact h.goes_on i hpos (by omega)
    · rw [answer_succ s memo e k h.positive, Function.iterate_succ_apply]
      exact h.ends

/-- A run ends with the step that halts or that the scheduler refuses to follow. -/
theorem runToCompletion_last (onHalt : σ → Engine → σ) (fuel : Nat) (host : σ) (e : Engine)
    (h : e.step.state.isHalted = true ∨ (s.resume host e.step).1 = false) :
    e.runToCompletion s onHalt (fuel + 1) host =
      some (e.step, s.hostAfter onHalt host e 1) := by
  have hhost : s.hostAfter onHalt host e 1 =
      if e.step.state.isHalted then onHalt host e.step else (s.resume host e.step).2 := rfl
  rw [Engine.runToCompletion, hhost]
  cases hh : e.step.state.isHalted with
  | true => rfl
  | false =>
    have ha : (s.resume host e.step).1 = false := by simpa [hh] using h
    rcases hr : s.resume host e.step with ⟨goesOn, memo⟩
    rw [hr] at ha
    cases ha
    rfl

theorem runToCompletion_next (onHalt : σ → Engine → σ) (fuel : Nat) (host : σ) (e : Engine)
    (hh : e.step.state.isHalted = false) (ha : (s.resume host e.step).1 = true) :
    e.runToCompletion s onHalt (fuel + 1) host =
      e.step.runToCompletion s onHalt fuel (s.resume host e.step).2 := by
  rw [Engine.runToCompletion, if_neg (Bool.eq_false_iff.mp hh)]
  rcases hr : s.resume host e.step with ⟨goesOn, memo⟩
  rw [hr] at ha
  cases ha
  rfl

/-- A run returns exactly if it ends within the fuel, and then with the engine and the host that its
steps lead to. -/
theorem runToCompletion_iff (onHalt : σ → Engine → σ) (fuel : Nat) (host : σ) (e e' : Engine)
    (host' : σ) :
    e.runToCompletion s onHalt fuel host = some (e', host') ↔
      ∃ k ≤ fuel, s.EndsAt host e k ∧ e' = Engine.step^[k] e ∧
        host' = s.hostAfter onHalt host e k := by
  induction fuel generalizing host e with
  | zero =>
    simp only [Engine.runToCompletion, reduceCtorEq, false_iff, not_exists, not_and]
    intro k hk hend
    have hpos := hend.positive
    omega
  | succ fuel ih =>
    by_cases hlast : e.step.state.isHalted = true ∨ (s.resume host e.step).1 = false
    · simp only [runToCompletion_last s onHalt fuel host e hlast, endsAt_first s host e _ hlast,
        Option.some.injEq, Prod.mk.injEq]
      constructor
      · rintro ⟨rfl, rfl⟩
        exact ⟨1, by omega, rfl, rfl, rfl⟩
      · rintro ⟨k, -, rfl, rfl, rfl⟩
        exact ⟨rfl, rfl⟩
    · -- The rest of the run is shorter by the first step, and so is the number to end at.
      obtain ⟨hh, ha⟩ := not_or.mp hlast
      rw [Bool.not_eq_true] at hh
      rw [Bool.not_eq_false] at ha
      rw [runToCompletion_next s onHalt fuel host e hh ha, ih]
      constructor
      · rintro ⟨k, hk, hend, rfl, rfl⟩
        refine ⟨k + 1, by omega, (endsAt_succ s host e k hh ha).mpr hend, rfl, ?_⟩
        exact (hostAfter_succ s onHalt host e k hend.positive).symm
      · rintro ⟨k, hk, hend, rfl, rfl⟩
        obtain ⟨n, rfl⟩ := Nat.exists_eq_add_of_le' hend.positive
        have hrest := (endsAt_succ s host e n hh ha).mp hend
        exact ⟨n, by omega, hrest, rfl, hostAfter_succ s onHalt host e n hrest.positive⟩

end Consultation

-- What a host is called for during a run.
inductive HostCall where
  -- The scheduler was asked whether the run goes on.
  | asked (e : Engine)
  -- The host was given the finished engine.
  | finished (e : Engine)

-- A scheduler that keeps a list of the questions it was asked.
def Scheduler.recorded {σ : Type} (s : Scheduler σ) : Scheduler (σ × List HostCall) where
  resume host e :=
    ((s.resume host.1 e).1, (s.resume host.1 e).2, host.2 ++ [.asked e])

-- A host that puts the call at the end of a run on the list.
def recordedHalt {σ : Type} (onHalt : σ → Engine → σ) (host : σ × List HostCall) (e : Engine) :
    σ × List HostCall :=
  (onHalt host.1 e, host.2 ++ [.finished e])

-- The calls of a run of `k` steps: a question after each step that does not end the run, and then the
-- finished engine if there is one.
def Engine.hostCalls (e : Engine) (k : Nat) : List HostCall :=
  ((((List.range k).map fun j => Engine.step^[j + 1] e).filter fun x => !x.state.isHalted).map
      .asked)
    ++ if (Engine.step^[k] e).state.isHalted then [.finished (Engine.step^[k] e)] else []

section Recording

variable {σ : Type} (s : Scheduler σ)

/-- Recording asks the same questions and notes each. -/
theorem recorded_memoAfter (host : σ) (e : Engine) (n : Nat) :
    s.recorded.memoAfter (host, []) e n =
      (s.memoAfter host e n, (List.range n).map fun j => .asked (Engine.step^[j + 1] e)) := by
  induction n with
  | zero => rfl
  | succ n ih =>
    rw [Scheduler.memoAfter, ih, List.range_succ, List.map_append]
    rfl

theorem recorded_answer (host : σ) (e : Engine) (n : Nat) :
    s.recorded.answer (host, []) e n = s.answer host e n := by
  rw [Scheduler.answer, recorded_memoAfter]
  rfl

/-- Keeping a list changes nothing about where a run ends. -/
theorem recorded_endsAt (host : σ) (e : Engine) (k : Nat) :
    s.recorded.EndsAt (host, []) e k ↔ s.EndsAt host e k := by
  constructor
  · intro h
    refine ⟨h.positive, ?_, ?_⟩
    · intro j hj hjk
      exact recorded_answer s host e j ▸ h.goes_on j hj hjk
    · exact recorded_answer s host e k ▸ h.ends
  · intro h
    refine ⟨h.positive, ?_, ?_⟩
    · intro j hj hjk
      rw [recorded_answer]
      exact h.goes_on j hj hjk
    · rw [recorded_answer]
      exact h.ends

/-- The engine halts at most after the last step, so all questions but perhaps the last are asked. -/
theorem endsAt_hostCalls (host : σ) (e : Engine) (k : Nat) (h : s.EndsAt host e (k + 1)) :
    e.hostCalls (k + 1) =
      ((List.range k).map fun j => .asked (Engine.step^[j + 1] e)) ++
        if (Engine.step^[k + 1] e).state.isHalted then [.finished (Engine.step^[k + 1] e)]
        else [.asked (Engine.step^[k + 1] e)] := by
  have hkept : ((List.range k).map fun j => Engine.step^[j + 1] e).filter
      (fun x => !x.state.isHalted) = (List.range k).map fun j => Engine.step^[j + 1] e := by
    apply List.filter_eq_self.mpr
    intro x hx
    obtain ⟨j, hj, rfl⟩ := List.mem_map.mp hx
    have hjk := List.mem_range.mp hj
    rw [(h.goes_on (j + 1) (by omega) (by omega)).1]
    rfl
  -- Either the last step halts, and is told as finished, or it is the subject of a last question.
  have hlast (x : Engine) :
      ([x].filter fun x => !x.state.isHalted).map HostCall.asked ++
          (if x.state.isHalted then [.finished x] else []) =
        if x.state.isHalted then [.finished x] else [.asked x] := by
    cases hh : x.state.isHalted <;> simp [hh]
  rw [Engine.hostCalls, List.range_succ, List.map_append, List.filter_append, hkept,
    List.map_append, List.map_map, List.append_assoc]
  congr 1
  exact hlast (Engine.step^[k + 1] e)

theorem recorded_hostAfter (onHalt : σ → Engine → σ) (host : σ) (e : Engine) (k : Nat)
    (h : s.EndsAt host e k) :
    s.recorded.hostAfter (recordedHalt onHalt) (host, []) e k =
      (s.hostAfter onHalt host e k, e.hostCalls k) := by
  obtain ⟨n, rfl⟩ := Nat.exists_eq_add_of_le' h.positive
  rw [endsAt_hostCalls s host e n h, Scheduler.hostAfter, Scheduler.hostAfter, Nat.add_sub_cancel,
    recorded_memoAfter, recorded_memoAfter]
  cases hh : (Engine.step^[n + 1] e).state.isHalted with
  | true => rfl
  | false => simp [List.range_succ]

/-- A recorded run ends as the run does, with the calls made to the host. -/
theorem recorded_run_iff (onHalt : σ → Engine → σ) (fuel : Nat) (host : σ) (e e' : Engine) (host' : σ)
    (calls : List HostCall) :
    e.runToCompletion s.recorded (recordedHalt onHalt) fuel (host, []) = some (e', host', calls) ↔
      ∃ k ≤ fuel, s.EndsAt host e k ∧ e' = Engine.step^[k] e ∧
        host' = s.hostAfter onHalt host e k ∧ calls = e.hostCalls k := by
  simp only [runToCompletion_iff, recorded_endsAt]
  refine exists_congr fun k => and_congr_right fun _ => and_congr_right fun hend => ?_
  rw [recorded_hostAfter s onHalt host e k hend, Prod.mk.injEq]

end Recording

/-- Scheduling is transparent. A run that is limited to some number of steps leaves the engine as that
many steps do, of which those after a halt change nothing, and so limits add up; the limit is a budget of
one step less. Under any scheduler a run returns exactly if there is a first step after which the engine
has halted or the scheduler declines, and then with the engine as the steps up to that one leave it. The
scheduler is asked once after each step that does not end the run, the host is called exactly if the
engine has halted, and there are no other calls. -/
theorem scheduling_transparent (e : Engine) :
    (∀ n, (e.runLimited (some n)).1 = Engine.step^[n] e) ∧
    (∀ n m, (Engine.step^[n] e).state.isHalted = true →
      Engine.step^[n + m] e = Engine.step^[n] e) ∧
    (∀ n m, ((e.runLimited (some n)).1.runLimited (some m)).1 =
      (e.runLimited (some (n + m))).1) ∧
    (∀ onHalt n, (e.runToCompletion stepBudget onHalt (n + 1) n).map Prod.fst =
      some (e.runLimited (some (n + 1))).1) ∧
    ∀ (σ : Type) (s : Scheduler σ) (onHalt : σ → Engine → σ) (host : σ) (fuel : Nat) (e' : Engine)
      (host' : σ),
      (e.runToCompletion s onHalt fuel host = some (e', host') ↔
        ∃ k ≤ fuel, s.EndsAt host e k ∧ e' = Engine.step^[k] e ∧
          host' = s.hostAfter onHalt host e k) ∧
      ∀ calls,
        e.runToCompletion s.recorded (recordedHalt onHalt) fuel (host, []) =
            some (e', host', calls) ↔
          ∃ k ≤ fuel, s.EndsAt host e k ∧ e' = Engine.step^[k] e ∧
            host' = s.hostAfter onHalt host e k ∧ calls = e.hostCalls k := by
  refine ⟨runLimited_engine e, iterate_step_after_halt e, ?_, ?_, ?_⟩
  · intro n m
    rw [runLimited_engine, runLimited_engine, runLimited_engine, Nat.add_comm,
      Function.iterate_add_apply]
  · intro onHalt n
    rw [stepBudget_engine, runLimited_engine]
  · intro σ s onHalt host fuel e' host'
    exact ⟨runToCompletion_iff s onHalt fuel host e e' host',
      recorded_run_iff s onHalt fuel host e e' host'⟩

end PagedMachine
