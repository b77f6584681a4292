import Mathlib.Logic.Function.Iterate
import PagedMachine.Proofs.Acceptance
import PagedMachine.Proofs.Placement
import PagedMachine.Proofs.Lifecycle

/-! What stands behind the last instruction of a page. Behind it there is nothing to fetch, so that a run
which does not jump away faults there, unless the instructions fill their page to its last byte: then the
next page begins right behind them. -/
namespace PagedMachine

-- The instructions of a page fill it, and the next page begins with an instruction.
def Program.RunsOn (p : Program) (page : Page) : Prop :=
  page.instructions.size = instructionCapacity ∧
    ∃ next, p.page? (page.id + 1) = some next ∧ 0 < next.instructions.size

theorem pageBase_succ (id : Nat) : pageBase id + BitVec.ofNat 32 pageSize = pageBase (id + 1) := by
  rw [pageBase, pageBase, BitVec.add_assoc, ← BitVec.ofNat_add, Nat.succ_mul]

theorem layOut_size_le (m : Module) (id : Nat) :
    (m.layOut id).page.instructions.size ≤ instructionCapacity := by
  have hsize : (m.layOut id).page.instructions.size =
      (m.instructions.take instructionCapacity).length := by
    simp [Module.layOut, Module.placeInstructions]
  rw [hsize]
  exact List.length_take_le _ _

/-- The last instruction of a page is followed by the end of all of them. -/
theorem layOut_last_successor (m : Module) (id : Nat) (last : LoadedInstruction)
    (h : (m.layOut id).page.instructions.back? = some last) :
    last.successor = pageBase id +
      BitVec.ofNat 32 ((m.layOut id).page.instructions.size * instructionSize) := by
  rw [Array.back?_eq_getElem?] at h
  obtain ⟨hlt, -⟩ := Array.getElem?_eq_some_iff.mp h
  rw [layOut_getElem] at h
  obtain ⟨k, -, rfl⟩ := Option.map_eq_some_iff.mp h
  have hsize : ((m.layOut id).page.instructions.size - 1) * instructionSize + instructionSize =
      (m.layOut id).page.instructions.size * instructionSize := by
    rw [← Nat.succ_mul]
    congr 1
    omega
  rw [BitVec.add_assoc, ← BitVec.ofNat_add, hsize]

theorem link_page_none (modules : List Module) (id : Nat) (h : maxPage < id) :
    (link modules).program.page? id = none := by
  have hnone : moduleOn? modules id = none := by
    rw [Option.eq_none_iff_forall_ne_some]
    intro m hm
    have hle := moduleOn_le_maxPage modules id m hm
    omega
  rw [link_page, hnone, Option.map_none]

/-- At the base of a page stands its first instruction. -/
theorem layOut_fetch_base (m : Module) (id : Nat) :
    (m.layOut id).page.fetch? (pageBase id) = (m.layOut id).page.instructions[0]? := by
  have hbase : (m.layOut id).page.base = pageBase id := rfl
  rw [Page.fetch?, hbase, BitVec.sub_self]
  rfl

/-- Where a page begins, its first instruction is fetched, if there is such a page. -/
theorem link_fetch_pageBase (modules : List Module) (id : Nat) (hid : id ≤ maxPage + 1) :
    (link modules).program.fetch? (pageBase id) =
      ((link modules).program.page? id).bind (·.instructions[0]?) := by
  by_cases hlast : id = maxPage + 1
  · -- Behind the last page there is no page, and no trap either.
    have htrap : Trap.at? (pageBase id) = none := by
      rw [hlast]
      decide
    have hpage : pageOf? (pageBase id) = none := by
      rw [hlast]
      decide
    rw [fetch_beside_traps _ _ htrap, Program.pageAt?, hpage, link_page_none modules id (by omega),
      Option.bind_none, Option.bind_none, Option.bind_none]
  · have hpage : pageOf? (pageBase id) = some id := by
      have hon := pageOf_pageBase_add id 0 (by omega) (by decide)
      rwa [BitVec.add_zero] at hon
    rw [fetch_beside_traps _ _ (trap_at_none_of_pageOf _ id hpage), Program.pageAt?, hpage,
      Option.bind_some, link_page]
    cases moduleOn? modules id with
    | none => rw [Option.map_none, Option.bind_none, Option.bind_none]
    | some m =>
      rw [Option.map_some, Option.bind_some, Option.bind_some]
      exact layOut_fetch_base m id

/-- Behind the last instruction of a page nothing can be fetched as long as there is room on the page. If
there is none, what can be fetched is the first instruction of the next page. -/
theorem link_fetch_last_successor (modules : List Module) (page : Page) (last : LoadedInstruction)
    (hpage : page ∈ (link modules).program.pages) (hlast : page.instructions.back? = some last) :
    (link modules).program.fetch? last.successor =
      if page.instructions.size = instructionCapacity then
        ((link modules).program.page? (page.id + 1)).bind (·.instructions[0]?)
      else none := by
  obtain ⟨id, m, hid, hm, rfl⟩ := (mem_link_pages modules page).mp hpage
  have hsize := layOut_size_le m id
  rw [layOut_last_successor m id last hlast, layOut_id]
  split_ifs with hfull
  · have hend : instructionCapacity * instructionSize = pageSize := by decide
    rw [hfull, hend, pageBase_succ]
    exact link_fetch_pageBase modules (id + 1) (by omega)
  · have hoffset : (m.layOut id).page.instructions.size * instructionSize < pageSize := by
      simp only [instructionCapacity, instructionSize, pageSize] at *
      omega
    have hwrap : (m.layOut id).page.instructions.size * instructionSize < wordCount :=
      Nat.lt_trans hoffset (by decide)
    have hbase : (m.layOut id).page.base = pageBase id := rfl
    have hpos : 0 < instructionSize := by decide
    rw [link_fetch_on_page modules id m _ hm (pageOf_pageBase_add id _ hid hoffset), Page.fetch?,
      hbase, toNat_add_sub_self _ _ hwrap, Nat.mul_div_cancel _ hpos]
    simp

/-- Behind the last instruction of a page nothing is fetched unless the page is full and the next
one starts with an instruction. -/
theorem fetch_none_iff_not_runsOn (modules : List Module) (page : Page) (last : LoadedInstruction)
    (hpage : page ∈ (link modules).program.pages) (hlast : page.instructions.back? = some last) :
    (link modules).program.fetch? last.successor = none ↔
      ¬(link modules).program.RunsOn page := by
  rw [link_fetch_last_successor modules page last hpage hlast, Program.RunsOn]
  split_ifs with hfull
  · cases (link modules).program.page? (page.id + 1) with
    | none => simp
    | some next => simp [hfull]
  · simp [hfull]

/-- In a module that fits, the last instruction on the page is the last one of the module. -/
theorem layOut_last_instruction (m : Module) (id : Nat) (last : LoadedInstruction)
    (hfits : m.extent ≤ pageSize) (h : (m.layOut id).page.instructions.back? = some last) :
    m.instructions.getLast?.map (·.instruction) = some last.instruction := by
  have hall : (m.layOut id).page.instructions.toList.map (·.instruction) =
      m.instructions.map (·.instruction) := by
    rw [← (placed_all m (pageBase id) hfits).1]
    simp [Module.layOut]
  rw [← List.getLast?_map, ← hall, List.getLast?_map, Array.getLast?_toList, h, Option.map_some]

/-- An instruction of a page is fetched at its address, which is no trap. -/
theorem link_fetch_instruction (modules : List Module) (page : Page) (i : LoadedInstruction)
    (hpage : page ∈ (link modules).program.pages) (hi : i ∈ page.instructions) :
    (link modules).program.fetch? i.address = some i ∧ Trap.at? i.address = none := by
  refine ⟨(link_fetch modules i.address i).mpr (Or.inr ⟨page, hpage, hi, rfl⟩), ?_⟩
  obtain ⟨id, m, hid, -, rfl⟩ := (mem_link_pages modules page).mp hpage
  apply trap_at_none_of_pageOf _ id
  exact pageOf_item m id hid _ _ (instruction_mem_items _ i hi) (item_covers_start i)

/-- At a trap something is always fetched. -/
theorem trap_at_none_of_fetch_none (p : Program) (a : Address) (h : p.fetch? a = none) :
    Trap.at? a = none := by
  cases ht : Trap.at? a with
  | none => rfl
  | some t =>
    rw [Program.fetch?, ht] at h
    contradiction

/-- An instruction that leaves its successor in `xx`, where nothing can be fetched, is the last one that is
executed: the run faults on its next step and stays as it is then. -/
theorem run_off (p : Program) (e : Engine) (i : LoadedInstruction) (m : Machine)
    (hh : e.state.isHalted = false) (hp : e.program = some p)
    (ht : Trap.at? e.machine.cpu.nx = none) (hi : p.fetch? e.machine.cpu.nx = some i)
    (hx : i.instruction.execute p (e.staged i) = .ok () m) (hxx : m.cpu.xx = i.successor)
    (hs : p.fetch? i.successor = none) :
    e.step = e.counted.continued m i.span ∧
    ∀ n, Engine.step^[n + 2] e =
      (e.counted.continued m i.span).counted.fault (.invalidAddress i.successor) none := by
  have hn := trap_at_none_of_fetch_none p i.successor hs
  have hfirst : e.step = e.counted.continued m i.span :=
    step_of_stepped e _ (.moved p i m hh hp ht hi hx (hxx ▸ hn))
  have hnx : (e.counted.continued m i.span).machine.cpu.nx = i.successor := by
    rw [continued_nx, hxx]
  have hsecond : (e.counted.continued m i.span).step =
      (e.counted.continued m i.span).counted.fault (.invalidAddress i.successor) none := by
    rw [← hnx]
    apply step_of_stepped
    exact .unmapped p rfl hp (hnx ▸ hn) (hnx ▸ hs)
  refine ⟨hfirst, ?_⟩
  intro n
  rw [Function.iterate_add_apply, Function.iterate_succ_apply, Function.iterate_one, hfirst, hsecond]
  exact Function.iterate_fixed (step_halted _ rfl) n

/-- Falling off the end of a module is invalid unless the module fills its page with instructions and the
next page begins with one. Nothing can be fetched behind a last instruction exactly if it is not so; and
then a run that executes this instruction without changing `xx` halts on its next step with a fault that
names the address, and never goes on. -/
theorem falls_off_unless_runsOn (modules : List Module) (hr : (link modules).isRunnable = true)
    (page : Page) (hpage : page ∈ (link modules).program.pages) (last : LoadedInstruction)
    (hlast : page.instructions.back? = some last) :
    (∃ m, (page.id, m) ∈ assignPages modules ∧
      m.instructions.getLast?.map (·.instruction) = some last.instruction) ∧
    ((link modules).program.fetch? last.successor = none ↔
      ¬(link modules).program.RunsOn page) ∧
    (¬(link modules).program.RunsOn page →
      ∀ (e : Engine) (m : Machine), e.state.isHalted = false →
        e.program = some (link modules).program → e.machine.cpu.nx = last.address →
        last.instruction.execute (link modules).program (e.staged last) = .ok () m →
        m.cpu.xx = last.successor →
        e.step.state = .running ∧ e.step.machine.cpu.nx = last.successor ∧
        ∀ n, (Engine.step^[n + 2] e).state = .halted .error ∧
          (Engine.step^[n + 2] e).faults = e.faults.push ⟨.invalidAddress last.successor, none⟩ ∧
          (Engine.step^[n + 2] e).machine.cpu.nx = last.successor) := by
  have hnone := fetch_none_iff_not_runsOn modules page last hpage hlast
  refine ⟨?_, hnone, ?_⟩
  · obtain ⟨id, m, -, hm, rfl⟩ := (mem_link_pages modules page).mp hpage
    have hmem := moduleOn_mem modules id m ((mem_assignPages modules id m).mp hm)
    have hfits := ((linkable_of_isRunnable modules hr).tidy m hmem).fits
    exact ⟨m, hm, layOut_last_instruction m id last hfits hlast⟩
  · intro hoff e m hh hp hnx hx hxx
    obtain ⟨hfetch, htrap⟩ :=
      link_fetch_instruction modules page last hpage (Array.mem_of_back? hlast)
    obtain ⟨hstep, hrun⟩ := run_off (link modules).program e last m hh hp (hnx ▸ htrap) (hnx ▸ hfetch)
      hx hxx (hnone.mpr hoff)
    have hat : (e.counted.continued m last.span).machine.cpu.nx = last.successor := by
      rw [continued_nx, hxx]
    refine ⟨hstep ▸ rfl, hstep ▸ hat, ?_⟩
    intro n
    rw [hrun n]
    exact ⟨rfl, rfl, hat⟩

def nops (name : String) (n : Nat) (isEntry : Bool) : Module where
  name
  instructions := List.replicate n ⟨.nullary .nop, [], none⟩
  literals := []
  exports := []
  imports := []
  isEntry

theorem nops_falls_off :
    (link [nops "main" 1 true]).isRunnable = true ∧
    ∃ page ∈ (link [nops "main" 1 true]).program.pages, ∃ last,
      page.instructions.back? = some last ∧
      ¬(link [nops "main" 1 true]).program.RunsOn page ∧
      (link [nops "main" 1 true]).program.fetch? last.successor = none ∧
      (Engine.step^[2]
          ((Engine.start {} (.seeded 0)).load (link [nops "main" 1 true]).program)).faults =
        #[⟨.invalidAddress last.successor, none⟩] := by
  have hr : (link [nops "main" 1 true]).isRunnable = true := by decide +kernel
  let page := ((nops "main" 1 true).layOut 0).page
  let last : LoadedInstruction := ⟨pageBase 0, pageBase 0 + 4, .nullary .nop, none⟩
  have hpage : page ∈ (link [nops "main" 1 true]).program.pages :=
    (mem_link_pages _ page).mpr ⟨0, nops "main" 1 true, Nat.zero_le _, List.mem_cons_self, rfl⟩
  have hlast : page.instructions.back? = some last := rfl
  have hoff : ¬(link [nops "main" 1 true]).program.RunsOn page := by
    intro h
    exact absurd h.1 (by decide)
  obtain ⟨-, hnone, hrun⟩ := falls_off_unless_runsOn _ hr page hpage last hlast
  let e := (Engine.start {} (.seeded 0)).load (link [nops "main" 1 true]).program
  obtain ⟨-, -, hfault⟩ := hrun hoff e (e.staged last) rfl rfl rfl rfl rfl
  exact ⟨hr, page, hpage, last, hlast, hoff, hnone.mpr hoff, (hfault 0).2.1⟩

theorem nops_tidy (name : String) (n : Nat) (isEntry : Bool) (h : n ≤ instructionCapacity) :
    (nops name n isEntry).Tidy where
  fits := by
    have hextent : (nops name n isEntry).extent = n * instructionSize := by
      simp [Module.extent, nops]
    rw [hextent]
    simp only [instructionCapacity, instructionSize, pageSize] at h ⊢
    omega
  labels_nodup := by
    have hlabels : (nops name n isEntry).definedLabels = [] := by
      simp [nops, Module.definedLabels, List.flatMap_eq_nil_iff]
    rw [hlabels]
    exact List.nodup_nil
  imports_foreign := by simp [nops]
  exports_defined := by simp [nops]

theorem nops_size (name : String) (n id : Nat) (isEntry : Bool) (h : n ≤ instructionCapacity) :
    ((nops name n isEntry).layOut id).page.instructions.size = n := by
  simp [nops, Module.layOut, Module.placeInstructions, h]

def nopAt (a : Address) : LoadedInstruction :=
  ⟨a, a + BitVec.ofNat 32 instructionSize, .nullary .nop, none⟩

theorem nops_getElem (name : String) (n id k : Nat) (isEntry : Bool) (h : n ≤ instructionCapacity)
    (hk : k < n) :
    ((nops name n isEntry).layOut id).page.instructions[k]? =
      some (nopAt (pageBase id + BitVec.ofNat 32 (k * instructionSize))) := by
  rw [layOut_getElem]
  simp [nops, nopAt, hk, Nat.lt_of_lt_of_le hk h]

theorem nops_back (name : String) (n id : Nat) (isEntry : Bool) (h : n ≤ instructionCapacity)
    (hn : 0 < n) :
    ((nops name n isEntry).layOut id).page.instructions.back? =
      some (nopAt (pageBase id + BitVec.ofNat 32 ((n - 1) * instructionSize))) := by
  rw [Array.back?_eq_getElem?, nops_size name n id isEntry h]
  exact nops_getElem name n id (n - 1) isEntry h (by omega)

theorem step_nop (p : Program) (e : Engine) (a : Address) (hh : e.state.isHalted = false)
    (hp : e.program = some p) (ha : e.machine.cpu.nx = a) (ht : Trap.at? a = none)
    (hi : p.fetch? a = some (nopAt a)) (hs : Trap.at? (nopAt a).successor = none) :
    e.step = e.counted.continued (e.staged (nopAt a)) none := by
  subst ha
  exact step_of_stepped e _ (.moved p (nopAt e.machine.cpu.nx) _ hh hp ht hi rfl hs)

-- Two modules of which the first fills its page.
def fullPage : List Module :=
  [nops "main" instructionCapacity true, nops "next" 1 false]

theorem fullPage_linkable : Linkable fullPage where
  one_entry := rfl
  enough_pages := by decide
  tidy := by
    intro m hm
    simp only [fullPage, List.mem_cons, List.not_mem_nil, or_false] at hm
    rcases hm with rfl | rfl
    · exact nops_tidy _ _ _ (Nat.le_refl _)
    · exact nops_tidy _ _ _ (by decide)
  exports_nodup := List.nodup_nil
  imports_exported := by simp [fullPage, nops]

theorem fullPage_last :
    ∃ page ∈ (link fullPage).program.pages, page.id = 0 ∧
      ∃ a, page.instructions.back? = some (nopAt a) ∧ (nopAt a).successor = pageBase 1 := by
  have hsize := nops_size "main" instructionCapacity 0 true (Nat.le_refl _)
  have hlast := nops_back "main" instructionCapacity 0 true (Nat.le_refl _) (by decide)
  refine ⟨_, (mem_link_pages fullPage _).mpr ⟨0, _, Nat.zero_le _, List.mem_cons_self, rfl⟩,
    layOut_id _ 0, _, hlast, ?_⟩
  -- The end of a full page is the base of the next one.
  have hend : instructionCapacity * instructionSize = pageSize := by decide
  rw [layOut_last_successor _ 0 _ hlast, hsize, hend, pageBase_succ]

theorem fullPage_next :
    ∃ page ∈ (link fullPage).program.pages, page.id = 1 ∧
      nopAt (pageBase 1) ∈ page.instructions := by
  have hfirst := nops_getElem "next" 1 1 0 false (by decide) (by decide)
  exact ⟨_, (mem_link_pages fullPage _).mpr
    ⟨1, _, by decide, List.mem_cons_of_mem _ List.mem_cons_self, rfl⟩, layOut_id _ 1,
    Array.mem_of_getElem? hfirst⟩

/-- A last instruction at the end of a full page is followed by the next module: its successor can be
fetched, and a run goes on there. -/
theorem fullPage_runs_on :
    (link fullPage).isRunnable = true ∧
    ∃ page ∈ (link fullPage).program.pages, ∃ next ∈ (link fullPage).program.pages,
      page.id ≠ next.id ∧
      ∃ last first, page.instructions.back? = some last ∧ first ∈ next.instructions ∧
        (link fullPage).program.fetch? last.successor = some first ∧
        ∀ e : Engine, e.state.isHalted = false → e.program = some (link fullPage).program →
          e.machine.cpu.nx = last.address →
          (Engine.step^[2] e).state = .running ∧ (Engine.step^[2] e).faults = e.faults := by
  have hr := isRunnable_of_linkable fullPage fullPage_linkable
  obtain ⟨page, hpage, hid, a, hlast, hsuccessor⟩ := fullPage_last
  obtain ⟨next, hnext, hid', hfirst⟩ := fullPage_next
  obtain ⟨hfetch, htrap⟩ :=
    link_fetch_instruction fullPage page (nopAt a) hpage (Array.mem_of_back? hlast)
  obtain ⟨hfetch', htrap'⟩ :=
    link_fetch_instruction fullPage next (nopAt (pageBase 1)) hnext hfirst
  generalize (link fullPage).program = p at hpage hnext hfetch hfetch' ⊢
  refine ⟨hr, page, hpage, next, hnext, by omega, nopAt a, nopAt (pageBase 1), hlast, hfirst,
    hsuccessor ▸ hfetch', ?_⟩
  intro e hh hp hnx
  have hstep := step_nop p e a hh hp hnx htrap hfetch (hsuccessor ▸ htrap')
  have hstep' := step_nop p (e.counted.continued (e.staged (nopAt a)) none) (pageBase 1) rfl hp
    hsuccessor htrap' hfetch' (by decide)
  rw [Function.iterate_succ_apply, Function.iterate_one, hstep, hstep']
  simp only [Engine.continued, Engine.counted, collectWarnings_state, collectWarnings_faults,
    and_self]

end PagedMachine
