import Mathlib.Data.List.Induction
import PagedMachine.Proofs.Draft

/-! What a sequence of directives amounts to. Labels go to the item that follows them, spans to the instruction
that follows them, and a name is shared once however often it is declared. Both sides are compared after every
directive, so that the module, or the reason why there is none, can be read off the sequence. -/
namespace PagedMachine

-- Whether a directive appends something that labels can be bound to.
def Directive.isItem : Directive → Bool
  | .instruction _ | .literal _ _ => true
  | _ => false

def Directive.isInstruction : Directive → Bool
  | .instruction _ => true
  | _ => false

def Directive.label? : Directive → Option Label
  | .label l => some l
  | _ => none

def Directive.span? : Directive → Option Span
  | .span s => some s
  | _ => none

def Directive.import? : Directive → Option Label
  | .imports l => some l
  | _ => none

def Directive.export? : Directive → Option Label
  | .exports l => some l
  | _ => none

def Directive.instruction? : Directive → Option Instruction
  | .instruction i => some i
  | _ => none

def Directive.literal? : Directive → Option (Literal × Width)
  | .literal v w => some (v, w)
  | _ => none

-- The position of the first directive of a kind behind a position.
def follower? (kind : Directive → Bool) (ds : List Directive) (n : Nat) : Option Nat :=
  ((ds.drop (n + 1)).findIdx? kind).map (· + (n + 1))

-- What the directives have for a target, in their order: each of them speaks to its follower, or to nothing
-- if no directive of the kind follows.
def awaiting {α : Type} (kind : Directive → Bool) (pick : Directive → Option α) (ds : List Directive)
    (target : Option Nat) : List α :=
  ds.zipIdx.filterMap fun q => if follower? kind ds q.2 = target then pick q.1 else none

-- The labels whose next item stands at a position, or which no item follows.
def labelsFor (ds : List Directive) (target : Option Nat) : List Label :=
  awaiting Directive.isItem Directive.label? ds target

-- The spans whose next instruction stands at a position, or which no instruction follows.
def spansFor (ds : List Directive) (target : Option Nat) : List Span :=
  awaiting Directive.isInstruction Directive.span? ds target

-- The instructions in the order of their directives. Of several spans the last one counts.
def draftedInstructions (ds : List Directive) : List LabeledInstruction :=
  ds.zipIdx.filterMap fun q =>
    q.1.instruction?.map (⟨·, labelsFor ds (some q.2), (spansFor ds (some q.2)).getLast?⟩)

def draftedLiterals (ds : List Directive) : List LabeledLiteral :=
  ds.zipIdx.filterMap fun q => q.1.literal?.map fun v => ⟨v.1, v.2, labelsFor ds (some q.2)⟩

-- The module that directives describe, if they describe one.
def drafted (name : String) (ds : List Directive) : Module where
  name
  instructions := draftedInstructions ds
  literals := draftedLiterals ds
  exports := (ds.filterMap (·.export?)).eraseDups
  imports := (ds.filterMap (·.import?)).eraseDups
  isEntry := ds.contains .entry

/-! One directive more. -/

section Snoc

variable (kind : Directive → Bool) (ds : List Directive) (x : Directive)

theorem follower_snoc (n : Nat) (h : n < ds.length) :
    follower? kind (ds ++ [x]) n =
      (follower? kind ds n).or (if kind x = true then some ds.length else none) := by
  have hdrop : (ds ++ [x]).drop (n + 1) = ds.drop (n + 1) ++ [x] := List.drop_append_of_le_length h
  have hlast : (([x].findIdx? kind).map (· + (ds.drop (n + 1)).length)).map (· + (n + 1)) =
      if kind x = true then some ds.length else none := by
    rw [List.length_drop, List.findIdx?_singleton]
    split_ifs
    · simp only [Option.map_some, Option.some.injEq]
      omega
    · rfl
  rw [follower?, hdrop, List.findIdx?_append, Option.map_or, hlast]
  rfl

theorem follower_last : follower? kind (ds ++ [x]) ds.length = none := by
  simp [follower?]

theorem follower_lt (n k : Nat) (h : follower? kind ds n = some k) : k < ds.length := by
  obtain ⟨i, hi, rfl⟩ := Option.map_eq_some_iff.mp h
  obtain ⟨hlt, -⟩ := List.findIdx?_eq_some_iff_getElem.mp hi
  rw [List.length_drop] at hlt
  omega

variable {α : Type} (pick : Directive → Option α)

theorem awaiting_snoc (target : Option Nat) :
    awaiting kind pick (ds ++ [x]) target =
      (ds.zipIdx.filterMap fun q =>
        if (follower? kind ds q.2).or (if kind x = true then some ds.length else none) = target
        then pick q.1 else none)
      ++ if target = none then (pick x).toList else [] := by
  rw [awaiting, List.zipIdx_append, List.filterMap_append]
  congr 1
  · apply List.filterMap_congr
    intro q hq
    rw [follower_snoc kind ds x q.2 (List.snd_lt_of_mem_zipIdx hq)]
  · simp only [Nat.zero_add, List.zipIdx_singleton, List.filterMap_cons, List.filterMap_nil,
      follower_last, eq_comm (a := target)]
    split_ifs
    · cases pick x <;> rfl
    · rfl

/-- An item takes everything that waits, and what it brings itself starts to wait. -/
theorem awaiting_snoc_none :
    awaiting kind pick (ds ++ [x]) none =
      (if kind x = true then [] else awaiting kind pick ds none) ++ (pick x).toList := by
  rw [awaiting_snoc, if_pos rfl]
  split_ifs
  · simp
  · simp [awaiting]

/-- What was awaited by nothing belongs to the directive added at the end. -/
theorem awaiting_snoc_last (h : kind x = true) :
    awaiting kind pick (ds ++ [x]) (some ds.length) = awaiting kind pick ds none := by
  simp only [awaiting_snoc, h, reduceCtorEq, ↓reduceIte, List.append_nil]
  apply List.filterMap_congr
  intro q _
  cases hf : follower? kind ds q.2 with
  | none => simp
  | some k =>
    have hlt := follower_lt kind ds q.2 k hf
    have hne : k ≠ ds.length := Nat.ne_of_lt hlt
    simp [hne]

theorem awaiting_snoc_some (k : Nat) (hk : k < ds.length) :
    awaiting kind pick (ds ++ [x]) (some k) = awaiting kind pick ds (some k) := by
  simp only [awaiting_snoc, reduceCtorEq, ↓reduceIte, List.append_nil]
  apply List.filterMap_congr
  intro q _
  cases hf : follower? kind ds q.2 with
  | none =>
    have hne : ds.length ≠ k := Nat.ne_of_gt hk
    split_ifs <;> simp_all
  | some j => simp

/-- What waits came last. -/
theorem awaiting_none_suffix : awaiting kind pick ds none <:+ ds.filterMap pick := by
  induction ds using List.reverseRecOn with
  | nil => exact List.suffix_refl _
  | append_singleton ds x ih =>
    have hlast : (ds ++ [x]).filterMap pick = ds.filterMap pick ++ (pick x).toList := by
      rw [List.filterMap_append]
      cases hx : pick x <;> simp [hx]
    rw [awaiting_snoc_none, hlast]
    split_ifs
    · exact List.suffix_append _ _
    · obtain ⟨front, hfront⟩ := ih
      exact ⟨front, by rw [← List.append_assoc, hfront]⟩

end Snoc

theorem labelsFor_snoc_some (ds : List Directive) (x : Directive) (k : Nat) (hk : k < ds.length) :
    labelsFor (ds ++ [x]) (some k) = labelsFor ds (some k) :=
  awaiting_snoc_some _ ds x _ k hk

theorem spansFor_snoc_some (ds : List Directive) (x : Directive) (k : Nat) (hk : k < ds.length) :
    spansFor (ds ++ [x]) (some k) = spansFor ds (some k) :=
  awaiting_snoc_some _ ds x _ k hk

/-- An instruction is drafted with the pending labels and the last pending span. -/
theorem draftedInstructions_snoc (ds : List Directive) (x : Directive) :
    draftedInstructions (ds ++ [x]) = draftedInstructions ds ++
      (x.instruction?.map (⟨·, labelsFor ds none, (spansFor ds none).getLast?⟩)).toList := by
  rw [draftedInstructions, List.zipIdx_append, List.filterMap_append]
  congr 1
  · apply List.filterMap_congr
    intro q hq
    have hlt := List.snd_lt_of_mem_zipIdx hq
    rw [labelsFor_snoc_some ds x q.2 hlt, spansFor_snoc_some ds x q.2 hlt]
  · cases x with
    | instruction i =>
      have hlabels := awaiting_snoc_last Directive.isItem ds (.instruction i) Directive.label? rfl
      have hspans := awaiting_snoc_last Directive.isInstruction ds (.instruction i) Directive.span? rfl
      simp [Directive.instruction?, labelsFor, spansFor, hlabels, hspans]
    | _ => rfl

theorem draftedLiterals_snoc (ds : List Directive) (x : Directive) :
    draftedLiterals (ds ++ [x]) = draftedLiterals ds ++
      (x.literal?.map fun v => ⟨v.1, v.2, labelsFor ds none⟩).toList := by
  rw [draftedLiterals, List.zipIdx_append, List.filterMap_append]
  congr 1
  · apply List.filterMap_congr
    intro q hq
    rw [labelsFor_snoc_some ds x q.2 (List.snd_lt_of_mem_zipIdx hq)]
  · cases x with
    | literal v w =>
      have hlabels := awaiting_snoc_last Directive.isItem ds (.literal v w) Directive.label? rfl
      simp [Directive.literal?, labelsFor, hlabels]
    | _ => rfl

/-- A name that comes again changes nothing. -/
theorem eraseDups_snoc (ls : List Label) (l : Label) :
    (ls ++ [l]).eraseDups.toArray = addName ls.eraseDups.toArray l := by
  rw [List.eraseDups_append, addName]
  by_cases hl : l ∈ ls
  · simp [List.removeAll, hl]
  · simp [List.removeAll, hl, List.eraseDups_cons]

theorem names_snoc (pick : Directive → Option Label) (ds : List Directive) (x : Directive) :
    ((ds ++ [x]).filterMap pick).eraseDups.toArray =
      (pick x).elim (ds.filterMap pick).eraseDups.toArray
        (addName (ds.filterMap pick).eraseDups.toArray) := by
  rw [List.filterMap_append]
  cases hx : pick x with
  | none => simp [hx]
  | some l => simp only [List.filterMap_cons, hx, List.filterMap_nil, eraseDups_snoc, Option.elim_some]

-- The draft that directives amount to, with what still waits.
def draftedSoFar (name : String) (ds : List Directive) : Draft where
  name
  instructions := (draftedInstructions ds).toArray
  literals := (draftedLiterals ds).toArray
  exports := (ds.filterMap (·.export?)).eraseDups.toArray
  imports := (ds.filterMap (·.import?)).eraseDups.toArray
  isEntry := ds.contains .entry
  pendingLabels := (labelsFor ds none).toArray
  pendingSpan := (spansFor ds none).getLast?

/-- One more directive does to the closed form what it does to the draft. -/
theorem draftedSoFar_snoc (name : String) (ds : List Directive) (x : Directive) :
    draftedSoFar name (ds ++ [x]) = (draftedSoFar name ds).add x := by
  have hlabels := awaiting_snoc_none Directive.isItem ds x Directive.label?
  have hspans := awaiting_snoc_none Directive.isInstruction ds x Directive.span?
  simp only [draftedSoFar, draftedInstructions_snoc, draftedLiterals_snoc, names_snoc, labelsFor, spansFor,
    hlabels, hspans]
  -- One case for each directive: it changes its own field, and an item what waits for it.
  cases x <;>
    simp [Draft.add, Directive.isItem, Directive.isInstruction, Directive.label?, Directive.span?,
      Directive.import?, Directive.export?, Directive.instruction?, Directive.literal?]

/-- By induction from the end: feeding directives gives the closed form. -/
theorem ofDirectives_eq (name : String) (ds : List Directive) :
    Draft.ofDirectives name ds = draftedSoFar name ds := by
  induction ds using List.reverseRecOn with
  | nil => rfl
  | append_singleton ds x ih =>
    rw [draftedSoFar_snoc, ← ih, Draft.ofDirectives, List.foldl_append]
    rfl

theorem draftedSoFar_contents (name : String) (ds : List Directive) :
    (draftedSoFar name ds).contents = drafted name ds := rfl

/-! Labels are neither lost nor multiplied. -/

/-- A directive loses no label: each is attached or still pending. -/
theorem add_conserves (d : Draft) (x : Directive) :
    ((d.add x).contents.definedLabels ++ (d.add x).pendingLabels.toList).Perm
      (d.contents.definedLabels ++ d.pendingLabels.toList ++ x.label?.toList) := by
  cases x with
  | instruction i =>
    -- The labels of literals stand behind those of instructions, so that the two change places.
    simpa [Draft.add, Draft.contents, Module.definedLabels, Directive.label?] using
      List.perm_append_comm.append_left _
  | _ => simp [Draft.add, Draft.contents, Module.definedLabels, Directive.label?]

/-- The declared labels are those attached and those left pending. -/
theorem labels_conserved (name : String) (ds : List Directive) :
    ((drafted name ds).definedLabels ++ labelsFor ds none).Perm (ds.filterMap (·.label?)) := by
  induction ds using List.reverseRecOn with
  | nil => exact List.Perm.refl _
  | append_singleton ds x ih =>
    have hstep := add_conserves (draftedSoFar name ds) x
    rw [← draftedSoFar_snoc, draftedSoFar_contents, draftedSoFar_contents] at hstep
    have hlast : (ds ++ [x]).filterMap (·.label?) = ds.filterMap (·.label?) ++ x.label?.toList := by
      rw [List.filterMap_append]
      cases hx : x.label? <;> simp [hx]
    rw [hlast]
    exact hstep.trans (ih.append_right _)

theorem mem_labels (ds : List Directive) (l : Label) : l ∈ ds.filterMap (·.label?) ↔ .label l ∈ ds := by
  rw [List.mem_filterMap]
  constructor
  · rintro ⟨x, hx, hl⟩
    cases x <;> cases hl
    exact hx
  · intro h
    exact ⟨_, h, rfl⟩

theorem mem_definedLabels (name : String) (ds : List Directive) (h : labelsFor ds none = []) (l : Label) :
    l ∈ (drafted name ds).definedLabels ↔ .label l ∈ ds := by
  have hperm := labels_conserved name ds
  rw [h, List.append_nil] at hperm
  rw [hperm.mem_iff, mem_labels]

theorem mem_imports (name : String) (ds : List Directive) (l : Label) :
    l ∈ (drafted name ds).imports ↔ .imports l ∈ ds := by
  have himports : (drafted name ds).imports = (ds.filterMap (·.import?)).eraseDups := rfl
  rw [himports, List.mem_eraseDups, List.mem_filterMap]
  constructor
  · rintro ⟨x, hx, hl⟩
    cases x <;> cases hl
    exact hx
  · intro h
    exact ⟨_, h, rfl⟩

/-! Why a draft is no module. -/

section Errors

variable (d : Draft)

/-- Pending labels are reported before anything else. -/
theorem build_dangling_iff (ls : List Label) :
    d.build = .error (.danglingLabels ls) ↔ d.pendingLabels ≠ #[] ∧ d.pendingLabels.toList = ls := by
  simp only [Draft.build, Array.isEmpty_iff]
  split_ifs with hp
  · cases d.contents.malformed? <;> cases d.contents.shadowed? <;> simp [hp]
  · simp [hp]

/-- A malformed instruction is reported when no label is pending. -/
theorem build_malformed_iff (n : Nat) (i : Instruction) :
    d.build = .error (.malformedInstruction n i) ↔
      d.pendingLabels = #[] ∧ ∃ k, d.contents.malformed? = some (k, n) ∧ k.instruction = i := by
  simp only [Draft.build, Array.isEmpty_iff]
  split_ifs with hp
  · cases d.contents.malformed? with
    | none => cases d.contents.shadowed? <;> simp
    | some q => simp [hp, Prod.ext_iff, and_comm, eq_comm]
  · simp [hp]

/-- A shadowed import is reported when nothing else is wrong. -/
theorem build_shadowed_iff (l : Label) :
    d.build = .error (.importDefinedLocally l) ↔
      d.pendingLabels = #[] ∧ d.contents.malformed? = none ∧ d.contents.shadowed? = some l := by
  simp only [Draft.build, Array.isEmpty_iff]
  split_ifs with hp
  · cases d.contents.malformed? <;> cases d.contents.shadowed? <;> simp [hp]
  · simp [hp]

end Errors

theorem malformed_some_iff (m : Module) (n : Nat) (i : Instruction) :
    (∃ k, m.malformed? = some (k, n) ∧ k.instruction = i) ↔
      ∃ before after, m.instructions.map (·.instruction) = before ++ i :: after ∧ before.length = n ∧
        i.isWellFormed = false ∧ ∀ j ∈ before, j.isWellFormed = true := by
  constructor
  · rintro ⟨k, hk, rfl⟩
    obtain ⟨hbad, as, bs, hsplit, has⟩ := List.find?_eq_some_iff_append.mp hk
    -- The position of an instruction is the number of instructions in front of it.
    have hfirst := congrArg (List.map Prod.fst) hsplit
    have hat := congrArg (·[as.length]?) hsplit
    rw [List.zipIdx_map_fst] at hfirst
    simp only [List.getElem?_zipIdx, List.getElem?_append_right, Nat.le_refl, Nat.sub_self,
      List.getElem?_cons_zero, Option.map_eq_some_iff, Prod.mk.injEq] at hat
    obtain ⟨-, -, -, hn⟩ := hat
    refine ⟨as.map (·.1.instruction), bs.map (·.1.instruction), ?_, ?_, by simpa using hbad, ?_⟩
    · rw [hfirst]
      simp [Function.comp_def]
    · simpa using hn
    · intro j hj
      obtain ⟨q, hq, rfl⟩ := List.mem_map.mp hj
      simpa using has q hq
  · rintro ⟨before, after, hsplit, rfl, hbad, hgood⟩
    obtain ⟨as, bs, hm, rfl, hbs⟩ := List.map_eq_append_iff.mp hsplit
    obtain ⟨k, bs, rfl, rfl, rfl⟩ := List.map_eq_cons_iff.mp hbs
    refine ⟨k, ?_, rfl⟩
    rw [Module.malformed?, List.find?_eq_some_iff_append]
    refine ⟨by simpa using hbad, as.zipIdx, bs.zipIdx (as.length + 1), ?_, ?_⟩
    · rw [hm, List.zipIdx_append]
      simp
    · intro q hq
      have hmem : q.1 ∈ as := List.fst_mem_of_mem_zipIdx hq
      simpa using hgood _ (List.mem_map_of_mem hmem)

theorem drafted_instructions (ds : List Directive) :
    (draftedInstructions ds).map (·.instruction) = ds.filterMap (·.instruction?) := by
  have hfst : ds.filterMap (·.instruction?) = (ds.zipIdx.map Prod.fst).filterMap (·.instruction?) := by
    rw [List.zipIdx_map_fst]
  rw [hfst, draftedInstructions, List.map_filterMap, List.filterMap_map]
  apply List.filterMap_congr
  intro q _
  cases hq : q.1.instruction? <;> simp [hq]

/-- The first name of a kind among names that are listed once is the first among all of them. -/
theorem find_eraseDups (p : Label → Bool) (ls : List Label) : ls.eraseDups.find? p = ls.find? p := by
  induction ls using List.reverseRecOn with
  | nil => rfl
  | append_singleton ls l ih =>
    rw [List.eraseDups_append, List.find?_append, List.find?_append, ih]
    by_cases hl : l ∈ ls
    · have hfound : ([l].find? p).isSome = true → (ls.find? p).isSome = true := by
        intro h
        rw [List.find?_isSome] at h ⊢
        obtain ⟨k, hk, hp⟩ := h
        exact ⟨l, hl, List.mem_singleton.mp hk ▸ hp⟩
      cases hp : ls.find? p with
      | some k => simp
      | none =>
        cases hq : [l].find? p with
        | none => simp [List.removeAll, hl]
        | some k => simp [hp, hq] at hfound
    · simp [List.removeAll, hl, List.eraseDups_cons]

/-- The shadowed import reported is the first declared of those also defined. -/
theorem shadowed_some_iff (name : String) (ds : List Directive) (h : labelsFor ds none = []) (l : Label) :
    (drafted name ds).shadowed? = some l ↔
      ∃ before after, ds = before ++ .imports l :: after ∧ .label l ∈ ds ∧
        ∀ k, .imports k ∈ before → .label k ∉ ds := by
  let isDefined (k : Label) : Bool :=
    (Std.ExtTreeSet.ofList (drafted name ds).definedLabels compare).contains k
  have hdefined (k : Label) : isDefined k = true ↔ .label k ∈ ds := by
    rw [← mem_definedLabels name ds h k]
    simp only [isDefined, Std.ExtTreeSet.contains_ofList, List.contains_iff_mem]
  have hfind : (drafted name ds).shadowed? =
      (ds.find? fun x => x.import?.any isDefined).bind (·.import?) := by
    rw [← List.find?_filterMap, ← find_eraseDups]
    rfl
  rw [hfind, Option.bind_eq_some_iff]
  constructor
  · rintro ⟨x, hx, hl⟩
    obtain ⟨hany, before, after, hsplit, hbefore⟩ := List.find?_eq_some_iff_append.mp hx
    rw [hl, Option.any_some, hdefined] at hany
    have hx' : x = .imports l := by cases x <;> cases hl; rfl
    refine ⟨before, after, hx' ▸ hsplit, hany, ?_⟩
    intro k hk hlabel
    have hnot := hbefore _ hk
    rw [← hdefined k] at hlabel
    simp [Directive.import?, hlabel] at hnot
  · rintro ⟨before, after, hsplit, hlabel, hbefore⟩
    refine ⟨.imports l, List.find?_eq_some_iff_append.mpr ⟨?_, before, after, hsplit, ?_⟩, rfl⟩
    · exact (hdefined l).mpr hlabel
    · intro x hx
      cases x with
      | imports k =>
        have hk := hbefore k hx
        rw [← hdefined k] at hk
        simpa [Directive.import?] using hk
      | _ => rfl

/-! The same reasons, read off the directives. -/

section Reasons

variable (name : String) (ds : List Directive)

theorem drafted_wellFormed :
    (drafted name ds).malformed? = none ↔ ∀ i ∈ ds.filterMap (·.instruction?), i.isWellFormed = true := by
  rw [malformed_none_iff, ← drafted_instructions, List.forall_mem_map]
  rfl

theorem ofDirectives_waiting :
    (Draft.ofDirectives name ds).pendingLabels = #[] ↔ labelsFor ds none = [] := by
  simp [ofDirectives_eq, draftedSoFar]

theorem ofDirectives_contents : (Draft.ofDirectives name ds).contents = drafted name ds := by
  rw [ofDirectives_eq, draftedSoFar_contents]

theorem ofDirectives_dangling_iff (ls : List Label) :
    (Draft.ofDirectives name ds).build = .error (.danglingLabels ls) ↔
      ls ≠ [] ∧ labelsFor ds none = ls := by
  have hlabels : (Draft.ofDirectives name ds).pendingLabels.toList = labelsFor ds none := by
    rw [ofDirectives_eq, draftedSoFar]
  rw [build_dangling_iff, ne_eq, ofDirectives_waiting, hlabels]
  constructor
  · rintro ⟨hne, rfl⟩
    exact ⟨hne, rfl⟩
  · rintro ⟨hne, rfl⟩
    exact ⟨hne, rfl⟩

theorem ofDirectives_malformed_iff (n : Nat) (i : Instruction) :
    (Draft.ofDirectives name ds).build = .error (.malformedInstruction n i) ↔
      labelsFor ds none = [] ∧ ∃ before after, ds.filterMap (·.instruction?) = before ++ i :: after ∧
        before.length = n ∧ i.isWellFormed = false ∧ ∀ j ∈ before, j.isWellFormed = true := by
  rw [build_malformed_iff, ofDirectives_waiting, ofDirectives_contents, malformed_some_iff,
    ← drafted_instructions]
  rfl

theorem ofDirectives_shadowed_iff (l : Label) :
    (Draft.ofDirectives name ds).build = .error (.importDefinedLocally l) ↔
      labelsFor ds none = [] ∧ (∀ i ∈ ds.filterMap (·.instruction?), i.isWellFormed = true) ∧
        ∃ before after, ds = before ++ .imports l :: after ∧ .label l ∈ ds ∧
          ∀ k, .imports k ∈ before → .label k ∉ ds := by
  rw [build_shadowed_iff, ofDirectives_waiting, ofDirectives_contents, drafted_wellFormed]
  apply and_congr_right
  intro hnone
  rw [shadowed_some_iff name ds hnone]

theorem ofDirectives_ok_iff (m : Module) :
    (Draft.ofDirectives name ds).build = .ok m ↔
      labelsFor ds none = [] ∧ (∀ i ∈ ds.filterMap (·.instruction?), i.isWellFormed = true) ∧
        (∀ l, .imports l ∈ ds → .label l ∉ ds) ∧ m = drafted name ds := by
  rw [build_ok_iff, ofDirectives_waiting, ofDirectives_contents, ← drafted_wellFormed name, malformed_none_iff]
  apply and_congr_right
  intro hnone
  have hforeign : (∀ l ∈ (drafted name ds).imports, l ∉ (drafted name ds).definedLabels) ↔
      ∀ l, .imports l ∈ ds → .label l ∉ ds := by
    simp only [mem_imports, mem_definedLabels name ds hnone]
  rw [← hforeign]
  constructor
  · rintro ⟨hwell, himports, rfl⟩
    exact ⟨hwell, himports, rfl⟩
  · rintro ⟨hwell, himports, rfl⟩
    exact ⟨hwell, himports, rfl⟩

end Reasons

/-- What a sequence of directives is built into. Labels that no item follows come first as a reason against it,
then the first ill-formed instruction, then the first import that is declared as a label as well. If there is no
such reason, the module holds the items in their order, each with the labels in front of it, the instructions
with the last span since the previous one, and every shared name once; and all labels are there, no more and
no fewer. -/
theorem directives_decide_build (name : String) (ds : List Directive) :
    (∀ ls, (Draft.ofDirectives name ds).build = .error (.danglingLabels ls) ↔
      ls ≠ [] ∧ labelsFor ds none = ls) ∧
    (∀ n i, (Draft.ofDirectives name ds).build = .error (.malformedInstruction n i) ↔
      labelsFor ds none = [] ∧ ∃ before after, ds.filterMap (·.instruction?) = before ++ i :: after ∧
        before.length = n ∧ i.isWellFormed = false ∧ ∀ j ∈ before, j.isWellFormed = true) ∧
    (∀ l, (Draft.ofDirectives name ds).build = .error (.importDefinedLocally l) ↔
      labelsFor ds none = [] ∧ (∀ i ∈ ds.filterMap (·.instruction?), i.isWellFormed = true) ∧
        ∃ before after, ds = before ++ .imports l :: after ∧ .label l ∈ ds ∧
          ∀ k, .imports k ∈ before → .label k ∉ ds) ∧
    (∀ m, (Draft.ofDirectives name ds).build = .ok m ↔
      labelsFor ds none = [] ∧ (∀ i ∈ ds.filterMap (·.instruction?), i.isWellFormed = true) ∧
        (∀ l, .imports l ∈ ds → .label l ∉ ds) ∧ m = drafted name ds) ∧
    ((drafted name ds).definedLabels ++ labelsFor ds none).Perm (ds.filterMap (·.label?)) :=
  ⟨ofDirectives_dangling_iff name ds, ofDirectives_malformed_iff name ds,
    ofDirectives_shadowed_iff name ds, ofDirectives_ok_iff name ds, labels_conserved name ds⟩

-- A literal uses up the labels in front of it, but not the span, and a second span replaces the first.
example : draftedInstructions
    [.label "a", .span ⟨1, 1, 3⟩, .literal (.number 0) .word, .label "b", .span ⟨2, 1, 3⟩,
      .instruction (.nullary .nop), .instruction (.nullary .nop)] =
    [⟨.nullary .nop, ["b"], some ⟨2, 1, 3⟩⟩, ⟨.nullary .nop, [], none⟩] := by decide

end PagedMachine
