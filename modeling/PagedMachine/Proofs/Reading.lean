import Mathlib.Data.List.Forall2
import PagedMachine.Proofs.Execution
import PagedMachine.Proofs.Location

/-! Operands of a machine: where they are, what they stand for, and what reading them in turn gives. A read
moves nothing, so operands that are read in turn all have the values they had at the start, and two that
overlap agree on the bytes they share. -/
namespace PagedMachine

-- The registers that the address of a place is computed from.
def Place.addressRegisters : Place → List Register
  | .register _ => []
  | .based r _ => [r]
  | .indexed r i => [r, i]
  | .labeled _ i _ => i.toList

-- The location that an operand designates, if it designates one.
def Operand.location? (p : Program) (m : Machine) (o : Operand) : Option Location :=
  o.place?.bind fun x => (x.locate p m).toOption

-- Whether an operand stands for a word: itself, the address of a label, or what a location holds.
def Operand.Yields (p : Program) (m : Machine) (w : Word) : Operand → Prop
  | .immediate v => v = w
  | .address l => p.resolve? m.cpu.nx l = some w
  | .place x => ∃ k, x.locate p m = .ok k ∧ k.Holds m w

-- Reading operands one after the other gives words and leaves a machine.
inductive ReadInTurn (p : Program) : Machine → List Operand → List Word → Machine → Prop where
  | nil (m : Machine) : ReadInTurn p m [] [] m
  | cons {m m₁ m₂ : Machine} {o : Operand} {os : List Operand} {w : Word} {ws : List Word}
      (h : o.read p m = .ok w m₁) (hs : ReadInTurn p m₁ os ws m₂) :
    ReadInTurn p m (o :: os) (w :: ws) m₂

-- The words that operands stand for, as reading them in turn gives them. The machine that is left differs
-- from the one before in nothing but bytes that were drawn, and all of the operands stand for their words in
-- it.
structure OldValues (p : Program) (m : Machine) (os : List Operand) (ws : List Word) (m' : Machine) :
    Prop where
  reads : ReadInTurn p m os ws m'
  framed : m.Framed m' [] (os.filterMap (·.location? p m))
  yields : List.Forall₂ (fun o w => o.Yields p m' w) os ws

/-! Places. -/

/-- Where a place lies depends on the position and on its address registers only. -/
theorem locate_congr (p : Program) (m m' : Machine) (x : Place) (hn : m'.cpu.nx = m.cpu.nx)
    (hr : ∀ r ∈ x.addressRegisters, m'.cpu.get r = m.cpu.get r) : x.locate p m' = x.locate p m := by
  cases x with
  | register r => rfl
  | based r d =>
    have hb := hr r List.mem_cons_self
    simp only [Place.locate, hb]
  | indexed r i =>
    have hb := hr r List.mem_cons_self
    have hi := hr i (List.mem_cons_of_mem _ List.mem_cons_self)
    simp only [Place.locate, hb, hi]
  | labeled l i d =>
    have hi : i.map m'.cpu.get = i.map m.cpu.get := by
      apply Option.map_congr
      intro r hmem
      exact hr r (Option.mem_toList.mpr hmem)
    simp only [Place.locate, Program.lookUp, hn, hi]

/-- Reads leave every place where it is. -/
theorem locate_framed (p : Program) (m m' : Machine) (touched : List Location) (x : Place)
    (h : m.Framed m' [] touched) : x.locate p m' = x.locate p m :=
  locate_congr p m m' x h.nx fun r _ => h.registers r List.not_mem_nil

/-- A place is where it was unless its address is computed from the register that has been written. -/
theorem locate_put (p : Program) (m : Machine) (b c : Place) (k : Location) (w : Word)
    (hk : b.locate p m = .ok k) (h : ∀ r ∈ c.addressRegisters, b ≠ .register r) :
    c.locate p (m.put k w) = c.locate p m := by
  have hframed := put_framed m k w
  apply locate_congr p m _ c hframed.nx
  intro r hr
  apply hframed.registers
  rw [List.mem_singleton]
  rintro rfl
  -- Only a register is located in a register.
  cases b with
  | register q =>
    cases hk
    exact h _ hr rfl
  | based q d => cases hk
  | indexed q j => cases hk
  | labeled l j d =>
    cases hl : p.lookUp m l <;> simp [Place.locate, hl] at hk

theorem locate_missing (p : Program) (m : Machine) (x : Place) (l : Label) (hl : x.label? = some l)
    (hr : p.resolve? m.cpu.nx l = none) : x.locate p m = .error (.undefinedLabel l) := by
  cases x with
  | labeled l' i d =>
    cases hl
    simp only [Place.locate, Program.lookUp, hr]
    rfl
  | register | based | indexed => contradiction

section places

variable (p : Program) (m m' : Machine) (x : Place) (w : Word)

theorem find_located (k : Location) (h : x.locate p m = .ok k) : x.find p m = .ok k m := by
  simp only [Place.find, h]

theorem find_failed (f : Fault) (h : x.locate p m = .error f) : x.find p m = .error f m := by
  simp only [Place.find, h]

theorem place_read_located (k : Location) (h : x.locate p m = .ok k) : x.read p m = k.read m :=
  exec_bind_ok _ _ m m k (find_located p m x k h)

theorem place_read_failed (f : Fault) (h : x.locate p m = .error f) : x.read p m = .error f m :=
  exec_bind_error _ _ m m f (find_failed p m x f h)

theorem place_write_located (k : Location) (h : x.locate p m = .ok k) :
    x.write p w m = .ok () (m.put k w) :=
  (exec_bind_ok _ _ m m k (find_located p m x k h)).trans (location_write m k w)

theorem place_write_failed (f : Fault) (h : x.locate p m = .error f) : x.write p w m = .error f m :=
  exec_bind_error _ _ m m f (find_failed p m x f h)

/-- A place that was read was located first. -/
theorem place_read_ok (h : x.read p m = .ok w m') :
    ∃ k, x.locate p m = .ok k ∧ k.read m = .ok w m' := by
  cases hl : x.locate p m with
  | ok k => exact ⟨k, rfl, (place_read_located p m x k hl).symm.trans h⟩
  | error f =>
    rw [place_read_failed p m x f hl] at h
    contradiction

theorem place_write_ok (h : x.write p w m = .ok () m') :
    ∃ k, x.locate p m = .ok k ∧ m' = m.put k w := by
  cases hl : x.locate p m with
  | ok k =>
    rw [place_write_located p m x w k hl] at h
    cases h
    exact ⟨k, rfl, rfl⟩
  | error f =>
    rw [place_write_failed p m x w f hl] at h
    contradiction

end places

/-! Operands. -/

theorem operand_read_missing (p : Program) (m : Machine) (o : Operand) (l : Label)
    (hl : o.label? = some l) (hr : p.resolve? m.cpu.nx l = none) :
    o.read p m = .error (.undefinedLabel l) m := by
  cases o with
  | immediate v => contradiction
  | address l' =>
    cases hl
    simp only [Operand.read, Program.lookUp, hr]
  | place x => exact place_read_failed p m x _ (locate_missing p m x l hl hr)

/-- The address of a label is read without touching memory. -/
theorem operand_read_address (p : Program) (m m' : Machine) (l : Label) (w : Word)
    (h : (Operand.address l).read p m = .ok w m') : p.resolve? m.cpu.nx l = some w ∧ m' = m := by
  cases hr : p.resolve? m.cpu.nx l with
  | none =>
    rw [operand_read_missing p m _ l rfl hr] at h
    contradiction
  | some a =>
    simp only [Operand.read, Program.lookUp, hr] at h
    cases h
    exact ⟨rfl, rfl⟩

theorem location_place (p : Program) (m : Machine) (x : Place) (k : Location)
    (h : x.locate p m = .ok k) : (Operand.place x).location? p m = some k := by
  simp only [Operand.location?, Operand.place?, Option.bind_some, h, Except.toOption]

/-- What an operand stands for can be read without disturbing anything. -/
theorem operand_read (p : Program) (m m' : Machine) (o : Operand) (w : Word)
    (h : o.read p m = .ok w m') :
    m.Framed m' [] (o.location? p m).toList ∧ o.Yields p m' w := by
  cases o with
  | immediate v =>
    cases h
    exact ⟨framed_refl m, rfl⟩
  | address l =>
    obtain ⟨hr, rfl⟩ := operand_read_address p m m' l w h
    exact ⟨framed_refl _, hr⟩
  | place x =>
    obtain ⟨k, hk, hread⟩ := place_read_ok p m m' x w h
    obtain ⟨hf, hw⟩ := location_read m m' k w hread
    rw [location_place p m x k hk]
    exact ⟨hf, k, (locate_framed p m m' _ x hf).trans hk, hw⟩

/-- An operand that yields a word is read as that word. -/
theorem operand_read_of_yields (p : Program) (m : Machine) (o : Operand) (w : Word)
    (h : o.Yields p m w) : ∃ m', o.read p m = .ok w m' := by
  cases o with
  | immediate v =>
    cases h
    exact ⟨m, rfl⟩
  | address l =>
    have hr : p.resolve? m.cpu.nx l = some w := h
    exact ⟨m, by simp only [Operand.read, Program.lookUp, hr]⟩
  | place x =>
    obtain ⟨k, hk, hw⟩ := h
    obtain ⟨m', hread, -⟩ := location_read_of_holds m k w hw
    exact ⟨m', (place_read_located p m x k hk).trans hread⟩

/-- What an operand yields outlasts steps that write nothing. -/
theorem yields_framed (p : Program) (m m' : Machine) (touched : List Location) (o : Operand) (w : Word)
    (h : m.Framed m' [] touched) (hw : o.Yields p m w) : o.Yields p m' w := by
  cases o with
  | immediate v => exact hw
  | address l =>
    rw [Operand.Yields, h.nx]
    exact hw
  | place x =>
    obtain ⟨k, hk, hw⟩ := hw
    exact ⟨k, (locate_framed p m m' _ x h).trans hk, holds_framed m m' k w [] touched h (by simp) hw⟩

theorem yields_unique (p : Program) (m : Machine) (o : Operand) (w w' : Word) (h : o.Yields p m w)
    (h' : o.Yields p m w') : w = w' := by
  cases o with
  | immediate v => exact h.symm.trans h'
  | address l => exact Option.some.inj (h.symm.trans h')
  | place x =>
    obtain ⟨k, hk, hw⟩ := h
    obtain ⟨k', hk', hw'⟩ := h'
    cases hk.symm.trans hk'
    exact holds_unique m k w w' hw hw'

theorem location_framed (p : Program) (m m' : Machine) (touched : List Location) (o : Operand)
    (h : m.Framed m' [] touched) : o.location? p m' = o.location? p m := by
  cases o with
  | immediate v => rfl
  | address l => rfl
  | place x =>
    simp only [Operand.location?, Operand.place?, Option.bind_some, locate_framed p m m' _ x h]

/-- Operands that are read in turn all stand for the words that the reads give. -/
theorem oldValues_of_reads (p : Program) (m m' : Machine) (os : List Operand) (ws : List Word)
    (h : ReadInTurn p m os ws m') : OldValues p m os ws m' := by
  induction h with
  | nil m => exact ⟨.nil m, framed_refl m, .nil⟩
  | @cons m m₁ m₂ o os w ws hread hreads ih =>
    obtain ⟨hf, hw⟩ := operand_read p m m₁ o w hread
    have hfs := ih.framed
    refine ⟨.cons hread hreads, ?_, .cons (yields_framed p m₁ m₂ _ o w hfs hw) ih.yields⟩
    -- The first read has left the locations of the others where they are.
    have hsame : os.filterMap (·.location? p m₁) = os.filterMap (·.location? p m) := by
      simp only [location_framed p m m₁ _ _ hf]
    have hall : (o :: os).filterMap (·.location? p m) =
        (o.location? p m).toList ++ os.filterMap (·.location? p m) := by
      cases ho : o.location? p m <;> simp [ho]
    rw [hsame] at hfs
    rw [hall]
    exact framed_trans m m₁ m₂ [] [] _ _ hf hfs

/-- Words that operands stand for at the start are the ones that reading them gives. -/
theorem oldValues_unique (p : Program) (m m' : Machine) (os : List Operand) (ws ws' : List Word)
    (h : OldValues p m os ws m') (hy : List.Forall₂ (fun o w => o.Yields p m w) os ws') : ws' = ws := by
  have hy' : List.Forall₂ (fun o w => o.Yields p m' w) os ws' :=
    hy.imp fun o w hw => yields_framed p m m' _ o w h.framed hw
  exact List.right_unique_forall₂' (fun o w w' => yields_unique p m' o w w') hy' h.yields

/-- Operands whose labels resolve can be read in turn. -/
theorem reads_of_resolved (p : Program) (m : Machine) (os : List Operand)
    (h : ∀ o ∈ os, ResolvesAt p m.cpu.nx o.label?) : ∃ ws m', ReadInTurn p m os ws m' := by
  induction os generalizing m with
  | nil => exact ⟨[], m, .nil m⟩
  | cons o os ih =>
    rw [List.forall_mem_cons] at h
    obtain ⟨w, m₁, hread, hn⟩ := operand_read_passes p m.cpu.nx o h.1 m rfl
    obtain ⟨ws, m₂, hs⟩ := ih m₁ (hn.symm ▸ h.2)
    exact ⟨w :: ws, m₂, .cons hread hs⟩

/-- A write to the location of one of the operands, some of which have been read before. -/
theorem put_framed_of_reads (p : Program) (m m' : Machine) (os os' : List Operand) (ws : List Word)
    (dst : Place) (k : Location) (w : Word) (h : OldValues p m os ws m') (hos : os ⊆ os')
    (hdst : .place dst ∈ os') (hk : dst.locate p m = .ok k) :
    m.Framed (m'.put k w) [k] (os'.filterMap (·.location? p m)) := by
  have hframed := framed_trans m m' _ _ _ _ _ h.framed (put_framed m' k w)
  apply framed_mono m _ _ _ _ _ hframed (List.Subset.refl _)
  apply List.append_subset.mpr
  refine ⟨List.filterMap_subset _ hos, ?_⟩
  intro k' hk'
  rw [List.mem_singleton.mp hk', List.mem_filterMap]
  exact ⟨.place dst, hdst, location_place p m dst k hk⟩

end PagedMachine
