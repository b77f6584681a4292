import PagedMachine.Linkage
import PagedMachine.Proofs.Reading
import PagedMachine.Proofs.Warnings

/-! Places of a machine are lenses. The first access to a location may raise warnings and draw bytes. After
it the location holds a word and its address has been noted, and then a read of it or a write of the same
word changes nothing at all. -/
namespace PagedMachine

-- The memory address that a place designates, if it is not a register.
def Place.effectiveAddress (p : Program) (m : Machine) (x : Place) : Except Fault (Option Address) :=
  (x.locate p m).map Location.address?

-- Whether an access is either aligned or at an address that has been reported.
def Memory.Noted (m : Memory) (w : Width) (a : Address) : Prop :=
  a.toNat % w.bytes = 0 ∨ m.misaligned.contains a = true

-- Whether a word can be accessed at a location without a report of its alignment.
def Location.Noted (m : Machine) : Location → Prop
  | .register _ => True
  | .memory a => m.memory.Noted .word a

/-! Alignment. -/

theorem checkAlignment_noted (m : Memory) (w : Width) (a : Address) (h : m.Noted w a) :
    m.checkAlignment w a = m :=
  if_pos h

theorem noted_checkAlignment (m : Memory) (w : Width) (a : Address) :
    (m.checkAlignment w a).Noted w a := by
  by_cases ha : a.toNat % w.bytes = 0
  · exact Or.inl ha
  · exact Or.inr ((mem_checkAlignment m w a a).mpr (Or.inl ⟨rfl, ha⟩))

/-- An access notes its alignment. -/
theorem noted_access (m : Memory) (x : Access) : (m.access x).Noted x.width x.address := by
  have hnoted := noted_checkAlignment m x.width x.address
  rwa [Memory.Noted, ← (access_reports m x).1] at hnoted

/-! Bytes that are there already. -/

/-- A memory after stores is determined by the bytes that can be found in it. -/
theorem store_eq_of_get (m m' : Memory) (a : Address) (bs : List Byte)
    (h : ∀ b, (m.store a bs).get? b = m'.get? b) : m.store a bs = m.withContents m' := by
  have hbytes : (m.store a bs).bytes = m'.bytes := Std.ExtTreeMap.ext_getElem? h
  rw [store_eq]
  exact withContents_congr m _ _ hbytes

/-- A second store of the same length replaces the first. -/
theorem store_store (m : Memory) (a : Address) (bs cs : List Byte) (hl : bs.length = cs.length)
    (hn : cs.length ≤ wordCount) : (m.store a bs).store a cs = m.store a cs := by
  have hget (b : Address) : ((m.store a bs).store a cs).get? b = (m.store a cs).get? b := by
    rw [get_store _ a b cs hn, get_store m a b bs (hl ▸ hn), get_store m a b cs hn]
    -- The second bytes cover the first ones.
    by_cases hb : (b - a).toNat < cs.length
    · rw [List.getElem?_eq_getElem hb, Option.some_or, Option.some_or]
    · have hb' : bs.length ≤ (b - a).toNat := hl ▸ Nat.le_of_not_lt hb
      rw [List.getElem?_eq_none hb', Option.none_or]
  rw [store_eq_of_get _ _ a cs hget, store_eq m a bs]
  exact (store_eq m a cs).symm

/-- Storing what is stored changes nothing. -/
theorem store_stored (m : Memory) (a : Address) (bs : List Byte) (hn : bs.length ≤ wordCount)
    (h : ∀ i < bs.length, m.get? (a + BitVec.ofNat 32 i) = bs[i]?) : m.store a bs = m := by
  apply store_eq_of_get m m a bs
  intro b
  rw [get_store m a b bs hn]
  by_cases hb : (b - a).toNat < bs.length
  · have hstored := h _ hb
    rw [add_ofNat_toNat_sub] at hstored
    rw [hstored, Option.or_self]
  · rw [List.getElem?_eq_none (Nat.le_of_not_lt hb), Option.none_or]

/-- A read of stored bytes at a noted address changes nothing. -/
theorem read_complete (m : Memory) (w : Width) (a : Address) (hn : m.Noted w a)
    (h : m.isMissing a w.bytes = false) : (m.read w a).2 = m := by
  simp only [Memory.read, h, checkAlignment_noted m w a hn, settleAll_complete m a w.bytes h,
    Bool.false_eq_true, ↓reduceIte]

/-! Locations. -/

theorem noted_put (m : Machine) (k : Location) (w : Word) : k.Noted (m.put k w) := by
  cases k with
  | register r => trivial
  | memory a => exact noted_access m.memory (.write .word a w)

theorem noted_read (m m' : Machine) (k : Location) (w : Word) (h : k.read m = .ok w m') :
    k.Noted m' := by
  cases k with
  | register r => trivial
  | memory a =>
    cases h
    exact noted_access m.memory (.read .word a)

theorem put_put (m : Machine) (k : Location) (u v : Word) : (m.put k u).put k v = m.put k v := by
  cases k with
  | register r =>
    have hcpu : (m.cpu.set r u).set r v = m.cpu.set r v := by cases r <;> rfl
    simp only [Machine.put, Machine.setRegister, hcpu]
  | memory a =>
    -- The first write has noted the address, so the second one only stores.
    have hnoted : (m.memory.write .word a u).Noted .word a := noted_access m.memory (.write .word a u)
    have hwrite : (m.memory.write .word a u).write .word a v = m.memory.write .word a v := by
      rw [Memory.write, checkAlignment_noted _ _ _ hnoted]
      exact store_store _ a _ _ rfl (length_encode_le .word v)
    simp only [Machine.put, hwrite]

section held

variable (m : Machine) (k : Location) (w : Word) (h : k.Holds m w) (hn : k.Noted m)
include h hn

/-- Putting a word where it is changes nothing. -/
theorem put_held : m.put k w = m := by
  cases k with
  | register r =>
    have hw : m.cpu.get r = w := h
    subst hw
    have hcpu : m.cpu.set r (m.cpu.get r) = m.cpu := by cases r <;> rfl
    simp only [Machine.put, Machine.setRegister, hcpu]
  | memory a =>
    have hwrite : m.memory.write .word a w = m.memory := by
      rw [Memory.write, checkAlignment_noted m.memory .word a hn]
      exact store_stored m.memory a _ (length_encode_le .word w) ((holds_memory_iff m a w).mp h)
    simp only [Machine.put, hwrite]

theorem read_held : k.read m = .ok w m := by
  cases k with
  | register r =>
    have hw : m.cpu.get r = w := h
    simp only [Location.read, hw]
  | memory a =>
    -- All four bytes are there, so that none is drawn and nothing is reported.
    have hpresent : m.memory.isMissing a Width.word.bytes = false := by
      rw [← Bool.not_eq_true]
      intro hmissing
      obtain ⟨b, hc, hb⟩ := (isMissing_iff m.memory (.read .word a)).mp hmissing
      obtain ⟨i, hi, rfl⟩ := (covers_iff .word a b).mp hc
      rw [h i hi] at hb
      contradiction
    have hvalue := memory_read_of_holds m a w h
    have hmemory := read_complete m.memory .word a hn hpresent
    simp only [Location.read, hvalue, hmemory]

end held

/-! Places. -/

/-- A place is where it was after a write to it. -/
theorem locate_put_self (p : Program) (m : Machine) (x : Place) (k : Location) (w : Word)
    (h : x.locate p m = .ok k) : x.locate p (m.put k w) = .ok k := by
  rw [locate_put p m x x k w h, h]
  -- The address of a register, which it does not have, depends on no register.
  intro r hr
  rintro rfl
  exact List.not_mem_nil hr

/-- Every place whose label resolves is a lens on the whole machine: its registers, its bytes and with them the
ranges that are touched, its warnings, and where further bytes come from. What has been written is read back
and the read changes nothing; writing back what has been read changes nothing; of two writes the second
alone counts; and all of this leaves the place where it is. -/
theorem place_lawful_lens (p : Program) (x : Place) (m : Machine) (u v : Word)
    (h : ResolvesAt p m.cpu.nx x.label?) :
    ∃ (a : Option Address) (w : Word) (mv mr mu : Machine),
      (x.write p v m = .ok () mv ∧ x.read p mv = .ok v mv) ∧
      (x.read p m = .ok w mr ∧ x.write p w mr = .ok () mr) ∧
      (x.write p u m = .ok () mu ∧ x.write p v mu = .ok () mv) ∧
      ∀ m' ∈ [m, mv, mr, mu], x.effectiveAddress p m' = .ok a := by
  obtain ⟨k, hk⟩ := locate_found p m x h
  obtain ⟨w, mr, hread, -⟩ := location_read_passes m.cpu.nx k m rfl
  obtain ⟨hframed, hholds⟩ := location_read m mr k w hread
  have hv := locate_put_self p m x k v hk
  have hu := locate_put_self p m x k u hk
  have hr : x.locate p mr = .ok k := (locate_framed p m mr [k] x hframed).trans hk
  refine ⟨k.address?, w, m.put k v, mr, m.put k u, ⟨place_write_located p m x v k hk, ?_⟩, ⟨?_, ?_⟩,
    ⟨place_write_located p m x u k hk, ?_⟩, ?_⟩
  · rw [place_read_located p _ x k hv]
    exact read_held _ k v (put_holds m k v) (noted_put m k v)
  · exact (place_read_located p m x k hk).trans hread
  · rw [place_write_located p mr x w k hr, put_held mr k w hholds (noted_read m mr k w hread)]
  · rw [place_write_located p _ x v k hu, put_put]
  · intro m' hm'
    have hlocated : x.locate p m' = .ok k := by
      simp only [List.mem_cons, List.not_mem_nil, or_false] at hm'
      rcases hm' with rfl | rfl | rfl | rfl <;> assumption
    rw [Place.effectiveAddress, hlocated]
    rfl

-- A module of one instruction and one word.
def oneCell : Module where
  name := "main"
  instructions := [⟨.nullary .nop, [], none⟩]
  literals := [⟨.number 0, .word, ["cell"]⟩]
  exports := []
  imports := []
  isEntry := true

/-- The word that starts two bytes before the end of memory and continues at its start. -/
theorem last_word_lens :
    let p := (link [oneCell]).program
    let x : Place := .labeled "cell" (some .f1) (some (-6))
    let m := ((Machine.start {} (.seeded 0)).jump entryAddress).setRegister .f1 0xFFC00000
    ResolvesAt p m.cpu.nx x.label? ∧
      ∃ w mv mr mu, (x.write p 7 m = .ok () mv ∧ x.read p mv = .ok 7 mv) ∧
        (x.read p m = .ok w mr ∧ x.write p w mr = .ok () mr) ∧
        (x.write p 5 m = .ok () mu ∧ x.write p 7 mu = .ok () mv) ∧
        ∀ m' ∈ [m, mv, mr, mu], x.effectiveAddress p m' = .ok (some 0xFFFFFFFE) := by
  intro p x m
  have hresolves : ResolvesAt p m.cpu.nx x.label? := by
    rintro l ⟨⟩
    decide +kernel
  have haddress : x.effectiveAddress p m = .ok (some 0xFFFFFFFE) := by decide +kernel
  obtain ⟨a, w, mv, mr, mu, hset, hget, hsets, hplace⟩ := place_lawful_lens p x m 5 7 hresolves
  have ha : Except.ok a = .ok (some 0xFFFFFFFE) :=
    (hplace m List.mem_cons_self).symm.trans haddress
  cases ha
  exact ⟨hresolves, w, mv, mr, mu, hset, hget, hsets, hplace⟩

end PagedMachine
