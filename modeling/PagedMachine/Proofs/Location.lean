import Mathlib.Algebra.Group.Nat.Defs
import Mathlib.Tactic.ByContra
import PagedMachine.Execution
import PagedMachine.Proofs.Memory

/-! Locations of a machine. A register holds a word, and so do four bytes of memory, the most significant
first. A read leaves everything as it was but for bytes that it draws; a write changes what it writes and
nothing else. Both are said by one kind of frame, and frames compose. -/
namespace PagedMachine

def Location.Covers (b : Address) : Location → Prop
  | .register _ => False
  | .memory a => Width.word.Covers a b

-- Whether a location holds a word. In memory all of its bytes have to be there.
def Location.Holds (m : Machine) (w : Word) : Location → Prop
  | .register r => m.cpu.get r = w
  | .memory a =>
    ∀ i < 4, m.memory.get? (a + BitVec.ofNat 32 i) = some (w.extractLsb' (8 * (3 - i)) 8)

instance (m : Machine) (w : Word) : (k : Location) → Decidable (k.Holds m w)
  | .register r => inferInstanceAs (Decidable (m.cpu.get r = w))
  | .memory a => inferInstanceAs (Decidable (∀ i < 4,
      m.memory.get? (a + BitVec.ofNat 32 i) = some (w.extractLsb' (8 * (3 - i)) 8)))

def Location.Apart (k k' : Location) : Prop :=
  k ≠ k' ∧ ∀ b, k.Covers b → ¬k'.Covers b

-- The machine with another word at a location.
def Machine.put (m : Machine) (k : Location) (w : Word) : Machine :=
  match k with
  | .register r => m.setRegister r w
  | .memory a => { m with memory := m.memory.write .word a w }

-- Between two machines nothing differs but what is at the `written` locations, and bytes that the first one
-- does not have; the second one has more bytes at the `touched` locations only.
structure Machine.Framed (m m' : Machine) (written touched : List Location) : Prop where
  nx : m'.cpu.nx = m.cpu.nx
  flag : m'.cpu.flag = m.cpu.flag
  registers : ∀ r, .register r ∉ written → m'.cpu.get r = m.cpu.get r
  kept : ∀ b v, (∀ k ∈ written, ¬k.Covers b) → m.memory.get? b = some v → m'.memory.get? b = some v
  fresh : ∀ b v, m.memory.get? b = none → m'.memory.get? b = some v → ∃ k ∈ touched, k.Covers b

theorem cpu_get_set (c : Cpu) (r q : Register) (w : Word) :
    (c.set r w).get q = if q = r then w else c.get q := by
  cases r <;> cases q <;> rfl

theorem cpu_set_nx (c : Cpu) (r : Register) (w : Word) : (c.set r w).nx = c.nx := by
  cases r <;> rfl

theorem cpu_set_flag (c : Cpu) (r : Register) (w : Word) : (c.set r w).flag = c.flag := by
  cases r <;> rfl

theorem cpu_ext (c c' : Cpu) (hr : ∀ r, c'.get r = c.get r) (hn : c'.nx = c.nx)
    (hf : c'.flag = c.flag) : c' = c := by
  have h0 := hr .f0
  have h1 := hr .f1
  have h2 := hr .f2
  have h3 := hr .f3
  have h5 := hr .f5
  have hx := hr .xx
  cases c
  cases c'
  simp only [Cpu.get] at h0 h1 h2 h3 h5 hx hn hf
  simp only [h0, h1, h2, h3, h5, hx, hn, hf]

theorem framed_refl (m : Machine) : m.Framed m [] [] where
  nx := rfl
  flag := rfl
  registers _ _ := rfl
  kept _ _ _ hb := hb
  fresh b v hn hs := by
    rw [hn] at hs
    contradiction

/-- Two steps write and touch what either of them does. -/
theorem framed_trans (m m' m'' : Machine) (written written' touched touched' : List Location)
    (h : m.Framed m' written touched) (h' : m'.Framed m'' written' touched') :
    m.Framed m'' (written ++ written') (touched ++ touched') where
  nx := h'.nx.trans h.nx
  flag := h'.flag.trans h.flag
  registers := by
    intro r hr
    rw [List.mem_append, not_or] at hr
    exact (h'.registers r hr.2).trans (h.registers r hr.1)
  kept := by
    intro b v hk hb
    apply h'.kept b v (fun k hk' => hk k (List.mem_append_right _ hk'))
    exact h.kept b v (fun k hk' => hk k (List.mem_append_left _ hk')) hb
  fresh := by
    intro b v hn hs
    -- The byte came with the first change or with the second one.
    cases hb : m'.memory.get? b with
    | some v' =>
      obtain ⟨k, hk, hc⟩ := h.fresh b v' hn hb
      exact ⟨k, List.mem_append_left _ hk, hc⟩
    | none =>
      obtain ⟨k, hk, hc⟩ := h'.fresh b v hb hs
      exact ⟨k, List.mem_append_right _ hk, hc⟩

theorem framed_mono (m m' : Machine) (written written' touched touched' : List Location)
    (h : m.Framed m' written touched) (hw : written ⊆ written') (ht : touched ⊆ touched') :
    m.Framed m' written' touched' where
  nx := h.nx
  flag := h.flag
  registers r hr := h.registers r fun hmem => hr (hw hmem)
  kept b v hk hb := h.kept b v (fun k hmem => hk k (hw hmem)) hb
  fresh b v hn hs := by
    obtain ⟨k, hk, hc⟩ := h.fresh b v hn hs
    exact ⟨k, ht hk, hc⟩

theorem framed_cpu (m m' : Machine) (touched : List Location) (h : m.Framed m' [] touched) :
    m'.cpu = m.cpu :=
  cpu_ext _ _ (fun r => h.registers r List.not_mem_nil) h.nx h.flag

/-! Words and their bytes. -/

theorem toNat_append_byte {n : Nat} (x : BitVec n) (b : Byte) :
    (x ++ b).toNat = x.toNat * 256 + b.toNat := by
  rw [BitVec.toNat_append, ← Nat.shiftLeft_add_eq_or_of_lt b.isLt, Nat.shiftLeft_eq]

/-- The number that four bytes spell. -/
theorem toNat_decode_word (b₃ b₂ b₁ b₀ : Byte) :
    (Width.word.decode [b₃, b₂, b₁, b₀]).toNat =
      ((b₃.toNat * 256 + b₂.toNat) * 256 + b₁.toNat) * 256 + b₀.toNat := by
  change (b₃ ++ b₂ ++ b₁ ++ b₀).toNat = _
  rw [toNat_append_byte, toNat_append_byte, toNat_append_byte]

theorem toNat_byte_of_word (w : Word) (s : Nat) : (w.extractLsb' s 8).toNat = w.toNat / 2 ^ s % 256 := by
  rw [BitVec.extractLsb'_toNat, Nat.shiftRight_eq_div_pow]

/-- Four bytes are those of the word they decode to. -/
theorem encode_decode_word (bs : List Byte) (h : bs.length = 4) :
    Width.word.encode (Width.word.decode bs) = bs := by
  obtain ⟨b₃, b₂, b₁, b₀, rfl⟩ : ∃ b₃ b₂ b₁ b₀, bs = [b₃, b₂, b₁, b₀] := by
    match bs, h with
    | [b₃, b₂, b₁, b₀], _ => exact ⟨b₃, b₂, b₁, b₀, rfl⟩
  have h₃ := b₃.isLt
  have h₂ := b₂.isLt
  have h₁ := b₁.isLt
  have h₀ := b₀.isLt
  -- A byte of the word is a digit of the number, which division finds.
  have hbyte (s : Nat) (b : Byte)
      (hb : (Width.word.decode [b₃, b₂, b₁, b₀]).toNat / 2 ^ s % 256 = b.toNat) :
      (Width.word.decode [b₃, b₂, b₁, b₀]).extractLsb' s 8 = b := by
    apply BitVec.eq_of_toNat_eq
    rw [toNat_byte_of_word]
    exact hb
  rw [toNat_decode_word] at hbyte
  simp only [Width.encode]
  rw [hbyte 24 b₃ (by omega), hbyte 16 b₂ (by omega), hbyte 8 b₁ (by omega), hbyte 0 b₀ (by omega)]

/-- A word is decoded from its bytes. -/
theorem decode_encode_word (w : Word) : Width.word.decode (Width.word.encode w) = w := by
  apply BitVec.eq_of_toNat_eq
  have hw := w.isLt
  rw [Width.encode, toNat_decode_word]
  simp only [toNat_byte_of_word]
  omega

/-- A memory location holds a word when its four bytes are stored there. -/
theorem holds_memory_iff (m : Machine) (a : Address) (w : Word) :
    (Location.memory a).Holds m w ↔
      ∀ i < 4, m.memory.get? (a + BitVec.ofNat 32 i) = (Width.word.encode w)[i]? := by
  refine forall₂_congr fun i hi => ?_
  have hi' : i < Width.word.bytes := hi
  rw [getElem_encode, if_pos hi']
  rfl

/-- A location holds one word at a time. -/
theorem holds_unique (m : Machine) (k : Location) (w w' : Word) (h : k.Holds m w)
    (h' : k.Holds m w') : w = w' := by
  cases k with
  | register r => exact h.symm.trans h'
  | memory a =>
    rw [holds_memory_iff] at h h'
    have hbytes : Width.word.encode w = Width.word.encode w' := by
      apply List.ext_getElem?
      intro i
      by_cases hi : i < Width.word.bytes
      · exact (h i hi).symm.trans (h' i hi)
      · rw [getElem_encode, getElem_encode, if_neg hi, if_neg hi]
    rw [← decode_encode_word w, hbytes, decode_encode_word]

theorem covers_offset (a : Address) (i : Nat) (hi : i < 4) :
    (Location.memory a).Covers (a + BitVec.ofNat 32 i) :=
  (covers_iff .word a _).mpr ⟨i, hi, rfl⟩

/-- What is held where nothing is written is held afterwards. -/
theorem holds_framed (m m' : Machine) (k : Location) (w : Word) (written touched : List Location)
    (h : m.Framed m' written touched) (ha : ∀ k' ∈ written, k.Apart k') (hk : k.Holds m w) :
    k.Holds m' w := by
  cases k with
  | register r =>
    have hr : .register r ∉ written := fun hr => (ha _ hr).1 rfl
    exact (h.registers r hr).trans hk
  | memory a =>
    intro i hi
    apply h.kept _ _ _ (hk i hi)
    intro k' hk'
    exact (ha k' hk').2 _ (covers_offset a i hi)

/-! Writing. -/

theorem location_write (m : Machine) (k : Location) (w : Word) : k.write w m = .ok () (m.put k w) := by
  cases k <;> rfl

/-- A location holds what is put there. -/
theorem put_holds (m : Machine) (k : Location) (w : Word) : k.Holds (m.put k w) w := by
  cases k with
  | register r =>
    exact (cpu_get_set m.cpu r r w).trans (if_pos rfl)
  | memory a =>
    intro i hi
    have hd : (a + BitVec.ofNat 32 i - a).toNat = i :=
      toNat_add_sub_self a i (Nat.lt_trans hi (by decide))
    have hc : Width.word.Covers a (a + BitVec.ofNat 32 i) := covers_offset a i hi
    have hget := get_write m.memory .word a (a + BitVec.ofNat 32 i) w
    rw [if_pos hc, hd] at hget
    exact hget

/-- Putting a word changes that location alone. -/
theorem put_framed (m : Machine) (k : Location) (w : Word) : m.Framed (m.put k w) [k] [k] := by
  cases k with
  | register r =>
    exact
      { nx := cpu_set_nx m.cpu r w
        flag := cpu_set_flag m.cpu r w
        registers := by
          intro q hq
          have hne : q ≠ r := by
            rintro rfl
            exact hq List.mem_cons_self
          exact (cpu_get_set m.cpu r q w).trans (if_neg hne)
        kept := fun b v _ hb => hb
        fresh := by
          intro b v hn hs
          have hs' : m.memory.get? b = some v := hs
          rw [hn] at hs'
          contradiction }
  | memory a =>
    have hget (b : Address) := get_write m.memory .word a b w
    exact
      { nx := rfl
        flag := rfl
        registers := fun _ _ => rfl
        kept := by
          intro b v hk hb
          have hc : ¬Width.word.Covers a b := hk _ List.mem_cons_self
          exact (hget b).trans ((if_neg hc).trans hb)
        fresh := by
          intro b v hn hs
          refine ⟨_, List.mem_cons_self, ?_⟩
          by_contra hc
          change ¬Width.word.Covers a b at hc
          have hs' := (hget b).symm.trans hs
          rw [if_neg hc, hn] at hs'
          contradiction }

/-! Reading. -/

/-- A read changes nothing that was stored. -/
theorem memory_read_framed (m : Machine) (a : Address) :
    m.Framed { m with memory := (m.memory.read .word a).2 } [] [.memory a] where
  nx := rfl
  flag := rfl
  registers _ _ := rfl
  kept b v _ hb := read_keeps m.memory .word a b v hb
  fresh b v hn hs := by
    refine ⟨_, List.mem_cons_self, ?_⟩
    by_contra hc
    -- Beyond the bytes that were read there is only what was there before.
    have hend : (m.memory.bytesRead .word a)[(b - a).toNat]? = none := by
      rw [List.getElem?_eq_none_iff, length_bytesRead]
      exact Nat.le_of_not_lt hc
    have hs' := (get_read m.memory .word a b).symm.trans hs
    rw [hend, hn] at hs'
    contradiction

/-- What was read stays there, also when it was synthesized. -/
theorem memory_read_holds (m : Machine) (a : Address) :
    (Location.memory a).Holds { m with memory := (m.memory.read .word a).2 }
      (m.memory.read .word a).1 := by
  rw [holds_memory_iff]
  intro i hi
  have hlen : (m.memory.bytesRead .word a).length = 4 := length_bytesRead m.memory .word a
  have hd : (a + BitVec.ofNat 32 i - a).toNat = i :=
    toNat_add_sub_self a i (Nat.lt_trans hi (by decide))
  have hget := get_read m.memory .word a (a + BitVec.ofNat 32 i)
  rw [hd, List.getElem?_eq_getElem (hlen.symm ▸ hi), Option.some_or] at hget
  rw [read_value, encode_decode_word _ hlen, List.getElem?_eq_getElem (hlen.symm ▸ hi)]
  exact hget

/-- A location that holds a word reads as that word. -/
theorem memory_read_of_holds (m : Machine) (a : Address) (w : Word)
    (h : (Location.memory a).Holds m w) : (m.memory.read .word a).1 = w := by
  have hkept := holds_framed m _ _ w [] _ (memory_read_framed m a) (by simp) h
  exact holds_unique _ _ _ _ (memory_read_holds m a) hkept

/-- A read gives the word that the location holds from then on. -/
theorem location_read (m m' : Machine) (k : Location) (w : Word) (h : k.read m = .ok w m') :
    m.Framed m' [] [k] ∧ k.Holds m' w := by
  cases k with
  | register r =>
    cases h
    exact ⟨framed_mono _ _ _ _ _ _ (framed_refl m) (List.Subset.refl _) (List.nil_subset _), rfl⟩
  | memory a =>
    cases h
    exact ⟨memory_read_framed m a, memory_read_holds m a⟩

/-- What a location holds already is what a read gives. -/
theorem location_read_of_holds (m : Machine) (k : Location) (w : Word) (h : k.Holds m w) :
    ∃ m', k.read m = .ok w m' ∧ m.Framed m' [] [k] := by
  have hread : ∃ m', k.read m = .ok w m' := by
    cases k with
    | register r => exact ⟨m, congrArg (EStateM.Result.ok · m) h⟩
    | memory a => exact ⟨_, congrArg (EStateM.Result.ok · _) (memory_read_of_holds m a w h)⟩
  obtain ⟨m', hm'⟩ := hread
  exact ⟨m', hm', (location_read m m' k w hm').1⟩

end PagedMachine
