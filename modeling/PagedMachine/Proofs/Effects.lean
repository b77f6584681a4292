import Mathlib.Algebra.Ring.Int.Defs
import Mathlib.Algebra.Ring.Nat
import PagedMachine.Engine
import PagedMachine.Linkage
import PagedMachine.Proofs.Reading

/-! What instructions that go through do. The operands are read first, and a read moves nothing, so every
result is computed from the values at the start, however the operands overlap. The destination is the one
that the operand designated at the start. Only an instruction with two destinations can move the second
of them by writing the first. -/
namespace PagedMachine

-- A write of one of the operands: what is at the place that the operand designated before is now the given
-- word, nothing else has changed, and only bytes of the operands have been drawn.
def Assigned (p : Program) (m m' : Machine) (os : List Operand) (dst : Place) (w : Word) : Prop :=
  ∃ k, dst.locate p m = .ok k ∧ k.Holds m' w ∧ m.Framed m' [k] (os.filterMap (·.location? p m))

/-- Writing behind reads assigns the destination and frames the rest. -/
theorem assigned_of_write (p : Program) (m m₁ m' : Machine) (os os' : List Operand) (ws : List Word)
    (dst : Place) (w : Word) (hold : OldValues p m os ws m₁) (hos : os ⊆ os') (hdst : .place dst ∈ os')
    (h : dst.write p w m₁ = .ok () m') : Assigned p m m' os' dst w := by
  obtain ⟨k, hk₁, rfl⟩ := place_write_ok p m₁ m' dst w h
  have hk : dst.locate p m = .ok k := (locate_framed p m m₁ _ dst hold.framed).symm.trans hk₁
  exact ⟨k, hk, put_holds m₁ k w, put_framed_of_reads p m m₁ os os' ws dst k w hold hos hdst hk⟩

section effects

variable (p : Program) (m m' : Machine)

theorem unary_effect (op : Operation) (dst : Place)
    (h : (Instruction.unary op dst).execute p m = .ok () m') :
    ∃ y m₁, OldValues p m [.place dst] [y] m₁ ∧ Assigned p m m' [.place dst] dst (~~~y) := by
  obtain ⟨-, h⟩ := execute_ok p _ m m' h
  obtain ⟨y, m₁, hy, h⟩ := exec_bind_eq_ok _ _ m m' () h
  have hold := oldValues_of_reads p m m₁ [.place dst] [y] (.cons hy (.nil m₁))
  exact ⟨y, m₁, hold, assigned_of_write p m m₁ m' _ _ _ dst _ hold (List.Subset.refl _) (by simp) h⟩

theorem binary_effect (op : Operation) (dst : Place) (src : Operand)
    (hs : (Instruction.binary op dst src).skips m = false)
    (h : (Instruction.binary op dst src).execute p m = .ok () m') :
    (op = .mov ∨ op = .movc) ∧
        (∃ x m₁, OldValues p m [src] [x] m₁ ∧ Assigned p m m' [.place dst, src] dst x) ∨
      (op ≠ .mov ∧ op ≠ .movc) ∧
        ∃ x y w m₁, OldValues p m [src, .place dst] [x, y] m₁ ∧ op.result? y x = some w ∧
          Assigned p m m' [.place dst, src] dst w := by
  obtain ⟨-, h⟩ := execute_ok p _ m m' h
  rcases perform_binary p op dst src m hs with ⟨hop, he⟩ | ⟨hop, he⟩
  · -- A move reads only the source.
    rw [he] at h
    obtain ⟨x, m₁, hx, h⟩ := exec_bind_eq_ok _ _ m m' () h
    have hold := oldValues_of_reads p m m₁ [src] [x] (.cons hx (.nil m₁))
    exact Or.inl ⟨hop, x, m₁, hold,
      assigned_of_write p m m₁ m' _ _ _ dst x hold (by simp) (by simp) h⟩
  · -- The others read the destination after it.
    rw [he] at h
    obtain ⟨x, m₁, hx, h⟩ := exec_bind_eq_ok _ _ m m' () h
    obtain ⟨y, m₂, hy, h⟩ := exec_bind_eq_ok _ _ m₁ m' () h
    have hold := oldValues_of_reads p m m₂ [src, .place dst] [x, y] (.cons hx (.cons hy (.nil m₂)))
    cases hres : op.result? y x with
    | none =>
      simp only [hres] at h
      contradiction
    | some w =>
      simp only [hres] at h
      exact Or.inr ⟨hop, x, y, w, m₂, hold, hres,
        assigned_of_write p m m₂ m' _ _ _ dst w hold (by simp) (by simp) h⟩

theorem compare_effect (rel : Relation) (left right : Operand)
    (h : (Instruction.compare rel left right).execute p m = .ok () m') :
    ∃ l r m₁, OldValues p m [left, right] [l, r] m₁ ∧
      m'.cpu = { m.cpu with flag := rel.holds l r } ∧ m'.memory = m₁.memory := by
  obtain ⟨-, h⟩ := execute_ok p _ m m' h
  obtain ⟨l, m₁, hl, h⟩ := exec_bind_eq_ok _ _ m m' () h
  obtain ⟨r, m₂, hr, h⟩ := exec_bind_eq_ok _ _ m₁ m' () h
  have hold := oldValues_of_reads p m m₂ [left, right] [l, r] (.cons hl (.cons hr (.nil m₂)))
  have hcpu : m₂.cpu = m.cpu := framed_cpu m m₂ _ hold.framed
  cases h
  refine ⟨l, r, m₂, hold, ?_, rfl⟩
  change { m₂.cpu with flag := rel.holds l r } = _
  rw [hcpu]

theorem ternary_effect (op : Operation) (a : Operand) (b c : Place)
    (h : (Instruction.ternary op a b c).execute p m = .ok () m') :
    ∃ x y m₁ low high lb lc, OldValues p m [a, .place b] [x, y] m₁ ∧
      op.results? x y = some (low, high) ∧ b.locate p m = .ok lb ∧
      c.locate p (m₁.put lb low) = .ok lc ∧ m' = (m₁.put lb low).put lc high := by
  obtain ⟨-, h⟩ := execute_ok p _ m m' h
  obtain ⟨x, m₁, hx, h⟩ := exec_bind_eq_ok _ _ m m' () h
  obtain ⟨y, m₂, hy, h⟩ := exec_bind_eq_ok _ _ m₁ m' () h
  have hold := oldValues_of_reads p m m₂ [a, .place b] [x, y] (.cons hx (.cons hy (.nil m₂)))
  cases hres : op.results? x y with
  | none =>
    simp only [hres] at h
    contradiction
  | some lowHigh =>
    obtain ⟨low, high⟩ := lowHigh
    simp only [hres] at h
    obtain ⟨⟨⟩, m₃, hb, h⟩ := exec_bind_eq_ok _ _ m₂ m' () h
    -- The second location is the one after the first write, the first one that of the start.
    obtain ⟨lb, hlb, rfl⟩ := place_write_ok p m₂ m₃ b low hb
    obtain ⟨lc, hlc, rfl⟩ := place_write_ok p _ m' c high h
    have hlb' : b.locate p m = .ok lb := (locate_framed p m m₂ _ b hold.framed).symm.trans hlb
    exact ⟨x, y, m₂, low, high, lb, lc, hold, hres, hlb', hlc, rfl⟩

end effects

/-- Instructions with one destination, and comparisons. The destination holds the complement of its old
value, the old source, or the result of the two; a comparison sets the flag. Everything else is as it was,
and a conditional move that finds the flag clear does nothing. -/
theorem execute_assigns (p : Program) (i : Instruction) (m m' : Machine)
    (h : i.execute p m = .ok () m') :
    (∀ op dst, i = .unary op dst →
      ∃ y m₁, OldValues p m [.place dst] [y] m₁ ∧ Assigned p m m' i.operands dst (~~~y)) ∧
    (∀ op dst src, i = .binary op dst src →
      (op = .movc → m.cpu.flag = false → m' = m) ∧
      (op = .mov ∨ op = .movc ∧ m.cpu.flag = true →
        ∃ x m₁, OldValues p m [src] [x] m₁ ∧ Assigned p m m' i.operands dst x) ∧
      (op ≠ .mov → op ≠ .movc →
        ∃ x y w m₁, OldValues p m [src, .place dst] [x, y] m₁ ∧ op.result? y x = some w ∧
          Assigned p m m' i.operands dst w)) ∧
    (∀ rel left right, i = .compare rel left right →
      ∃ l r m₁, OldValues p m [left, right] [l, r] m₁ ∧
        m'.cpu = { m.cpu with flag := rel.holds l r } ∧ m'.memory = m₁.memory) := by
  refine ⟨?_, ?_, ?_⟩
  · rintro op dst rfl
    exact unary_effect p m m' op dst h
  · rintro op dst src rfl
    refine ⟨?_, ?_, ?_⟩
    · rintro rfl hf
      rw [execute_skipped p _ m (by simp [Instruction.skips, hf])] at h
      cases h
      rfl
    · intro hmove
      have hs : (Instruction.binary op dst src).skips m = false := by
        apply skips_binary
        rintro rfl
        exact (hmove.resolve_left (by decide)).2
      rcases binary_effect p m m' op dst src hs h with ⟨-, hx⟩ | ⟨⟨hm, hc⟩, -⟩
      · exact hx
      · rcases hmove with rfl | ⟨rfl, -⟩ <;> contradiction
    · intro hm hc
      have hs := skips_binary op dst src m fun h => absurd h hc
      rcases binary_effect p m m' op dst src hs h with ⟨hop, -⟩ | ⟨-, hw⟩
      · rcases hop with rfl | rfl <;> contradiction
      · exact hw
  · rintro rel left right rfl
    exact compare_effect p m m' rel left right h

-- Two words next to each other, the first of them at `f0`.
def twoWords : Machine :=
  let m := (Machine.start {} (.seeded 0)).setRegister .f0 0x1000
  (m.put (.memory 0x1000) 0x01020304).put (.memory 0x1004) 0x05060708

/-- The sum of a word and the one that starts in its middle, at an address that is not aligned. -/
theorem twoWords_added :
    let p := (link []).program
    let i : Instruction := .binary .add (.based .f0 none) (.place (.based .f0 (some 2)))
    ∃ m', i.execute p twoWords = .ok () m' ∧ (Location.memory 0x1000).Holds m' 0x0406080a ∧
      twoWords.Framed m' [.memory 0x1000] [.memory 0x1000, .memory 0x1002] := by
  intro p i
  have hresolved : ∀ o ∈ i.operands, ResolvesAt p twoWords.cpu.nx o.label? := by
    simp [i, Instruction.operands, ResolvesAt, Operand.label?, Place.label?]
  obtain ⟨⟨⟩, m', he, -⟩ := execute_passes p twoWords.cpu.nx i rfl hresolved twoWords rfl
  obtain ⟨x, y, w, m₁, hold, hres, k, hk, hw, hframed⟩ :=
    ((execute_assigns p i twoWords m' he).2.1 _ _ _ rfl).2.2 (by decide) (by decide)
  have hsrc : (Location.memory 0x1002).Holds twoWords 0x03040506 := by decide +kernel
  have hdst : (Location.memory 0x1000).Holds twoWords 0x01020304 := by decide +kernel
  have hvalues := oldValues_unique p twoWords m₁ _ _ [0x03040506, 0x01020304] hold
    (.cons ⟨_, rfl, hsrc⟩ (.cons ⟨_, rfl, hdst⟩ .nil))
  have hlocated : (Place.based .f0 none).locate p twoWords = .ok (.memory 0x1000) := by decide +kernel
  rw [List.cons.injEq, List.cons.injEq] at hvalues
  obtain ⟨rfl, rfl, -⟩ := hvalues
  cases hlocated.symm.trans hk
  cases hres
  exact ⟨m', he, hw, hframed⟩

/-! Products of two words in a double word. -/

theorem halves_append (d : BitVec 64) : d.extractLsb' 32 32 ++ d.extractLsb' 0 32 = d := by
  have h := @BitVec.extractLsb'_append_extractLsb'_eq_extractLsb' 64 32 0 32 32 d rfl
  exact h.trans BitVec.extractLsb'_eq_self

/-- The two halves are the product of the unsigned values. -/
theorem mulu_exact (x y low high : Word) (h : Operation.mulu.results? x y = some (low, high)) :
    high.toNat * 2 ^ 32 + low.toNat = x.toNat * y.toNat := by
  obtain ⟨rfl, rfl⟩ := Prod.mk.inj (Option.some.inj h)
  have hx : (x.setWidth 64).toNat = x.toNat := BitVec.toNat_setWidth_of_le (by decide)
  have hy : (y.setWidth 64).toNat = y.toNat := BitVec.toNat_setWidth_of_le (by decide)
  have hlt : (x.setWidth 64).toNat * (y.setWidth 64).toNat < 2 ^ 64 := by
    rw [hx, hy]
    calc x.toNat * y.toNat < 2 ^ 32 * 2 ^ 32 := Nat.mul_lt_mul'' x.isLt y.isLt
      _ = 2 ^ 64 := (Nat.pow_add 2 32 32).symm
  have hproduct := BitVec.toNat_mul_of_lt hlt
  rw [← halves_append (x.setWidth 64 * y.setWidth 64), BitVec.toNat_append, hx, hy] at hproduct
  rw [← hproduct, ← Nat.shiftLeft_add_eq_or_of_lt (BitVec.isLt _), Nat.shiftLeft_eq]

/-- The two halves are the product of the signed values. -/
theorem muls_exact (x y low high : Word) (h : Operation.muls.results? x y = some (low, high)) :
    high.toInt * 2 ^ 32 + low.toNat = x.toInt * y.toInt := by
  obtain ⟨rfl, rfl⟩ := Prod.mk.inj (Option.some.inj h)
  have hx : (x.signExtend 64).toInt = x.toInt := BitVec.toInt_signExtend_of_le (by decide)
  have hy : (y.signExtend 64).toInt = y.toInt := BitVec.toInt_signExtend_of_le (by decide)
  -- The least number squared is the greatest product, and a double word has room for it.
  have hle : x.toInt * y.toInt ≤ 2 ^ 62 := BitVec.toInt_mul_toInt_le
  have hge : -2 ^ 62 ≤ x.toInt * y.toInt := BitVec.le_toInt_mul_toInt
  have hproduct := BitVec.toInt_mul (x.signExtend 64) (y.signExtend 64)
  rw [hx, hy, Int.bmod_eq_of_le (by omega) (by omega)] at hproduct
  rw [← halves_append (x.signExtend 64 * y.signExtend 64), BitVec.toInt_append] at hproduct
  rw [← hproduct]
  exact congrArg (· + _) (Int.mul_comm _ _)

/-- Instructions with two destinations. The second of them is located when the first one is written. It
holds the high word of the exact product, or for an exchange the old value of the first one; the first
one holds the low word, or the value exchanged for the old one, unless the second overlaps it. Everything
else is as it was. -/
theorem execute_writes_both (p : Program) (op : Operation) (a : Operand) (b c : Place) (m m' : Machine)
    (h : (Instruction.ternary op a b c).execute p m = .ok () m') :
    ∃ x y m₁ low high lb m₂ lc, OldValues p m [a, .place b] [x, y] m₁ ∧
      b.locate p m = .ok lb ∧ b.write p low m₁ = .ok () m₂ ∧ c.locate p m₂ = .ok lc ∧
      ((∀ r ∈ c.addressRegisters, b ≠ .register r) → c.locate p m = .ok lc) ∧
      (op = .mulu → high.toNat * 2 ^ 32 + low.toNat = x.toNat * y.toNat) ∧
      (op = .muls → high.toInt * 2 ^ 32 + low.toNat = x.toInt * y.toInt) ∧
      (op = .xchg → low = x ∧ high = y) ∧
      lc.Holds m' high ∧ (lb.Apart lc → lb.Holds m' low) ∧
      m.Framed m' [lb, lc] ([a, .place b].filterMap (·.location? p m) ++ [lc]) := by
  obtain ⟨x, y, m₁, low, high, lb, lc, hold, hres, hlb, hlc, rfl⟩ := ternary_effect p m m' op a b c h
  have hlb₁ : b.locate p m₁ = .ok lb := (locate_framed p m m₁ _ b hold.framed).trans hlb
  have hfirst := put_framed_of_reads p m m₁ _ _ _ b lb low hold (List.Subset.refl _) (by simp) hlb
  have hsecond := put_framed (m₁.put lb low) lc high
  refine ⟨x, y, m₁, low, high, lb, _, lc, hold, hlb, place_write_located p m₁ b low lb hlb₁, hlc, ?_, ?_,
    ?_, ?_, put_holds _ lc high, ?_, framed_trans m _ _ _ _ _ _ hfirst hsecond⟩
  · -- Neither the reads nor the first write have moved the third operand.
    intro hr
    have hput := locate_put p m₁ b c lb low hlb₁ hr
    have hreads := locate_framed p m m₁ _ c hold.framed
    exact (hput.trans hreads).symm.trans hlc
  · rintro rfl
    exact mulu_exact x y low high hres
  · rintro rfl
    exact muls_exact x y low high hres
  · rintro rfl
    obtain ⟨rfl, rfl⟩ := Prod.mk.inj (Option.some.inj hres)
    exact ⟨rfl, rfl⟩
  · intro hapart
    apply holds_framed _ _ lb low [lc] [lc] hsecond _ (put_holds m₁ lb low)
    rw [List.forall_mem_singleton]
    exact hapart

/-- The square of the least number. Its low word is zero, and that is where the high word goes. -/
theorem least_squared :
    let p := (link []).program
    let m := (Machine.start {} (.seeded 0)).setRegister .f0 0x80000000
    let i : Instruction := .ternary .muls (.immediate 0x80000000) (.register .f0) (.based .f0 none)
    ∃ m' low high, i.execute p m = .ok () m' ∧ (Location.register .f0).Holds m' low ∧
      (Location.memory low).Holds m' high ∧ high.toInt * 2 ^ 32 + low.toNat = 2 ^ 62 := by
  intro p m i
  have hresolved : ∀ o ∈ i.operands, ResolvesAt p m.cpu.nx o.label? := by
    simp [i, Instruction.operands, ResolvesAt, Operand.label?, Place.label?]
  obtain ⟨⟨⟩, m', he, -⟩ := execute_passes p m.cpu.nx i rfl hresolved m rfl
  obtain ⟨x, y, m₁, low, high, lb, m₂, lc, hold, hlb, hb, hlc, -, -, hexact, -, hhigh, hlow, -⟩ :=
    execute_writes_both p _ _ _ _ m m' he
  have hvalues := oldValues_unique p m m₁ _ _ [0x80000000, 0x80000000] hold
    (.cons rfl (.cons ⟨.register .f0, rfl, rfl⟩ .nil))
  rw [List.cons.injEq, List.cons.injEq] at hvalues
  obtain ⟨rfl, rfl, -⟩ := hvalues
  cases hlb
  cases hb
  cases hlc
  have haddress : low + (none : Option Word).getD 0 = low := BitVec.add_zero low
  refine ⟨m', low, high, he, ?_, ?_, hexact rfl⟩
  · exact hlow ⟨by simp, fun b hb => hb.elim⟩
  · exact haddress ▸ hhigh

end PagedMachine
