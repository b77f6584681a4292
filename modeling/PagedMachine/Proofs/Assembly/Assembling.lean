import Mathlib.Data.List.Basic
import Mathlib.Order.Bounds.Defs
import PagedMachine.Proofs.Assembly.Statement

/-! Assembling and taking apart. An instruction is assembled exactly from its own mnemonic and operands, and what
is no instruction's mnemonic and operands is refused for one reason: the mnemonic is looked at first, then its
suffix, then the number of operands, and last, from left to right, the operands to be written to. -/
namespace PagedMachine

-- The positions of operands, counted from one, that the operations of a family write to.
def Family.written : Family → List Nat
  | .nullary | .compare => []
  | .unary | .binary => [1]
  | .ternary => [2, 3]

namespace Assembly

/-! Mnemonics. -/

-- A mnemonic is cut at its first dot, if it has one.
inductive Cut : String → String → Option String → Prop where
  | bare {name : String} (h : '.' ∉ name.toList) : Cut name name none
  | dotted {name suffix : String} (h : '.' ∉ name.toList) :
      Cut (name ++ "." ++ suffix) name (some suffix)

theorem ne_dot_of_notMem {s : List Char} (h : '.' ∉ s) : ∀ c ∈ s, (c != '.') = true := by
  intro c hc
  exact bne_iff_ne.mpr fun he => h (he ▸ hc)

theorem cutMnemonic_of_cut {mnemonic name : String} {suffix : Option String} (h : Cut mnemonic name suffix) :
    cutMnemonic mnemonic = (name, suffix) := by
  cases h with
  | bare h =>
    have hdrop : mnemonic.toList.dropWhile (· != '.') = [] :=
      List.dropWhile_eq_nil_iff.mpr (ne_dot_of_notMem h)
    simp only [cutMnemonic, hdrop]
  | @dotted _ suffix h =>
    have htext : (name ++ "." ++ suffix).toList = name.toList ++ '.' :: suffix.toList := by simp
    simp only [cutMnemonic, htext, List.dropWhile_append_of_pos (ne_dot_of_notMem h),
      List.takeWhile_append_of_pos (ne_dot_of_notMem h)]
    simp

theorem exists_cut (mnemonic : String) : ∃ name suffix, Cut mnemonic name suffix := by
  have hsplit := List.takeWhile_append_dropWhile (p := (· != '.')) (l := mnemonic.toList)
  have hfront : '.' ∉ mnemonic.toList.takeWhile (· != '.') := by
    intro hdot
    simpa using List.mem_takeWhile_imp hdot
  cases hdrop : mnemonic.toList.dropWhile (· != '.') with
  | nil =>
    rw [hdrop, List.append_nil] at hsplit
    exact ⟨_, _, .bare (hsplit ▸ hfront)⟩
  | cons c suffix =>
    have hdot : c = '.' := by
      have hhead := List.head?_dropWhile_not (· != '.') mnemonic.toList
      rw [hdrop] at hhead
      simpa using hhead
    have htext : mnemonic = String.ofList (mnemonic.toList.takeWhile (· != '.')) ++ "." ++
        String.ofList suffix := by
      rw [hdrop, hdot] at hsplit
      apply String.toList_injective
      simp [hsplit]
    rw [htext]
    exact ⟨_, _, .dotted (by rwa [String.toList_ofList])⟩

theorem operation_ofName_none {name : String} (h : ∀ op : Operation, op.name ≠ name) :
    Operation.ofName? name = none := by
  rw [Operation.ofName?, List.find?_eq_none]
  intro op _
  simpa using h op

theorem relation_ofName_none {name : String} (h : ∀ rel : Relation, rel.name ≠ name) :
    Relation.ofName? name = none := by
  rw [Relation.ofName?, List.find?_eq_none]
  intro rel _
  simpa using h rel

theorem family_compare_iff (op : Operation) : op.family = .compare ↔ op = .cmp := by
  cases op <;> decide

-- The operation that a mnemonic names, with the relation of a comparison. The other operations have no use
-- for a relation and are given the first one.
inductive Selects : String → Operation → Relation → Prop where
  | plain {op : Operation} (h : op ≠ .cmp) : Selects op.name op .eq
  | comparison (rel : Relation) : Selects (Operation.cmp.name ++ "." ++ rel.name) .cmp rel

/-- Outside comparisons a mnemonic is the name of its operation. -/
theorem selects_plain {mnemonic : String} {op : Operation} {rel : Relation} (h : Selects mnemonic op rel)
    (hf : op.family ≠ .compare) : mnemonic = op.name := by
  cases h with
  | plain _ => rfl
  | comparison rel => contradiction

/-- The mnemonic of a comparison names its relation behind a dot. -/
theorem selects_comparison {mnemonic : String} {op : Operation} {rel : Relation} (h : Selects mnemonic op rel)
    (hf : op.family = .compare) : mnemonic = Operation.cmp.name ++ "." ++ rel.name := by
  cases h with
  | plain h => exact absurd ((family_compare_iff op).mp hf) h
  | comparison rel => rfl

/-! Reasons. -/

-- An operand that an operation would write to, but cannot.
def Unwritable (op : Operation) (os : List Operand) (position : Nat) : Prop :=
  position ∈ op.family.written ∧ ∃ o, os[position - 1]? = some o ∧ o.place? = none

-- The reason for which a mnemonic and operands are no instruction.
inductive Refused (mnemonic : String) (os : List Operand) : Problem → Prop where
  | unknown {name : String} {suffix : Option String} (hcut : Cut mnemonic name suffix)
      (hname : ∀ op : Operation, op.name ≠ name) : Refused mnemonic os (.notAnOperation mnemonic)
  | bareComparison (hcut : Cut mnemonic Operation.cmp.name none) :
      Refused mnemonic os (.notAnOperation mnemonic)
  | suffixed {op : Operation} {suffix : String} (hcut : Cut mnemonic op.name (some suffix))
      (hop : op ≠ .cmp) : Refused mnemonic os (.notAnOperation mnemonic)
  | notARelation {suffix : String} (hcut : Cut mnemonic Operation.cmp.name (some suffix))
      (hname : ∀ rel : Relation, rel.name ≠ suffix) : Refused mnemonic os (.notARelation suffix)
  | wrongArity {op : Operation} {rel : Relation} (hop : Selects mnemonic op rel)
      (hlength : os.length ≠ op.arity) : Refused mnemonic os (.wrongArity mnemonic op.arity os.length)
  | notWritable {op : Operation} {rel : Relation} {position : Nat} (hop : Selects mnemonic op rel)
      (hlength : os.length = op.arity) (hleast : IsLeast {k | Unwritable op os k} position) :
      Refused mnemonic os (.notWritable mnemonic position)

/-! Each reason is answered. -/

/-- A mnemonic that selects an operation leaves only the operands to check. -/
theorem assemble_selects {mnemonic : String} {op : Operation} {rel : Relation} (h : Selects mnemonic op rel)
    (os : List Operand) : assemble mnemonic os = withOperands mnemonic op rel os := by
  cases h with
  | plain h => exact assemble_operation op (fun hf => h ((family_compare_iff op).mp hf)) os
  | comparison rel =>
    have hf : Operation.cmp.family = .compare := rfl
    simp only [assemble, cutMnemonic_compare, operation_ofName, hf, relation_ofName]

theorem withOperands_arity (mnemonic : String) {op : Operation} (rel : Relation) {os : List Operand}
    (h : os.length ≠ op.arity) :
    withOperands mnemonic op rel os = .error (.wrongArity mnemonic op.arity os.length) := by
  simp only [withOperands]
  split
  case h_6 => rfl
  -- In the other alternatives there are as many operands as the family asks for.
  all_goals next hf => exact absurd (congrArg Family.arity hf).symm h

/-- With the right number of operands the first unwritable one is reported. -/
theorem withOperands_unwritable (mnemonic : String) {op : Operation} (rel : Relation) {os : List Operand}
    {position : Nat} (hlength : os.length = op.arity) (h : IsLeast {k | Unwritable op os k} position) :
    withOperands mnemonic op rel os = .error (.notWritable mnemonic position) := by
  obtain ⟨⟨hwritten, o, ho, hnone⟩, hleast⟩ := h
  have herror (k : Nat) : writable mnemonic k o = .error (.notWritable mnemonic k) := by
    simp only [writable, hnone]
  rw [Operation.arity] at hlength
  cases hf : op.family with
  | nullary | compare =>
    rw [hf] at hwritten
    contradiction
  | unary =>
    rw [hf] at hwritten hlength
    obtain ⟨dst, rfl⟩ := List.length_eq_one_iff.mp hlength
    obtain rfl := List.mem_singleton.mp hwritten
    obtain rfl : dst = o := Option.some.inj ho
    simp only [withOperands, hf, herror]
    rfl
  | binary =>
    rw [hf] at hwritten hlength
    obtain ⟨dst, src, rfl⟩ := List.length_eq_two.mp hlength
    obtain rfl := List.mem_singleton.mp hwritten
    obtain rfl : dst = o := Option.some.inj ho
    simp only [withOperands, hf, herror]
    rfl
  | ternary =>
    rw [hf] at hwritten hlength
    obtain ⟨a, b, c, rfl⟩ := List.length_eq_three.mp hlength
    rcases List.mem_pair.mp hwritten with rfl | rfl
    · obtain rfl : b = o := Option.some.inj ho
      simp only [withOperands, hf, herror]
      rfl
    · obtain rfl : c = o := Option.some.inj ho
      -- The second operand can be written to, or it would have been the reason.
      cases hb : b.place? with
      | none =>
        have hsecond : Unwritable op [a, b, c] 2 := ⟨by rw [hf]; decide, b, rfl, hb⟩
        exact absurd (hleast hsecond) (by decide)
      | some p =>
        have hok : writable mnemonic 2 b = .ok p := by simp only [writable, hb]
        simp only [withOperands, hf, herror, hok]
        rfl

/-- What is refused is answered with the reason. -/
theorem assemble_refused {mnemonic : String} {os : List Operand} {p : Problem} (h : Refused mnemonic os p) :
    assemble mnemonic os = .error p := by
  have hf : Operation.cmp.family = .compare := rfl
  cases h with
  | unknown hcut hname =>
    simp only [assemble, cutMnemonic_of_cut hcut, operation_ofName_none hname]
  | bareComparison hcut => simp only [assemble, cutMnemonic_of_cut hcut, operation_ofName, hf]
  | @suffixed op suffix hcut hop =>
    -- This keeps the alternatives for a comparison out of the match.
    have hother : op.family ≠ .compare := fun hf => hop ((family_compare_iff op).mp hf)
    simp only [assemble, cutMnemonic_of_cut hcut, operation_ofName]
  | notARelation hcut hname =>
    simp only [assemble, cutMnemonic_of_cut hcut, operation_ofName, hf, relation_ofName_none hname]
  | wrongArity hop hlength => rw [assemble_selects hop, withOperands_arity _ _ hlength]
  | notWritable hop hlength hleast => rw [assemble_selects hop, withOperands_unwritable _ _ hlength hleast]

/-! Nothing is left over. -/

-- A mnemonic and operands are those of a well-formed instruction, or they are refused.
def Decided (mnemonic : String) (os : List Operand) : Prop :=
  (∃ i : Instruction, i.isWellFormed = true ∧ mnemonic = i.mnemonic ∧ os = i.operands) ∨
    ∃ p, Refused mnemonic os p

theorem eq_place_of_place {o : Operand} {p : Place} (h : o.place? = some p) : o = .place p := by
  cases o with
  | place q => exact congrArg Operand.place (Option.some.inj h)
  | immediate w => contradiction
  | address l => contradiction

/-- The first operand that might not be writable decides. -/
theorem decided_unless_place {mnemonic : String} {op : Operation} {rel : Relation} {os : List Operand}
    (hop : Selects mnemonic op rel) (hlength : os.length = op.arity) (position : Nat) (o : Operand)
    (hwritten : position ∈ op.family.written) (ho : os[position - 1]? = some o)
    (hfirst : ∀ k, Unwritable op os k → position ≤ k)
    (h : ∀ p, o = .place p → Decided mnemonic os) : Decided mnemonic os := by
  cases hp : o.place? with
  | some p => exact h p (eq_place_of_place hp)
  | none => exact Or.inr ⟨_, .notWritable hop hlength ⟨⟨hwritten, o, ho, hp⟩, hfirst⟩⟩

theorem decided_of_selects {mnemonic : String} {op : Operation} {rel : Relation}
    (hop : Selects mnemonic op rel) (os : List Operand) : Decided mnemonic os := by
  by_cases hlength : os.length = op.arity
  case neg => exact Or.inr ⟨_, .wrongArity hop hlength⟩
  have hcount := hlength
  rw [Operation.arity] at hcount
  -- The family says how many operands there are and which of them have to be places.
  cases hf : op.family with
  | nullary =>
    rw [hf] at hcount
    obtain rfl := List.length_eq_zero_iff.mp hcount
    exact Or.inl ⟨.nullary op, beq_iff_eq.mpr hf, selects_plain hop (by simp [hf]), rfl⟩
  | unary =>
    rw [hf] at hcount
    obtain ⟨dst, rfl⟩ := List.length_eq_one_iff.mp hcount
    have hfirst : ∀ k ∈ op.family.written, 1 ≤ k := by rw [hf]; decide
    apply decided_unless_place hop hlength 1 dst (by rw [hf]; decide) rfl fun k hk => hfirst k hk.1
    intro p hp
    subst hp
    exact Or.inl ⟨.unary op p, beq_iff_eq.mpr hf, selects_plain hop (by simp [hf]), rfl⟩
  | binary =>
    rw [hf] at hcount
    obtain ⟨dst, src, rfl⟩ := List.length_eq_two.mp hcount
    have hfirst : ∀ k ∈ op.family.written, 1 ≤ k := by rw [hf]; decide
    apply decided_unless_place hop hlength 1 dst (by rw [hf]; decide) rfl fun k hk => hfirst k hk.1
    intro p hp
    subst hp
    exact Or.inl ⟨.binary op p src, beq_iff_eq.mpr hf, selects_plain hop (by simp [hf]), rfl⟩
  | ternary =>
    rw [hf] at hcount
    obtain ⟨a, b, c, rfl⟩ := List.length_eq_three.mp hcount
    have hfirst : ∀ k ∈ op.family.written, 2 ≤ k := by rw [hf]; decide
    apply decided_unless_place hop hlength 2 b (by rw [hf]; decide) rfl fun k hk => hfirst k hk.1
    intro p hp
    subst hp
    apply decided_unless_place hop hlength 3 c (by rw [hf]; decide) rfl
    · -- The second operand is a place by now, so only the third one can be in the way.
      intro k hk
      obtain ⟨hk, o, ho, hnone⟩ := hk
      rw [hf] at hk
      rcases List.mem_pair.mp hk with rfl | rfl
      · obtain rfl : .place p = o := Option.some.inj ho
        contradiction
      · exact Nat.le_refl 3
    intro q hq
    subst hq
    exact Or.inl ⟨.ternary op a p q, beq_iff_eq.mpr hf, selects_plain hop (by simp [hf]), rfl⟩
  | compare =>
    rw [hf] at hcount
    obtain ⟨left, right, rfl⟩ := List.length_eq_two.mp hcount
    exact Or.inl ⟨.compare rel left right, rfl, selects_comparison hop hf, rfl⟩

/-- Every mnemonic and operand list is either assembled or refused for one reason. -/
theorem decided (mnemonic : String) (os : List Operand) : Decided mnemonic os := by
  obtain ⟨name, suffix, hcut⟩ := exists_cut mnemonic
  by_cases hname : ∃ op : Operation, op.name = name
  case neg => exact Or.inr ⟨_, .unknown hcut fun op he => hname ⟨op, he⟩⟩
  obtain ⟨op, rfl⟩ := hname
  by_cases hop : op = .cmp
  · subst hop
    cases suffix with
    | none => exact Or.inr ⟨_, .bareComparison hcut⟩
    | some suffix =>
      by_cases hsuffix : ∃ rel : Relation, rel.name = suffix
      case neg => exact Or.inr ⟨_, .notARelation hcut fun rel he => hsuffix ⟨rel, he⟩⟩
      obtain ⟨rel, rfl⟩ := hsuffix
      cases hcut
      exact decided_of_selects (.comparison rel) os
  · cases suffix with
    | none =>
      cases hcut
      exact decided_of_selects (.plain hop) os
    | some suffix => exact Or.inr ⟨_, .suffixed hcut hop⟩

/-- An instruction comes out exactly of what it is taken apart into. -/
theorem assemble_ok_iff (mnemonic : String) (os : List Operand) (i : Instruction) :
    assemble mnemonic os = .ok i ↔ i.isWellFormed = true ∧ mnemonic = i.mnemonic ∧ os = i.operands := by
  constructor
  · intro h
    -- Another instruction with these parts would come out of them instead.
    rcases decided mnemonic os with ⟨i', hw, rfl, rfl⟩ | ⟨p, hp⟩
    · rw [assemble_instruction i' hw] at h
      obtain rfl := Except.ok.inj h
      exact ⟨hw, rfl, rfl⟩
    · rw [assemble_refused hp] at h
      contradiction
  · intro h
    obtain ⟨hw, rfl, rfl⟩ := h
    exact assemble_instruction i hw

/-- An error is reported exactly when the mnemonic and operands are refused for it. -/
theorem assemble_error_iff (mnemonic : String) (os : List Operand) (p : Problem) :
    assemble mnemonic os = .error p ↔ Refused mnemonic os p := by
  refine ⟨?_, assemble_refused⟩
  intro h
  rcases decided mnemonic os with ⟨i, hi⟩ | ⟨p', hp⟩
  · rw [(assemble_ok_iff mnemonic os i).mpr hi] at h
    contradiction
  · rw [assemble_refused hp] at h
    obtain rfl := Except.error.inj h
    exact hp

/-- Assembling is the exact inverse of taking apart. An instruction comes out exactly if it is well formed and the
mnemonic and the operands are its own; and a problem comes out exactly if it is the reason for which they are no
instruction's: that the part in front of the first dot names no operation, or has a suffix though it is no
comparison, or is one and has none; else that the suffix is no relation; else that the operands are too few or
too many; else the leftmost of those to be written to that cannot be. -/
theorem assemble_inverts (mnemonic : String) (os : List Operand) :
    (∀ i, assemble mnemonic os = .ok i ↔
      i.isWellFormed = true ∧ mnemonic = i.mnemonic ∧ os = i.operands) ∧
    ∀ p, assemble mnemonic os = .error p ↔ Refused mnemonic os p :=
  ⟨assemble_ok_iff mnemonic os, assemble_error_iff mnemonic os⟩

-- Only the first dot cuts, and the suffix is looked at before the operands are counted.
example : assemble "cmp.lt.u" [] = .error (.notARelation "lt.u") := by decide

end Assembly

end PagedMachine
