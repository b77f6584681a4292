import Mathlib.Tactic.SplitIfs
import PagedMachine.Source

/-! Labels in the order of their bytes. Labels are compared character by character, as numbers of code points.
The encoding of characters as bytes keeps their order, so it makes no difference whether two labels are compared
by characters or by bytes. -/
namespace PagedMachine

-- The bytes that a label is stored as.
def labelBytes (l : Label) : List UInt8 :=
  l.toUTF8.data.toList

theorem labelBytes_eq (l : Label) : labelBytes l = l.toList.flatMap String.utf8EncodeChar := by
  have hbytes : l.toUTF8 = l.toList.utf8Encode := String.utf8Encode_toList.symm
  rw [labelBytes, hbytes, List.utf8Encode, List.toList_data_toByteArray]

theorem ofNat_cons_lt (m n : Nat) (hm : m < 256) (hn : n < 256) (s t : List UInt8) :
    UInt8.ofNat m :: s < UInt8.ofNat n :: t ↔ m < n ∨ m = n ∧ s < t := by
  rw [List.cons_lt_cons_iff, UInt8.lt_iff_toNat_lt, ← UInt8.toNat_inj, UInt8.toNat_ofNat',
    UInt8.toNat_ofNat', Nat.mod_eq_of_lt hm, Nat.mod_eq_of_lt hn]

/-- The bytes of two different characters decide, whatever follows: a character with more bytes has the greater
first byte, and among those with equally many the first bytes that differ are digits of the two numbers. -/
theorem encodeChar_lt {c d : Char} (h : c < d) (s t : List UInt8) :
    String.utf8EncodeChar c ++ s < String.utf8EncodeChar d ++ t := by
  have hlt : c.val.toNat < d.val.toNat := h
  have hd : d.val.toNat < 0x110000 := by
    rcases d.valid with hvalid | hvalid
    · omega
    · omega
  -- The bytes behind the first hold digits to base 64, so the quotients are taken one digit at a time.
  have hthree (v : Nat) : v / 4096 = v / 64 / 64 := by omega
  have hfour (v : Nat) : v / 262144 = v / 64 / 64 / 64 := by omega
  simp only [String.utf8EncodeChar, hthree, hfour]
  -- One case for each two numbers of bytes; that the first character has more of them is impossible.
  split_ifs
  all_goals
    simp (disch := omega) only [List.cons_append, List.nil_append, ofNat_cons_lt]
    omega

theorem flatMap_encodeChar_lt {cs ds : List Char} (h : cs < ds) :
    cs.flatMap String.utf8EncodeChar < ds.flatMap String.utf8EncodeChar := by
  induction h with
  | @nil d ds =>
    obtain ⟨b, bs, hd⟩ := List.exists_cons_of_ne_nil (String.utf8EncodeChar_ne_nil (c := d))
    rw [List.flatMap_cons, hd]
    exact List.nil_lt_cons _ _
  | @rel c cs d ds h => exact encodeChar_lt h _ _
  | cons _ ih => exact List.append_left_lt ih

/-- The order of labels is the lexicographic order of their bytes. -/
theorem label_lt_iff_bytes (k l : Label) : k < l ↔ List.Lex (· < ·) (labelBytes k) (labelBytes l) := by
  have hforward {k l : Label} (h : k < l) : labelBytes k < labelBytes l := by
    rw [labelBytes_eq, labelBytes_eq]
    exact flatMap_encodeChar_lt h
  constructor
  · exact hforward
  · intro h
    -- Any other order of the labels would give an order of the bytes that is not this one.
    rcases Std.lt_trichotomy k l with hlt | rfl | hgt
    · exact hlt
    · exact absurd h (List.lt_irrefl _)
    · exact absurd h (List.lt_asymm (hforward hgt))

end PagedMachine
