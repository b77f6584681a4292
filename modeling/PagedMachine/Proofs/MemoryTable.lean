import PagedMachine.Display.Engine
import PagedMachine.Proofs.Lines
import PagedMachine.Proofs.TouchedRanges

/-! The table that memory is shown by. The walk over the rows of a range counts in numbers wider than
addresses, so that it ends also behind the last address; the rows it comes to are those of sixteen bytes in
which something is stored, each of them once and in ascending order. All addresses are shown by ten characters
and all rows of bytes by forty-seven, so that each row of the table is a line of its text. -/
namespace PagedMachine

-- The line that the walk over a range comes to after `k` rows.
def lineAfter (first : Address) (k : Nat) : Line :=
  first.setWidth 64 + BitVec.ofNat 64 (k * rowSize)

-- The address of the `k`th row of a range.
def rowAddress (first : Address) (k : Nat) : Address :=
  first + BitVec.ofNat 32 (k * rowSize)

-- What is stored in the row from an address on.
def Memory.rowAt (m : Memory) (a : Address) : List (Option Byte) :=
  (List.range rowSize).map fun i => m.get? (a + BitVec.ofNat 32 i)

-- Whether the row from an address on is to be shown.
def Memory.HasRow (m : Memory) (a : Address) : Prop :=
  rowSize ∣ a.toNat ∧ ∃ i < rowSize, (m.get? (a + BitVec.ofNat 32 i)).isSome = true

-- The walk over a range makes exactly `n` rows: up to there its condition holds of the line it has come to,
-- and then no more. No line wraps around.
structure Memory.Passes (m : Memory) (first last : Address) (n : Nat) : Prop where
  goes_on : ∀ k < n, lineAfter first k ≤ last.setWidth 64
  ends : ¬lineAfter first n ≤ last.setWidth 64
  exact_lines : ∀ k ≤ n, (lineAfter first k).toNat = first.toNat + k * rowSize
  rows : m.rowsFrom last (first.setWidth 64) =
    (List.range n).filterMap fun k => m.row? last (lineAfter first k)

def hexDigits : List Char :=
  ['0', '1', '2', '3', '4', '5', '6', '7', '8', '9', 'a', 'b', 'c', 'd', 'e', 'f']

theorem dump_row (m : Memory) (a : Address) :
    m.dump a.toNat (a.toNat + (rowSize - 1)) = m.rowAt a := by
  have hlength : a.toNat + (rowSize - 1) + 1 - a.toNat = rowSize := by
    simp only [rowSize]
    omega
  rw [Memory.dump, interval, hlength, List.map_map, Memory.rowAt]
  apply List.map_congr_left
  intro i _
  simp only [Function.comp_apply, BitVec.ofNat_add, BitVec.ofNat_toNat, BitVec.setWidth_eq]

/-! The walk over the rows of a range. -/

section Walk

variable (m : Memory) (first last : Address) (n : Nat)
  (hn : first.toNat + n * rowSize = last.toNat + 1)

theorem lineAfter_succ (k : Nat) :
    lineAfter first (k + 1) = lineAfter first k + BitVec.ofNat 64 rowSize := by
  rw [lineAfter, lineAfter, Nat.succ_mul, BitVec.ofNat_add, BitVec.add_assoc]

/-- A line and the address of its row have the same low bits. -/
theorem lineAfter_address (k : Nat) : (lineAfter first k).setWidth 32 = rowAddress first k := by
  rw [lineAfter, BitVec.setWidth_add _ _ (by decide), BitVec.setWidth_setWidth_of_le _ (by decide),
    BitVec.setWidth_eq, BitVec.setWidth_ofNat_of_le (by decide), rowAddress]

theorem toNat_bound : (last.setWidth 64 : Line).toNat = last.toNat :=
  BitVec.toNat_setWidth_of_le (by decide)

include hn

/-- Lines have room for the number behind the last address. -/
theorem toNat_lineAfter (k : Nat) (hk : k ≤ n) :
    (lineAfter first k).toNat = first.toNat + k * rowSize := by
  have hlast := last.isLt
  have hrows : k * rowSize ≤ n * rowSize := Nat.mul_le_mul_right rowSize hk
  have hsum := toNat_add_ofNat (first.setWidth 64 : Line) (k * rowSize) (by rw [toNat_bound]; omega)
  rw [lineAfter, hsum, toNat_bound]

/-- The loop goes on for exactly as many rows as start within the range. -/
theorem lineAfter_le_iff (k : Nat) (hk : k ≤ n) :
    lineAfter first k ≤ last.setWidth 64 ↔ k < n := by
  have hline := toNat_lineAfter first last n hn k hk
  rw [BitVec.le_def, hline, toNat_bound]
  simp only [rowSize] at hn ⊢
  omega

/-- From any of its rows on, the walk comes to the rows that are left. -/
theorem rowsFrom_lineAfter (left k : Nat) (hk : k + left = n) :
    m.rowsFrom last (lineAfter first k) =
      (List.range' k left).filterMap fun j => m.row? last (lineAfter first j) := by
  induction left generalizing k with
  | zero =>
    have hend : ¬lineAfter first k ≤ last.setWidth 64 := by
      rw [lineAfter_le_iff first last n hn k (by omega)]
      omega
    rw [Memory.rowsFrom, if_neg hend]
    rfl
  | succ left ih =>
    have hgoes : lineAfter first k ≤ last.setWidth 64 := by
      rw [lineAfter_le_iff first last n hn k (by omega)]
      omega
    rw [Memory.rowsFrom, if_pos hgoes, ← lineAfter_succ, ih (k + 1) (by omega), List.range'_succ,
      List.filterMap_cons]
    cases m.row? last (lineAfter first k) <;> rfl

/-- The loop over rows visits each row once and ends. -/
theorem rows_passes : m.Passes first last n where
  goes_on k hk := (lineAfter_le_iff first last n hn k (by omega)).mpr hk
  ends h := Nat.lt_irrefl n ((lineAfter_le_iff first last n hn n (Nat.le_refl n)).mp h)
  exact_lines := toNat_lineAfter first last n hn
  rows := by
    have hrows := rowsFrom_lineAfter m first last n hn n 0 (Nat.zero_add n)
    rw [← List.range_eq_range'] at hrows
    rw [← hrows, lineAfter, Nat.zero_mul, BitVec.add_zero]

theorem toNat_rowAddress (k : Nat) (hk : k < n) :
    (rowAddress first k).toNat = first.toNat + k * rowSize := by
  have hlast := last.isLt
  have hrows : (k + 1) * rowSize ≤ n * rowSize := Nat.mul_le_mul_right rowSize hk
  apply toNat_add_ofNat
  simp only [rowSize] at hrows hn ⊢
  omega

/-- A row of a range has all its sixteen bytes, and is left out if none of them is stored. -/
theorem row_lineAfter (k : Nat) (hk : k < n) :
    m.row? last (lineAfter first k) =
      if (m.rowAt (rowAddress first k)).any Option.isSome then
        some (rowAddress first k, m.rowAt (rowAddress first k))
      else none := by
  have hline := toNat_lineAfter first last n hn k (by omega)
  have haddress := toNat_rowAddress first last n hn k hk
  have hrows : (k + 1) * rowSize ≤ n * rowSize := Nat.mul_le_mul_right rowSize hk
  have hlast := last.isLt
  -- The row ends within its range, so it is not cut off there.
  have hend : (lineAfter first k + BitVec.ofNat 64 (rowSize - 1)).toNat =
      (rowAddress first k).toNat + (rowSize - 1) := by
    rw [haddress, ← hline]
    apply toNat_add_ofNat
    simp only [rowSize] at hline hrows hn ⊢
    omega
  have hfull : lineAfter first k + BitVec.ofNat 64 (rowSize - 1) ≤ last.setWidth 64 := by
    rw [BitVec.le_def, hend, haddress, toNat_bound]
    simp only [rowSize] at hrows hn ⊢
    omega
  have hlow : ((lineAfter first k + BitVec.ofNat 64 (rowSize - 1)).setWidth 32).toNat =
      (rowAddress first k).toNat + (rowSize - 1) := by
    rw [BitVec.toNat_setWidth, hend]
    apply Nat.mod_eq_of_lt
    rw [haddress]
    simp only [rowSize] at hrows hn ⊢
    omega
  simp only [Memory.row?, if_pos hfull, lineAfter_address, hlow, dump_row]

/-- A row is shown exactly when it holds a stored byte. -/
theorem row_eq_some_iff (k : Nat) (hk : k < n) (x : Address × List (Option Byte)) :
    m.row? last (lineAfter first k) = some x ↔
      (m.rowAt (rowAddress first k)).any Option.isSome = true ∧
        x = (rowAddress first k, m.rowAt (rowAddress first k)) := by
  rw [row_lineAfter m first last n hn k hk]
  split_ifs with hany
  · simp only [Option.some.injEq, hany, true_and]
    exact eq_comm
  · simp [hany]

/-- The rows of a range are those in which something is stored. -/
theorem mem_rowsFrom (x : Address × List (Option Byte)) :
    x ∈ m.rowsFrom last (first.setWidth 64) ↔
      ∃ k < n, (m.rowAt (rowAddress first k)).any Option.isSome = true ∧
        x = (rowAddress first k, m.rowAt (rowAddress first k)) := by
  rw [(rows_passes m first last n hn).rows, List.mem_filterMap]
  constructor
  · rintro ⟨k, hk, hrow⟩
    rw [List.mem_range] at hk
    exact ⟨k, hk, (row_eq_some_iff m first last n hn k hk x).mp hrow⟩
  · rintro ⟨k, hk, hrow⟩
    exact ⟨k, List.mem_range.mpr hk, (row_eq_some_iff m first last n hn k hk x).mpr hrow⟩

theorem rowsFrom_ascending :
    (m.rowsFrom last (first.setWidth 64)).Pairwise fun x y => x.1.toNat < y.1.toNat := by
  rw [(rows_passes m first last n hn).rows, List.pairwise_filterMap]
  refine List.pairwise_lt_range.imp_of_mem ?_
  intro k k' hk hk' hlt x hx y hy
  rw [List.mem_range] at hk hk'
  obtain ⟨-, rfl⟩ := (row_eq_some_iff m first last n hn k hk x).mp hx
  obtain ⟨-, rfl⟩ := (row_eq_some_iff m first last n hn k' hk' y).mp hy
  have hrows : k * rowSize < k' * rowSize := Nat.mul_lt_mul_of_pos_right hlt (by decide)
  simp only [toNat_rowAddress first last n hn k hk, toNat_rowAddress first last n hn k' hk']
  omega

end Walk

/-! The rows of all ranges. -/

/-- A touched range consists of whole rows. -/
theorem range_rows (m : Memory) (p : Address × Address) (hp : p ∈ m.touchedBounds) :
    rowSize ∣ p.1.toNat ∧ ∃ n, p.1.toNat + n * rowSize = p.2.toNat + 1 := by
  have hcover := touchedBounds_cover m
  obtain ⟨hfirst, hlast⟩ := hcover.aligned p hp
  have hordered := hcover.ordered p hp
  have hdvd : rowSize ∣ blockSize := by decide
  obtain ⟨n, hn⟩ := Nat.dvd_sub (Nat.dvd_trans hdvd hlast) (Nat.dvd_trans hdvd hfirst)
  refine ⟨Nat.dvd_trans hdvd hfirst, n, ?_⟩
  rw [Nat.mul_comm, ← hn]
  omega

theorem any_rowAt (m : Memory) (a : Address) :
    (m.rowAt a).any Option.isSome = true ↔
      ∃ i < rowSize, (m.get? (a + BitVec.ofNat 32 i)).isSome = true := by
  simp [Memory.rowAt]

/-- A byte of an aligned row lies at the row's address and its own place in the row. -/
theorem toNat_row_byte (a : Address) (ha : rowSize ∣ a.toNat) (i : Nat) (hi : i < rowSize) :
    (a + BitVec.ofNat 32 i).toNat = a.toNat + i := by
  have hlt := a.isLt
  apply toNat_add_ofNat
  simp only [rowSize] at ha hi
  omega

/-- The rows are those that hold a stored byte, each with its bytes. -/
theorem mem_rows (m : Memory) (x : Address × List (Option Byte)) :
    x ∈ m.rows ↔ m.HasRow x.1 ∧ x.2 = m.rowAt x.1 := by
  rw [Memory.rows, List.mem_flatMap]
  constructor
  · rintro ⟨p, hp, hx⟩
    obtain ⟨haligned, n, hn⟩ := range_rows m p hp
    obtain ⟨k, hk, hany, rfl⟩ := (mem_rowsFrom m p.1 p.2 n hn x).mp hx
    have haddress := toNat_rowAddress p.1 p.2 n hn k hk
    refine ⟨⟨?_, (any_rowAt m _).mp hany⟩, rfl⟩
    rw [haddress]
    exact Nat.dvd_add haligned (Nat.dvd_mul_left _ _)
  · rintro ⟨⟨haligned, i, hi, hstored⟩, hbytes⟩
    -- The stored byte lies in a range, and with it the whole row.
    have hbyte := toNat_row_byte x.1 haligned i hi
    obtain ⟨p, hp, hfirst, hlast⟩ :=
      ((touchedBounds_cover m).covers (x.1 + BitVec.ofNat 32 i).toNat).mpr ⟨_, rfl, hstored⟩
    obtain ⟨hstart, n, hn⟩ := range_rows m p hp
    let k := (x.1.toNat - p.1.toNat) / rowSize
    have hk : k < n ∧ p.1.toNat + k * rowSize = x.1.toNat := by
      simp only [k, rowSize] at haligned hstart hi hn ⊢
      omega
    have haddress : x.1 = rowAddress p.1 k := by
      apply BitVec.eq_of_toNat_eq
      rw [toNat_rowAddress p.1 p.2 n hn k hk.1, hk.2]
    refine ⟨p, hp, (mem_rowsFrom m p.1 p.2 n hn x).mpr ⟨k, hk.1, ?_, ?_⟩⟩
    · rw [← haddress, any_rowAt]
      exact ⟨i, hi, hstored⟩
    · rw [← haddress, ← hbytes]

theorem rows_ascending (m : Memory) : m.rows.Pairwise fun x y => x.1.toNat < y.1.toNat := by
  have hcover := touchedBounds_cover m
  rw [Memory.rows, List.pairwise_flatMap]
  constructor
  · intro p hp
    obtain ⟨-, n, hn⟩ := range_rows m p hp
    exact rowsFrom_ascending m p.1 p.2 n hn
  · refine hcover.apart.imp_of_mem ?_
    intro p q hp hq hapart x hx y hy
    obtain ⟨-, n, hn⟩ := range_rows m p hp
    obtain ⟨-, n', hn'⟩ := range_rows m q hq
    obtain ⟨k, hk, -, rfl⟩ := (mem_rowsFrom m p.1 p.2 n hn x).mp hx
    obtain ⟨k', hk', -, rfl⟩ := (mem_rowsFrom m q.1 q.2 n' hn' y).mp hy
    have hrows : (k + 1) * rowSize ≤ n * rowSize := Nat.mul_le_mul_right rowSize hk
    simp only [toNat_rowAddress p.1 p.2 n hn k hk, toNat_rowAddress q.1 q.2 n' hn' k' hk']
    simp only [rowSize] at hrows hn ⊢
    omega

/-- Each address is one cell of one aligned row. -/
theorem existsUnique_cell (b : Address) :
    ∃! cell : Address × Nat, rowSize ∣ cell.1.toNat ∧ cell.2 < rowSize ∧
      cell.1 + BitVec.ofNat 32 cell.2 = b := by
  have hlt := b.isLt
  have hbase : (BitVec.ofNat 32 (b.toNat / rowSize * rowSize)).toNat = b.toNat / rowSize * rowSize :=
    Nat.mod_eq_of_lt (Nat.lt_of_le_of_lt (Nat.div_mul_le_self _ _) hlt)
  have haligned : rowSize ∣ (BitVec.ofNat 32 (b.toNat / rowSize * rowSize)).toNat := by
    rw [hbase]
    exact Nat.dvd_mul_left _ _
  have hcell : b.toNat % rowSize < rowSize := Nat.mod_lt _ (by decide)
  refine ⟨(BitVec.ofNat 32 (b.toNat / rowSize * rowSize), b.toNat % rowSize),
    ⟨haligned, hcell, ?_⟩, ?_⟩
  · apply BitVec.eq_of_toNat_eq
    rw [toNat_row_byte _ haligned _ hcell, hbase]
    exact Nat.div_add_mod' _ _
  · rintro ⟨a, i⟩ ⟨ha, hi, rfl⟩
    have hbyte := toNat_row_byte a ha i hi
    simp only [hbyte]
    simp only [rowSize] at ha hi ⊢
    rw [Prod.mk.injEq]
    refine ⟨BitVec.eq_of_toNat_eq ?_, by omega⟩
    rw [BitVec.toNat_ofNat, Nat.mod_eq_of_lt (by omega)]
    omega

/-- A stored byte is shown as two hexadecimal digits. -/
theorem byteText_digits (b : Byte) :
    ∃ high low, hexDigits[b.toNat / 16]? = some high ∧ hexDigits[b.toNat % 16]? = some low ∧
      byteText (some b) = String.ofList [high, low] := by
  have hlt := b.isLt
  have hdigit : ∀ n < 16, hexDigits[n]? = some (Nat.digitChar n) := by decide
  have hhigh : b.toNat / 16 % 16 = b.toNat / 16 := Nat.mod_eq_of_lt (by omega)
  refine ⟨_, _, hdigit _ (by omega), hdigit _ (by omega), ?_⟩
  simp only [byteText, hexText, List.nil_append, List.cons_append, hhigh]

/-! The rows as text. -/

-- The characters that addresses and bytes are shown by.
def cellCharacters : List Char :=
  hexDigits ++ ['x', '.', ' ']

def Memory.rowText (m : Memory) (a : Address) : String :=
  " ".intercalate ((List.range rowSize).map fun i => byteText (m.get? (a + BitVec.ofNat 32 i)))

theorem plain_of_cellCharacters (cell : String) (hlength : cell.length ≠ 0)
    (h : ∀ c ∈ cell.toList, c ∈ cellCharacters) : Display.Plain cell where
  filled hnil := by
    rw [← String.length_toList, hnil] at hlength
    exact hlength rfl
  no_break hmem := absurd (h _ hmem) (by decide)
  no_escape hmem := absurd (h _ hmem) (by decide)

theorem hexText_length (digits n : Nat) : (hexText digits n).length = digits := by
  induction digits generalizing n with
  | zero => rfl
  | succ digits ih => rw [hexText, List.length_append, ih, List.length_singleton]

theorem hexText_characters (digits n : Nat) : ∀ c ∈ hexText digits n, c ∈ cellCharacters := by
  have hdigit : ∀ n < 16, Nat.digitChar n ∈ cellCharacters := by decide
  induction digits generalizing n with
  | zero => simp [hexText]
  | succ digits ih =>
    intro c hc
    rw [hexText, List.mem_append, List.mem_singleton] at hc
    rcases hc with hc | rfl
    · exact ih (n / 16) c hc
    · exact hdigit (n % 16) (Nat.mod_lt n (by decide))

theorem hex_shown (a : Address) : a.hex.length = 10 ∧ ∀ c ∈ a.hex.toList, c ∈ cellCharacters := by
  have htext : a.hex.toList = ['0', 'x'] ++ hexText 8 a.toNat := by
    rw [Word.hex, String.toList_append, String.toList_ofList, String.toList_ofList]
  constructor
  · rw [← String.length_toList, htext, List.length_append, hexText_length, List.length_cons,
      List.length_singleton]
  · rw [htext, List.forall_mem_append]
    exact ⟨by simp [cellCharacters, hexDigits], hexText_characters 8 a.toNat⟩

theorem byteText_shown (b : Option Byte) :
    (byteText b).length = 2 ∧ ∀ c ∈ (byteText b).toList, c ∈ cellCharacters := by
  cases b with
  | none => exact ⟨rfl, by simp [byteText, cellCharacters]⟩
  | some b =>
    rw [byteText, ← String.length_toList, String.toList_ofList]
    exact ⟨hexText_length 2 b.toNat, hexText_characters 2 b.toNat⟩

/-- Texts of one length with a blank between any two of them. -/
theorem intercalate_shown (n : Nat) (s : String) (ss : List String)
    (h : ∀ t ∈ s :: ss, t.length = n ∧ ∀ c ∈ t.toList, c ∈ cellCharacters) :
    (" ".intercalate (s :: ss)).length = n + ss.length * (n + 1) ∧
      ∀ c ∈ (" ".intercalate (s :: ss)).toList, c ∈ cellCharacters := by
  induction ss generalizing s with
  | nil =>
    rw [String.intercalate_singleton, List.length_nil, Nat.zero_mul, Nat.add_zero]
    exact h s List.mem_cons_self
  | cons t ss ih =>
    obtain ⟨⟨hlength, hchars⟩, hrest⟩ := List.forall_mem_cons.mp h
    obtain ⟨hlengths, hall⟩ := ih t hrest
    rw [String.intercalate_cons_cons]
    constructor
    · have hblank : " ".length = 1 := rfl
      rw [String.length_append, String.length_append, hlengths, hlength, hblank, List.length_cons,
        Nat.succ_mul]
      omega
    · rw [String.toList_append, String.toList_append, List.forall_mem_append, List.forall_mem_append]
      exact ⟨⟨hchars, by simp [cellCharacters]⟩, hall⟩

/-- The bytes of a row are shown in 47 plain characters. -/
theorem rowText_shown (m : Memory) (a : Address) :
    (m.rowText a).length = 47 ∧ ∀ c ∈ (m.rowText a).toList, c ∈ cellCharacters := by
  rw [Memory.rowText, rowSize, List.range_succ_eq_map, List.map_cons]
  have hshown := intercalate_shown 2 (byteText (m.get? (a + BitVec.ofNat 32 0)))
    (((List.range 15).map Nat.succ).map fun i => byteText (m.get? (a + BitVec.ofNat 32 i))) (by
      intro t ht
      rw [List.mem_cons, List.mem_map] at ht
      rcases ht with rfl | ⟨i, -, rfl⟩ <;> exact byteText_shown _)
  rw [List.length_map, List.length_map, List.length_range] at hshown
  exact hshown

/-- Each row of the table is a line of its text, which has the address and the bytes and nothing else. -/
theorem display_rows (m : Memory) (rows : List Address)
    (h : m.table.rows = rows.map fun a => [a.hex, m.rowText a]) :
    ∃ header footer : List String, header.length = 2 ∧ footer.length = 1 ∧
      m.display = String.join ((header ++
        rows.map (fun a => "  " ++ a.hex ++ " │ " ++ m.rowText a ++ "  ") ++ footer).map (· ++ "\n")) := by
  have hline (a : Address) : Display.filledLine [a.hex, m.rowText a] =
      "  " ++ a.hex ++ " │ " ++ m.rowText a ++ "  " := by
    apply String.toList_injective
    simp [Display.filledLine]
  have hplain : ∀ row ∈ m.table.rows, ∀ cell ∈ row, Display.Plain cell := by
    rw [h, List.forall_mem_map]
    intro a _ cell hcell
    rw [List.mem_pair] at hcell
    rcases hcell with rfl | rfl
    · exact plain_of_cellCharacters _ (by simp [(hex_shown a).1]) (hex_shown a).2
    · exact plain_of_cellCharacters _ (by simp [(rowText_shown m a).1]) (rowText_shown m a).2
  have hwidths : ∀ row ∈ m.table.rows, row.map String.length = [10, 47] := by
    rw [h, List.forall_mem_map]
    intro a _
    rw [List.map_cons, List.map_singleton, (hex_shown a).1, (rowText_shown m a).1]
  have htitles : ∀ column ∈ m.table.columns, Display.Plain column.title := by
    intro column hcolumn
    have hcolumns : column = ⟨"Address", .right⟩ ∨ column = ⟨"Contents", .left⟩ := List.mem_pair.mp hcolumn
    rcases hcolumns with rfl | rfl <;> exact ⟨by decide, by decide, by decide⟩
  obtain ⟨header, footer, hheader, hfooter, htext⟩ :=
    Display.render_filled m.table [10, 47] hplain hwidths htitles rfl rfl
  refine ⟨header, footer, hheader, hfooter, ?_⟩
  rw [Memory.display, htext, h, List.map_map]
  simp only [Function.comp_def, hline]

end PagedMachine
