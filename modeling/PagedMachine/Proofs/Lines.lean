import Mathlib.Data.List.Basic
import PagedMachine.Display.Table

/-! Lines of text. Lines end where they were ended, and texts that are joined at a line break keep their
lines. A table whose cells are single lines that fill their columns has one line for each row, and nothing
but the cells and the gaps between them stands there. -/
namespace PagedMachine

namespace Text

/-- Lines end where they were ended. -/
theorem lines_append (line rest : List Char) (h : ∀ c ∈ line, c ≠ '\n' ∧ c ≠ '\r') :
    lines (line ++ '\n' :: rest) = line :: lines rest := by
  induction line with
  | nil => rfl
  | cons c line ih =>
    obtain ⟨⟨hn, hr⟩, hline⟩ := List.forall_mem_cons.mp h
    rw [List.cons_append, lines, ih hline]
    · exact hn
    · intro cs hc
      exact absurd hc hr

theorem lines_flatMap (ls : List (List Char)) (h : ∀ line ∈ ls, ∀ c ∈ line, c ≠ '\n' ∧ c ≠ '\r') :
    lines (ls.flatMap (· ++ ['\n'])) = ls := by
  induction ls with
  | nil => rfl
  | cons line ls ih =>
    obtain ⟨hline, hlines⟩ := List.forall_mem_cons.mp h
    rw [List.flatMap_cons, List.append_assoc, List.singleton_append, lines_append line _ hline, ih hlines]

theorem lines_ne_nil (c : Char) (cs : List Char) : lines (c :: cs) ≠ [] := by
  unfold lines
  split
  · contradiction
  · simp
  · simp
  · split <;> simp

/-- A text without a line feed is one line. -/
theorem lines_alone (s : List Char) (hne : s ≠ []) (h : '\n' ∉ s) : lines s = [s] := by
  induction s with
  | nil => contradiction
  | cons c s ih =>
    rw [List.mem_cons, not_or] at h
    obtain ⟨hc, hs⟩ := h
    cases s with
    | nil =>
      rw [lines.eq_4 c [] (Ne.symm hc) (by simp)]
      rfl
    | cons c' s =>
      have hc' : c' ≠ '\n' := fun he => hs (he ▸ List.mem_cons_self)
      rw [lines.eq_4 c _ (Ne.symm hc) (by
        intro rest _ he
        exact hc' (List.cons.inj he).1), ih (List.cons_ne_nil _ _) hs]

/-- A character that is no part of a break joins the line behind it. -/
theorem lines_cons_append (c c' : Char) (cs t : List Char) (hn : c ≠ '\n') (hr : c = '\r' → c' ≠ '\n')
    (h : lines (c' :: cs ++ '\n' :: t) = lines (c' :: cs ++ ['\n']) ++ lines t) :
    lines (c :: c' :: cs ++ '\n' :: t) = lines (c :: c' :: cs ++ ['\n']) ++ lines t := by
  have hjoin (rest l : List Char) (ls : List (List Char)) (hrest : lines (c' :: cs ++ rest) = l :: ls) :
      lines (c :: c' :: cs ++ rest) = (c :: l) :: ls := by
    rw [List.cons_append, List.cons_append, lines.eq_4 c _ hn, ← List.cons_append, hrest]
    intro rest' hc he
    exact hr hc (List.cons.inj he).1
  obtain ⟨l, ls, hl⟩ := List.exists_cons_of_ne_nil (lines_ne_nil c' (cs ++ ['\n']))
  have hl' : lines (c' :: cs ++ '\n' :: t) = l :: (ls ++ lines t) := by
    rw [h, List.cons_append, hl, List.cons_append]
  rw [hjoin _ _ _ hl, hjoin _ _ _ hl', List.cons_append]

/-- A text that goes on behind a line feed keeps its lines. -/
theorem lines_append_break (s t : List Char) : lines (s ++ '\n' :: t) = lines (s ++ ['\n']) ++ lines t := by
  -- The line feed may complete a break whose carriage return is the last character of `s`.
  induction s using lines.induct with
  | case1 => rfl
  | case2 cs ih => simp only [List.cons_append, lines, ih]
  | case3 cs ih => simp only [List.cons_append, lines, ih]
  | case4 c cs hn hr hl ih =>
    cases cs with
    | nil =>
      by_cases hc : c = '\r'
      · rw [hc]
        rfl
      · simp [lines, hc]
    | cons c' cs => exact absurd hl (lines_ne_nil c' cs)
  | case5 c cs hn hr l ls hl ih =>
    cases cs with
    | nil => cases hl
    | cons c' cs =>
      apply lines_cons_append c c' cs t hn _ ih
      rintro hc rfl
      exact hr cs hc rfl

/-- Where no colour command starts, each character takes up a column. -/
theorem columns_plain (s : List Char) (h : '\x1b' ∉ s) : columns .outside s = s.length := by
  induction s with
  | nil => rfl
  | cons c s ih =>
    rw [List.mem_cons, not_or] at h
    rw [columns, if_neg (Ne.symm h.1), ih h.2, List.length_cons]

end Text

namespace Display

-- A cell of one line that a terminal takes as it is.
structure Plain (cell : String) : Prop where
  filled : cell.toList ≠ []
  no_break : '\n' ∉ cell.toList
  no_escape : '\x1b' ∉ cell.toList

-- The line of a row whose cells fill their columns.
def filledLine (row : List String) : String :=
  " " ++ "│".intercalate (row.map fun cell => " " ++ cell ++ " ") ++ " "

/-! Cells. -/

theorem cellLines_plain (cell : String) (h : Plain cell) : cellLines cell = [cell] := by
  rw [cellLines, Text.lines_alone _ h.filled h.no_break, List.map_singleton, String.ofList_toList]

theorem width_plain (cell : String) (h : Plain cell) : Text.width cell = cell.length := by
  rw [Text.width, Text.columns_plain _ h.no_escape, String.length_toList]

theorem cellWidth_plain (cell : String) (h : Plain cell) : cellWidth cell = cell.length := by
  rw [cellWidth, cellLines_plain cell h, List.foldl_cons, List.foldl_nil, Nat.zero_max, width_plain cell h]

/-- A cell that fills its column gets a blank on both sides and no others. -/
theorem padded_filled (alignment : Alignment) (cell : String) (h : Plain cell) :
    padded alignment cell.length cell = " " ++ cell ++ " " := by
  have hfill : blanks (cell.length - Text.width cell) = "" := by
    rw [width_plain cell h, Nat.sub_self]
    rfl
  cases alignment with
  | left => simp only [padded, hfill, String.append_empty]
  | right => simp only [padded, hfill, String.append_empty]

/-! Rows. -/

/-- A row of plain cells is one line. -/
theorem rowLines_plain (alignments : List Alignment) (widths : List Nat) (row : List String)
    (h : ∀ cell ∈ row, Plain cell) :
    rowLines alignments widths row =
      [" " ++ "│".intercalate ((alignments.zip (widths.zip row)).map fun (alignment, width, cell) =>
        padded alignment width cell) ++ " "] := by
  have hcells : (row.map fun cell => (cellLines cell).toArray) = row.map fun cell => #[cell] := by
    apply List.map_congr_left
    intro cell hcell
    rw [cellLines_plain cell (h cell hcell)]
  have hheight (cells : List String) :
      (cells.map fun cell => #[cell]).foldl (fun n lines => max n lines.size) 1 = 1 := by
    induction cells with
    | nil => rfl
    | cons cell cells ih => exact ih
  rw [rowLines, hcells, hheight]
  simp [List.range_succ, List.zip_map_right, Function.comp_def]

/-- A row of plain cells as wide as its columns is one line. -/
theorem rowLines_filled (alignments : List Alignment) (row : List String) (h : ∀ cell ∈ row, Plain cell)
    (hlength : alignments.length = row.length) :
    rowLines alignments (row.map String.length) row = [filledLine row] := by
  have hpadded : ((alignments.zip ((row.map String.length).zip row)).map fun (alignment, width, cell) =>
      padded alignment width cell) = row.map fun cell => " " ++ cell ++ " " := by
    induction row generalizing alignments with
    | nil => simp
    | cons cell row ih =>
      obtain ⟨hcell, hrow⟩ := List.forall_mem_cons.mp h
      cases alignments with
      | nil => simp at hlength
      | cons alignment alignments =>
        have hrest := ih alignments hrow (Nat.succ.inj hlength)
        simp only [List.map_cons, List.zip_cons_cons, padded_filled alignment cell hcell, hrest]
  rw [rowLines_plain alignments _ row h, hpadded, filledLine]

/-! Tables. -/

section Filled

variable (t : Table) (widths : List Nat) (hrows : ∀ row ∈ t.rows, ∀ cell ∈ row, Plain cell)
  (hwidths : ∀ row ∈ t.rows, row.map String.length = widths)
  (htitles : ∀ column ∈ t.columns, Plain column.title)
  (hroom : List.zipWith max (t.columns.map fun column => column.title.length) widths = widths)
include hrows hwidths htitles hroom

/-- Where all rows have cells of the same widths, and the titles are no wider, these are the widths of the
columns. -/
theorem widths_filled (hne : t.rows ≠ []) : t.widths = widths := by
  have hcells : ∀ row ∈ t.rows, row.map cellWidth = widths := by
    intro row hrow
    rw [← hwidths row hrow]
    apply List.map_congr_left
    intro cell hcell
    exact cellWidth_plain cell (hrows row hrow cell hcell)
  have hstart : (t.columns.map fun column => cellWidth column.title) =
      t.columns.map fun column => column.title.length := by
    apply List.map_congr_left
    intro column hcolumn
    exact cellWidth_plain column.title (htitles column hcolumn)
  -- The first row makes the widths what they are, and the others find them so.
  have hstay (rows : List (List String)) (h : ∀ row ∈ rows, row.map cellWidth = widths) :
      rows.foldl (fun widths row => List.zipWith max widths (row.map cellWidth)) widths = widths := by
    induction rows with
    | nil => rfl
    | cons row rows ih =>
      obtain ⟨hrow, hrest⟩ := List.forall_mem_cons.mp h
      have hself : List.zipWith max widths widths = widths := by simp [List.zipWith_self]
      rw [List.foldl_cons, hrow, hself, ih hrest]
  obtain ⟨row, rows, he⟩ := List.exists_cons_of_ne_nil hne
  rw [he] at hcells
  obtain ⟨hrow, hrest⟩ := List.forall_mem_cons.mp hcells
  rw [Table.widths, he, List.foldl_cons, hstart, hrow, hroom, hstay rows hrest]

/-- Below the titles and a rule, and above another one, such a table has the line of each row. -/
theorem render_filled (hcolumns : t.columns.length = widths.length) :
    ∃ header footer : List String, header.length = 2 ∧ footer.length = 1 ∧
      t.render = String.join ((header ++ t.rows.map filledLine ++ footer).map (· ++ "\n")) := by
  let alignments := t.columns.map (·.alignment)
  have htitleLine : (rowLines alignments t.widths (t.columns.map (·.title))).length = 1 := by
    rw [rowLines_plain _ _ _ (List.forall_mem_map.mpr htitles)]
    rfl
  have hbody : t.rows.flatMap (rowLines alignments t.widths) = t.rows.map filledLine := by
    rw [← List.flatMap_singleton' (t.rows.map filledLine), List.flatMap_map]
    apply List.flatMap_congr
    intro row hrow
    have hlength : alignments.length = row.length := by
      rw [List.length_map, hcolumns, ← hwidths row hrow, List.length_map]
    rw [widths_filled t widths hrows hwidths htitles hroom (List.ne_nil_of_mem hrow), ← hwidths row hrow,
      rowLines_filled alignments row (hrows row hrow) hlength]
  refine ⟨rowLines alignments t.widths (t.columns.map (·.title)) ++ [ruleLine "┼" t.widths],
    [ruleLine "┴" t.widths], ?_, rfl, ?_⟩
  · rw [List.length_append, htitleLine, List.length_singleton]
  · rw [Table.render, hbody]

end Filled

end Display

end PagedMachine
