import LensLM.Lib.Escaping
import LensLM.Lib.LineWriter
import LensLM.Lib.Slots

/-!
# Tables as markdown

A sheet is written as a table of pipes, one line a row. A reader splits a line at its unescaped
pipes, takes the blank off each side of a cell, and undoes the escapes.
-/

namespace LensLM.Tabular

open ByteText Escaping LineWriter

set_option autoImplicit false

/-- Every occurrence of a character replaced by a text. -/
def replaceChar (c : Char) (text s : Str) : Str := s.flatMap fun d => if d = c then text else [d]

def escapeCell (s : Str) : Str :=
  let s := replaceChar '\\' "\\\\".toList s
  let s := replaceChar '|' "\\|".toList s
  let s := replaceChar '`' "\\`".toList s
  s.flatMap fun d => if d = '\n' ∨ d = '\r' then " ".toList else [d]

/-- One line of cells between pipes. -/
def renderLine (cells : List Str) : Str :=
  "| ".toList ++ " | ".toList.intercalate cells ++ " |\n".toList

def renderRow (ncols : Nat) (row : List Str) : Str :=
  renderLine ((List.range ncols).map fun i => escapeCell (row.getD i []))

def renderTableMarkdown (headers : List Str) (rows : List (List Str)) : Str :=
  if headers.isEmpty then []
  else
    let ncols := headers.length
    renderLine (headers.map escapeCell) ++ renderLine (List.replicate ncols "---".toList) ++
      rows.flatMap (renderRow ncols)

section Reading

/-- The lines of a text, the last one with or without its end. -/
def lines (s : Str) : List Str :=
  let ls := s.splitOn '\n'
  if ls.getLast? = some [] then ls.dropLast else ls

/-- What stands between the unescaped pipes of a line that begins and ends in one. -/
def splitCells (line : Str) : Option (List Str) :=
  match splitBare '\\' '|' line with
  | [] :: rest => if rest.getLast? = some [] then some rest.dropLast else none
  | _ => none

/-- A cell without the one blank on each side. -/
def unpad : Str → Option Str
  | ' ' :: s => if s.getLast? = some ' ' then some s.dropLast else none
  | _ => none

def readCell (cell : Str) : Option Str := (unpad cell).map (unescape '\\')

/-- Each line break turned into a space. -/
def spaced (s : Str) : Str := s.map fun c => if c = '\n' ∨ c = '\r' then ' ' else c

/-- The line splits into as many cells, and they read back as these up to line breaks. -/
def ReadsAs (line : Str) (cells : List Str) : Prop :=
  ∃ parts, splitCells line = some parts ∧ parts.length = cells.length ∧
    parts.map readCell = cells.map fun c => some (spaced c)

/-- A row padded or truncated to the width of the header. -/
def fitRow (ncols : Nat) (row : List Str) : List Str := (List.range ncols).map fun i => row.getD i []

end Reading

section Escapes

def isSpecial (c : Char) : Bool := c == '\\' || c == '|' || c == '`'

theorem flatMap_replaceChar {c : Char} {r : Str} (f : Char → Str) (s : Str) :
    (replaceChar c r s).flatMap f = s.flatMap fun d => if d = c then r.flatMap f else f d := by
  unfold replaceChar
  rw [List.flatMap_assoc]
  apply List.flatMap_congr
  intro d _
  split
  · rfl
  · exact List.flatMap_singleton f d

/-- The replacements one after the other put one escape before each special character. -/
theorem escapeCell_eq (s : Str) : escapeCell s = escaped '\\' isSpecial (spaced s) := by
  unfold escapeCell escaped spaced
  dsimp only
  rw [flatMap_replaceChar, flatMap_replaceChar, flatMap_replaceChar, List.flatMap_map]
  apply List.flatMap_congr
  intro d _
  by_cases hb : d = '\\'
  · subst hb
    rfl
  by_cases hp : d = '|'
  · subst hp
    rfl
  by_cases ht : d = '`'
  · subst ht
    rfl
  rw [if_neg hb, if_neg hp, if_neg ht]
  by_cases hn : d = '\n' ∨ d = '\r'
  · rw [if_pos hn, if_pos hn]
    rfl
  · have hplain : isSpecial d = false := by simp [isSpecial, hb, hp, ht]
    rw [if_neg hn, if_neg hn, hplain]
    rfl

/-- A cell with the blank on each side. -/
def padded (cell : Str) : Str := ' ' :: (escapeCell cell ++ [' '])

theorem whole_padded (cell : Str) : Whole '\\' '|' (padded cell) := by
  have hcell : Whole '\\' '|' (escapeCell cell) := by
    rw [escapeCell_eq]
    exact whole_escaped rfl rfl _
  exact .plain (by decide) (by decide) (hcell.append (.plain (by decide) (by decide) .nil))

theorem readCell_padded (cell : Str) : readCell (padded cell) = some (spaced cell) := by
  have hlast : (escapeCell cell ++ [' ']).getLast? = some ' ' := List.getLast?_concat
  have hunpad : unpad (' ' :: (escapeCell cell ++ [' '])) = some (escapeCell cell) := by
    rw [unpad, if_pos hlast, List.dropLast_concat]
  unfold readCell padded
  rw [hunpad, Option.map_some, escapeCell_eq, unescape_escaped rfl]

theorem newline_notMem_escapeCell (cell : Str) : '\n' ∉ escapeCell cell := by
  rw [escapeCell_eq]
  intro h
  obtain ⟨d, hd, hmem⟩ := List.mem_flatMap.mp h
  obtain ⟨c, _, hc⟩ := List.mem_map.mp hd
  have hdn : d ≠ '\n' := by
    rw [← hc]
    split
    · decide
    · rename_i hno
      exact fun heq => hno (.inl heq)
  split at hmem
  · rcases List.mem_cons.mp hmem with heq | hmem
    · exact absurd heq (by decide)
    · exact hdn (List.mem_singleton.mp hmem).symm
  · exact hdn (List.mem_singleton.mp hmem).symm

end Escapes

section Lines

/-- A line of cells without its end. -/
def lineOf (cells : List Str) : Str := '|' :: cells.flatMap fun c => ' ' :: (c ++ [' ', '|'])

theorem renderLine_eq {cells : List Str} (h : cells ≠ []) :
    renderLine cells = lineOf cells ++ ['\n'] := by
  have hjoin : ∀ c cs, " ".toList ++ " | ".toList.intercalate (c :: cs) ++ " |".toList =
      (c :: cs).flatMap fun c => ' ' :: (c ++ [' ', '|']) := by
    intro c cs
    induction cs generalizing c with
    | nil => simp [List.intercalate]
    | cons d cs ih =>
      rw [List.intercalate_cons_cons, List.flatMap_cons, ← ih d]
      simp
  cases cells with
  | nil => exact absurd rfl h
  | cons c cs =>
    unfold renderLine lineOf
    rw [← hjoin c cs]
    simp

theorem newline_notMem_lineOf {cells : List Str} (h : ∀ c ∈ cells, '\n' ∉ c) :
    '\n' ∉ lineOf cells := by
  intro hmem
  rcases List.mem_cons.mp hmem with heq | hmem
  · exact absurd heq (by decide)
  · obtain ⟨c, hc, hmem⟩ := List.mem_flatMap.mp hmem
    rcases List.mem_cons.mp hmem with heq | hmem
    · exact absurd heq (by decide)
    · rcases List.mem_append.mp hmem with hmem | hmem
      · exact h c hc hmem
      · exact absurd hmem (by decide)

/-- The lines that were written one after the other. -/
theorem lines_flatMap {ls : List Str} (h : ∀ l ∈ ls, '\n' ∉ l) :
    lines (ls.flatMap (· ++ ['\n'])) = ls := by
  have hjoin : ls.flatMap (· ++ ['\n']) = ['\n'].intercalate (ls ++ [[]]) := by
    clear h
    induction ls with
    | nil => rfl
    | cons l ls ih =>
      rw [List.flatMap_cons, ih]
      cases ls with
      | nil => simp [List.intercalate]
      | cons m ms => simp [List.intercalate_cons_cons]
  have hsplit : (ls.flatMap (· ++ ['\n'])).splitOn '\n' = ls ++ [[]] := by
    rw [hjoin]
    apply List.splitOn_intercalate
    · exact Slots.forall_mem_push h List.not_mem_nil
    · exact List.append_ne_nil_of_right_ne_nil _ (List.cons_ne_nil _ _)
  unfold lines
  dsimp only
  rw [hsplit, if_pos List.getLast?_concat, List.dropLast_concat]

theorem readsAs_lineOf (cells : List Str) : ReadsAs (lineOf (cells.map escapeCell)) cells := by
  have hfields : (cells.map escapeCell).flatMap (fun c => ' ' :: (c ++ [' ', '|'])) =
      (cells.map padded).flatMap (· ++ ['|']) := by
    rw [List.flatMap_map, List.flatMap_map]
    apply List.flatMap_congr
    intro c _
    simp [padded]
  have hsplit : splitBare '\\' '|' (lineOf (cells.map escapeCell)) =
      [] :: (cells.map padded ++ [[]]) := by
    unfold lineOf
    rw [splitBare_cons_sep, hfields, splitBare_fields (by decide)]
    intro f hf
    obtain ⟨c, _, rfl⟩ := List.mem_map.mp hf
    exact whole_padded c
  refine ⟨cells.map padded, ?_, List.length_map _, ?_⟩
  · unfold splitCells
    rw [hsplit]
    dsimp only
    rw [if_pos List.getLast?_concat, List.dropLast_concat]
  · rw [List.map_map]
    apply List.map_congr_left
    intro c _
    exact readCell_padded c

end Lines

theorem renderRow_eq {ncols : Nat} (h : ncols ≠ 0) (row : List Str) :
    renderRow ncols row = lineOf ((fitRow ncols row).map escapeCell) ++ ['\n'] := by
  have hcells : (fitRow ncols row).map escapeCell =
      (List.range ncols).map fun i => escapeCell (row.getD i []) := by
    unfold fitRow
    rw [List.map_map]
    rfl
  rw [hcells]
  apply renderLine_eq
  intro hnil
  exact h (by simpa using hnil)

/-- A table has two lines and one for each row, and the lines of the header and of the rows read
back as their cells. -/
theorem renderTableMarkdown_readsBack (headers : List Str) (rows : List (List Str))
    (h : headers ≠ []) :
    ∃ header separator body, lines (renderTableMarkdown headers rows) = header :: separator :: body ∧
      ReadsAs header headers ∧
      List.Forall₂ ReadsAs body (rows.map (fitRow headers.length)) := by
  have hcols : headers.length ≠ 0 := fun hzero => h (List.length_eq_zero_iff.mp hzero)
  let separator := lineOf (List.replicate headers.length "---".toList)
  let body := rows.map fun row => lineOf ((fitRow headers.length row).map escapeCell)
  have hnoBreak : ∀ cells : List Str, '\n' ∉ lineOf (cells.map escapeCell) := by
    intro cells
    apply newline_notMem_lineOf
    intro c hc
    obtain ⟨d, _, rfl⟩ := List.mem_map.mp hc
    exact newline_notMem_escapeCell d
  have hrender : renderTableMarkdown headers rows =
      (lineOf (headers.map escapeCell) :: separator :: body).flatMap (· ++ ['\n']) := by
    unfold renderTableMarkdown
    rw [List.isEmpty_eq_false_iff.mpr h, List.flatMap_cons, List.flatMap_cons, List.flatMap_map]
    dsimp only
    rw [if_neg Bool.false_ne_true, renderLine_eq (by simpa using h),
      renderLine_eq (by simpa using hcols), List.append_assoc]
    congr 2
    apply List.flatMap_congr
    intro row _
    exact renderRow_eq hcols row
  refine ⟨lineOf (headers.map escapeCell), separator, body, ?_, readsAs_lineOf headers, ?_⟩
  · rw [hrender]
    apply lines_flatMap
    intro l hl
    rcases List.mem_cons.mp hl with rfl | hl
    · exact hnoBreak headers
    rcases List.mem_cons.mp hl with rfl | hl
    · apply newline_notMem_lineOf
      intro c hc
      rw [List.eq_of_mem_replicate hc]
      decide
    · obtain ⟨row, _, rfl⟩ := List.mem_map.mp hl
      exact hnoBreak _
  · apply List.forall₂_map_left_iff.mpr
    apply List.forall₂_map_right_iff.mpr
    apply List.forall₂_same.mpr
    intro row _
    exact readsAs_lineOf _

theorem renderTableMarkdown_readsBack_pipe : ∃ header separator body,
    lines (renderTableMarkdown ["H".toList] [["a|b\nc".toList, "d".toList]]) =
      header :: separator :: body ∧
    ReadsAs header ["H".toList] ∧
    List.Forall₂ ReadsAs body ([["a|b\nc".toList, "d".toList]].map (fitRow 1)) :=
  renderTableMarkdown_readsBack ["H".toList] [["a|b\nc".toList, "d".toList]]
    (List.cons_ne_nil _ _)

end LensLM.Tabular
