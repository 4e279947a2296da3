import RocTui.Frame

namespace RocTui.Layout

open RocTui.Effects RocTui.Markup RocTui.Frame
open RocTui.Lib.Escapes RocTui.Lib.Display

def visible (row : List Terminal) : List Char :=
  row.flatMap fun
    | .Text str => str.toList
    | _ => []

def overlay (rows : List (List Char)) (column : Nat) : Option Char :=
  rows.foldl (fun shown row => row[column]? <|> shown) none

variable (S : Sheet)

/-- The rows that end up on a line: the last line also gets all that come after it. -/
def landing (rows : List (List Char)) (line : Nat) : List (List Char) :=
  if line + 1 < S.lines then rows[line]?.toList else rows.drop line

def Fits (row : List Terminal) : Prop :=
  (∀ c ∈ visible row, S.single c = true) ∧ (visible row).length ≤ S.columns

@[simp] theorem overlay_nil (column : Nat) : overlay [] column = none := rfl

theorem overlay_append (rows : List (List Char)) (row : List Char) (column : Nat) :
    overlay (rows ++ [row]) column = (row[column]? <|> overlay rows column) := by
  simp [overlay]

@[simp] theorem overlay_singleton (row : List Char) (column : Nat) :
    overlay [row] column = row[column]? := by
  simp [overlay]

variable {S}

theorem landing_append (rows : List (List Char)) (row : List Char) {line : Nat}
    (h : line < S.lines) :
    landing S (rows ++ [row]) line =
      landing S rows line ++ if min rows.length (S.lines - 1) = line then [row] else [] := by
  by_cases hlast : line + 1 < S.lines
  · simp only [landing, if_pos hlast]
    rcases Nat.lt_trichotomy line rows.length with hlt | heq | hgt
    · rw [List.getElem?_append_left hlt, if_neg (by omega), List.append_nil]
    · rw [if_pos (by omega), heq]
      simp
    · rw [if_neg (by omega), List.getElem?_eq_none (by simp; omega),
        List.getElem?_eq_none (by omega)]
      rfl
  · simp only [landing, if_neg hlast]
    by_cases hle : line ≤ rows.length
    · rw [if_pos (by omega), List.drop_append_of_le_length hle]
    · rw [if_neg (by omega), List.drop_of_length_le (by simp; omega),
        List.drop_of_length_le (by omega)]
      rfl

theorem Fits.plainText {row : List Terminal} (h : Fits S row) : PlainText row := by
  intro str hmem hesc
  have hvisible : esc ∈ visible row := List.mem_flatMap.mpr ⟨.Text str, hmem, hesc⟩
  exact absurd (h.1 esc hvisible) (by simp [S.single_esc])

theorem run_row {row : List Terminal} (hsingle : ∀ c ∈ visible row, S.single c = true)
    (hplain : PlainText row) {p : Paper Unit}
    (hfits : p.column + (visible row).length ≤ S.columns) :
    (⟨p, ()⟩ : Screen S.device Unit).run (fun _ u => u)
        ((scan (rowToStr row).toList).map .item) = ⟨p.typed () (visible row), ()⟩ := by
  rw [scan_rowToStr hplain]
  clear hplain
  induction row generalizing p with
  | nil => simp [visible]
  | cons t row ih =>
    rw [List.flatMap_cons, List.map_append, Screen.run_append]
    rcases mem_styles t with ht | ⟨str, rfl⟩
    · obtain ⟨code, hcode, -⟩ := styles_spec t ht
      have hrow : visible (t :: row) = visible row := by
        cases t with
        | Text str => simp [Terminal.code] at hcode
        | _ => rfl
      rw [hrow] at hsingle hfits ⊢
      rw [(toStr_eq hcode).2]
      exact ih hsingle hfits
    · have hrow : visible (.Text str :: row) = str.toList ++ visible row := rfl
      rw [hrow] at hsingle hfits ⊢
      simp only [List.length_append] at hfits
      rw [show Terminal.items (.Text str) = text str.toList from rfl,
        Sheet.run_text (fun c hc => hsingle c (by simp [hc])) _ (by omega), p.typed_append]
      exact ih (fun c hc => hsingle c (by simp [hc])) (by simp only [Paper.typed]; omega)

structure Laid (S : Sheet) (rows : List (List Char)) (p : Paper Unit) : Prop where
  line : p.line = min rows.length (S.lines - 1)
  column : p.column = 0
  cells : ∀ line < S.lines, ∀ column,
    p.cells line column = (overlay (landing S rows line) column).map fun c => (c, ())

theorem Laid.home : Laid S [] ⟨fun _ _ => none, 0, 0⟩ where
  line := by simp
  column := rfl
  cells line _ column := by simp [landing]

theorem Laid.row {rows : List (List Char)} {p : Paper Unit} (h : Laid S rows p)
    (cs : List Char) : Laid S (rows ++ [cs]) (S.control (.nextLine 1) (p.typed () cs)) where
  line := by
    simp only [Sheet.control, Paper.typed, h.line, List.length_append, List.length_singleton]
    omega
  column := rfl
  cells line hline column := by
    have hcell := h.cells line hline column
    rw [landing_append rows cs hline]
    simp only [Sheet.control, Paper.typed, h.line, h.column, Nat.zero_le, and_true, Nat.sub_zero,
      hcell]
    by_cases hcursor : min rows.length (S.lines - 1) = line
    · rw [if_pos hcursor.symm, if_pos hcursor, overlay_append]
      cases cs[column]? <;> simp
    · rw [if_neg (fun heq => hcursor heq.symm), if_neg hcursor, List.append_nil]

theorem laid_rows {rows : List (List Terminal)} (h : ∀ row ∈ rows, Fits S row) :
    Laid S (rows.map visible)
      ((⟨S.device.home, ()⟩ : Screen S.device Unit).run (fun _ u => u) (rowsOps rows)).glass := by
  induction rows using List.reverseRecOn with
  | nil => exact .home
  | append_singleton rows row ih =>
    have hrows := ih fun r hr => h r (by simp [hr])
    have hrow := h row (by simp)
    generalize hp : ((⟨S.device.home, ()⟩ : Screen S.device Unit).run (fun _ u => u)
      (rowsOps rows)).glass = p at hrows
    have hfits : p.column + (visible row).length ≤ S.columns := by
      have := hrow.2
      rw [hrows.column]
      omega
    have hrun := run_row hrow.1 hrow.plainText hfits
    have hstart : (⟨S.device.home, ()⟩ : Screen S.device Unit).run (fun _ u => u)
        (rowsOps rows) = ⟨p, ()⟩ := by
      rw [← hp]
    rw [rowsOps, List.flatMap_append, List.flatMap_singleton, Screen.run_append,
      Screen.run_append]
    rw [rowsOps] at hstart
    rw [hstart, hrun, List.map_append, List.map_singleton]
    exact hrows.row (visible row)

section Glyphs

variable (S) {T : Tty}

def glyph (s : T.Shown) (line column : Nat) : Char :=
  ((s.cell line column).map Prod.fst).getD ' '

def Shows (s : T.Shown) (line : Nat) (cs : List Char) : Prop :=
  ∀ column < S.columns, glyph s line column = (cs[column]?).getD ' '

def RowsLand (s : T.Shown) (rows : List (List Terminal)) : Prop :=
  (∀ line (h : line < rows.length), line < S.lines → Shows S s line (visible rows[line])) ∧
  ∀ line, rows.length ≤ line → line < S.lines → Shows S s line []

end Glyphs

variable (powerOn : Paper (Style Attr.Value)) (sgr : List Char → Change Attr.Value)
  (sgr_code : ∀ (t : Terminal) code, t.code = some code → sgr code.toList = changeOf t)

theorem glyph_frame (past : List TermOp) {rows : List (List Terminal)}
    (h : ∀ row ∈ rows, Fits S row) {line : Nat} (hline : line < S.lines) (column : Nat) :
    glyph ((onSheet S powerOn sgr sgr_code).screen (past ++ frame rows)) line column =
      (overlay (landing S (rows.map visible) line) column).getD ' ' := by
  have hlaid := (laid_rows h).cells line hline column
  have hchar : (((onSheet S powerOn sgr sgr_code).written rows).cell line column).map Prod.fst =
      overlay (landing S (rows.map visible) line) column := by
    rw [Tty.written, Screen.traced, Screen.char_run]
    have hfst := congrArg (Option.map Prod.fst) hlaid
    rw [Option.map_map] at hfst
    exact hfst.trans Option.map_id'
  rw [glyph, Tty.cell_frame, Option.map_map, ← hchar]
  rfl

theorem landing_inner {rows : List (List Char)} {line : Nat} (hline : line < rows.length)
    (hinner : line + 1 < S.lines ∨ rows.length ≤ S.lines ∧ line < S.lines) :
    landing S rows line = [rows[line]] := by
  by_cases hlast : line + 1 < S.lines
  · rw [landing, if_pos hlast, List.getElem?_eq_getElem hline]
    rfl
  · rw [landing, if_neg hlast, List.drop_eq_getElem_cons hline, List.drop_of_length_le (by omega)]

theorem landing_below {rows : List (List Char)} {line : Nat} (h : rows.length ≤ line) :
    landing S rows line = [] := by
  simp [landing, h]

/-- Rows land on their lines as far as the screen reaches; those past its bottom are all written
over the last line. -/
theorem rows_land (past : List TermOp) (rows : List (List Terminal))
    (h : ∀ row ∈ rows, Fits S row) :
    let s := (onSheet S powerOn sgr sgr_code).screen (past ++ frame rows)
    (∀ line (hline : line < rows.length),
      line + 1 < S.lines ∨ rows.length ≤ S.lines ∧ line < S.lines →
        Shows S s line (visible rows[line])) ∧
    (∀ line, rows.length ≤ line → line < S.lines → Shows S s line []) ∧
    (0 < S.lines → S.lines < rows.length → ∀ column < S.columns,
      glyph s (S.lines - 1) column =
        (overlay ((rows.drop (S.lines - 1)).map visible) column).getD ' ') ∧
    (RowsLand S s rows ↔
      ∀ (_ : 0 < S.lines) (hover : S.lines < rows.length), ∀ column < S.columns,
        (overlay ((rows.drop (S.lines - 1)).map visible) column).getD ' ' =
          ((visible rows[S.lines - 1])[column]?).getD ' ') := by
  intro s
  have hglyph : ∀ line < S.lines, ∀ column, glyph s line column =
      (overlay (landing S (rows.map visible) line) column).getD ' ' :=
    fun line hline column => glyph_frame powerOn sgr sgr_code past h hline column
  have hinner : ∀ line (hline : line < rows.length),
      line + 1 < S.lines ∨ rows.length ≤ S.lines ∧ line < S.lines →
        Shows S s line (visible rows[line]) := by
    intro line hline hor column _
    rw [hglyph line (by omega), landing_inner (by simpa using hline) (by simpa using hor)]
    simp
  have hbelow : ∀ line, rows.length ≤ line → line < S.lines → Shows S s line [] := by
    intro line hle hline column _
    rw [hglyph line hline, landing_below (by simpa using hle)]
    simp
  have hlast : 0 < S.lines → ∀ column, glyph s (S.lines - 1) column =
      (overlay ((rows.drop (S.lines - 1)).map visible) column).getD ' ' := by
    intro hpos column
    rw [hglyph _ (by omega), landing, if_neg (by omega), List.map_drop]
  refine ⟨hinner, hbelow, fun hpos _ column _ => hlast hpos column, ?_, ?_⟩
  · intro hland hpos hover column hcolumn
    rw [← hlast hpos column]
    exact hland.1 (S.lines - 1) (by omega) (by omega) column hcolumn
  · intro hsame
    refine ⟨fun line hline hlt => ?_, hbelow⟩
    by_cases hor : line + 1 < S.lines ∨ rows.length ≤ S.lines
    · exact hinner line hline (by omega)
    · obtain rfl : line = S.lines - 1 := by omega
      intro column hcolumn
      rw [hlast (by omega), hsame (by omega) (by omega) column hcolumn]

theorem rows_land_three :
    Shows (ascii 3 10) ((ansi (ascii 3 10)).screen
      ([] ++ frame [[.Fg .Red, .Text "first"], [.Text "second"], [.Bold, .Text "third"]])) 1
      (visible [.Text "second"]) := by
  refine (rows_land (ascii 3 10).device.home _ ofCode_change [] _ ?_).1 1 (by decide)
    (.inl (by decide))
  intro row hrow
  simp only [List.mem_cons, List.not_mem_nil, or_false] at hrow
  rcases hrow with rfl | rfl | rfl
  · simp [Fits, visible, ascii]
  · simp [Fits, visible, ascii]
  · simp [Fits, visible, ascii]

theorem rows_past_the_bottom_overwrite :
    ¬RowsLand (ascii 2 10) ((ansi (ascii 2 10)).screen
      (frame [[.Text "first"], [.Text "second"], [.Text "third"]]))
      [[.Text "first"], [.Text "second"], [.Text "third"]] := by
  intro h
  have hsecond := h.1 1 (by decide) (by decide) 0 (by decide)
  revert hsecond
  decide

end RocTui.Layout
