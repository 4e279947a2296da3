import RocTui.Host
import RocTui.Markup
import RocTui.Lib.Sheet

namespace RocTui.Frame

open RocTui.Abi RocTui.Effects RocTui.Host RocTui.Markup
open RocTui.Lib.Escapes RocTui.Lib.Display

inductive View
  | RawMode (rows : List (List Terminal))
  | Nothing
  deriving DecidableEq, Repr

def viewForHost : View → TryResult (List String)
  | .RawMode rows => .Ok (rows.map rowToStr)
  | .Nothing => .Err

def rowsOf : ViewForHostResult → TryResult (List String)
  | .Ok rows => .Ok (rows.asSlice.map RocStr.text)
  | .Err => .Err

def frame (rows : List (List Terminal)) : List TermOp :=
  [.clearAll, .moveTo 0 0] ++ rows.flatMap fun row => [.write (rowToStr row), .moveToNextLine 1]

theorem render_frame {result : ViewForHostResult} {rows : List (List Terminal)}
    (h : rowsOf result = viewForHost (.RawMode rows)) : render result = .ok (frame rows) := by
  cases result with
  | Err => simp [rowsOf, viewForHost] at h
  | Ok strs =>
    simp only [rowsOf, viewForHost, TryResult.Ok.injEq] at h
    have hops : strs.asSlice.flatMap (fun row => [TermOp.write row.text, .moveToNextLine 1]) =
        rows.flatMap fun row => [.write (rowToStr row), .moveToNextLine 1] := by
      rw [← List.flatMap_map RocStr.text fun str => [TermOp.write str, .moveToNextLine 1], h,
        List.flatMap_map]
    simp only [render, TryResult.tag_Ok, TryResult.payloadOk_Ok, frame, ← hops]
    rfl

inductive Attr
  | fg | bg | bold | dim | italic | underline | strikethrough
  deriving DecidableEq, Repr

abbrev Attr.Value : Attr → Type
  | .fg | .bg => Option Color
  | _ => Bool

def plain : Style Attr.Value
  | .fg | .bg => none
  | .bold | .dim | .italic | .underline | .strikethrough => false

/-- What the SGR code of a token says. -/
def changeOf : Terminal → Change Attr.Value
  | .Fg color => .set .fg (some color)
  | .Bg color => .set .bg (some color)
  | .Bold => .set .bold true
  | .Dim => .set .dim true
  | .Italic => .set .italic true
  | .Underline => .set .underline true
  | .Strikethrough => .set .strikethrough true
  | .Text _ => .none
  | .Reset => fun i => some (plain i)

/-- A terminal on which the SGR codes of the tokens mean what the tokens say, and clearing
leaves, with the cursor at the top, the same blank display whatever was there and whatever style
is in force.  (Some terminals erase in the current background; those are not meant.) -/
structure Tty where
  device : Device
  moveTo_clearAll : ∀ {σ : Type} (d : device.State σ),
    device.control (.moveTo 0 0) (device.control .clearAll d) = device.home
  powerOn : device.State (Style Attr.Value)
  sgr : List Char → Change Attr.Value
  sgr_code : ∀ (t : Terminal) code, t.code = some code → sgr code.toList = changeOf t

def opsOf : TermOp → List Op
  | .enterAlternateScreen => [.control (.mode (.alternateScreen true))]
  | .leaveAlternateScreen => [.control (.mode (.alternateScreen false))]
  | .enableRawMode => [.control (.mode (.rawMode true))]
  | .disableRawMode => [.control (.mode (.rawMode false))]
  | .clearAll => [.control .clearAll]
  | .moveTo column row => [.control (.moveTo column row)]
  | .moveToNextLine lines => [.control (.nextLine lines)]
  | .write str => (scan str.toList).map .item
  | .println line => (scan (line ++ "\n").toList).map .item

def rowsOps (rows : List (List Terminal)) : List Op :=
  rows.flatMap fun row => (scan (rowToStr row).toList).map .item ++ [.control (.nextLine 1)]

namespace Tty

variable (T : Tty)

abbrev Shown : Type := Screen T.device (Style Attr.Value)

def run (s : T.Shown) (ops : List TermOp) : T.Shown :=
  s.run (fun params style => (T.sgr params).over style) (ops.flatMap opsOf)

def screen (terminal : List TermOp) : T.Shown := T.run ⟨T.powerOn, plain⟩ terminal

def written (rows : List (List Terminal)) : Screen T.device (Change Attr.Value) :=
  Screen.traced T.sgr T.device (rowsOps rows)

variable {T}

theorem run_append (s : T.Shown) (ops ops' : List TermOp) :
    T.run s (ops ++ ops') = T.run (T.run s ops) ops' := by
  rw [run, List.flatMap_append, Screen.run_append]
  rfl

theorem run_frame (s : T.Shown) (rows : List (List Terminal)) :
    T.run s (frame rows) = (T.written rows).map (·.over s.style) := by
  have hops : (frame rows).flatMap opsOf =
      .control .clearAll :: .control (.moveTo 0 0) :: rowsOps rows := by
    simp [frame, opsOf, rowsOps, List.flatMap_assoc]
  rw [run, hops, Screen.run_cons, Screen.run_cons, written, ← Screen.run_home]
  simp only [Screen.step, T.moveTo_clearAll]

theorem style_run_text (s : Screen T.device (Change Attr.Value)) (cs : List Char) :
    (s.run (fun params c => c.andThen (T.sgr params)) ((text cs).map .item)).style = s.style := by
  induction cs generalizing s with
  | nil => rfl
  | cons c cs ih => exact ih _

theorem style_run_row (s : Screen T.device (Change Attr.Value)) {row : List Terminal}
    (h : PlainText row) :
    (s.run (fun params c => c.andThen (T.sgr params))
        ((scan (rowToStr row).toList).map .item)).style =
      row.foldl (fun c t => c.andThen (changeOf t)) s.style := by
  rw [scan_rowToStr h]
  clear h
  induction row generalizing s with
  | nil => rfl
  | cons t row ih =>
    rw [List.flatMap_cons, List.map_append, Screen.run_append, ih, List.foldl_cons]
    congr 1
    rcases mem_styles t with ht | ⟨str, rfl⟩
    · obtain ⟨code, hcode, -⟩ := styles_spec t ht
      rw [(toStr_eq hcode).2]
      simp [Screen.step, T.sgr_code t code hcode]
    · exact style_run_text s str.toList

def loud : List Terminal := [.Fg .Red, .Bg .Red, .Bold, .Dim, .Italic, .Underline, .Strikethrough]

theorem style_loud (i : Attr) : (T.screen (frame [loud])).style i ≠ plain i := by
  have hplain : PlainText loud := fun str hmem => by simp [loud] at hmem
  have hstyle : (T.written [loud]).style =
      loud.foldl (fun c t => c.andThen (changeOf t)) Change.none := by
    rw [written, Screen.traced, rowsOps, List.flatMap_singleton, Screen.run_append]
    exact style_run_row _ hplain
  rw [screen, run_frame]
  simp only [Screen.map, hstyle]
  cases i <;> simp [loud, plain, changeOf, Change.over, Change.andThen, Change.set, Change.none]

theorem cell_of_settled {rows : List (List Terminal)} {line column : Nat}
    (h : ∀ c d, (T.written rows).cell line column = some (c, d) → d.Settled)
    {past past' : List TermOp} :
    (T.screen (past ++ frame rows)).cell line column =
      (T.screen (past' ++ frame rows)).cell line column := by
  simp only [screen, run_append, run_frame]
  exact (Screen.cell_over_iff T.sgr _ _ (rowsOps rows) line column).mpr
    fun c d hc i => .inl (h c d hc i)

/-- The cells are the same after every two histories of frames exactly when the view leaves no
style of a cell to its history. -/
theorem same_iff (T : Tty) (rows : List (List Terminal)) :
    (∀ past past' : List (List (List Terminal)), ∀ line column,
      (T.screen (past.flatMap frame ++ frame rows)).cell line column =
        (T.screen (past'.flatMap frame ++ frame rows)).cell line column) ↔
    ∀ line column c d, (T.written rows).cell line column = some (c, d) → d.Settled := by
  have hcell : ∀ past, T.screen (past ++ frame rows) =
      (T.written rows).map (·.over (T.screen past).style) := by
    intro past
    rw [screen, run_append, run_frame]
    rfl
  constructor
  · intro hsame line column c d hc i
    have hiff := Screen.cell_over_iff (D := T.device) T.sgr (T.screen []).style
      (T.screen (frame [loud])).style (rowsOps rows) line column
    have hloud := hsame [] [[loud]] line column
    simp only [List.flatMap_nil, List.flatMap_singleton, hcell] at hloud
    rcases hiff.mp hloud c d hc i with hset | heq
    · exact hset
    · exact absurd heq.symm (style_loud i)
  · intro hsettled past past' line column
    exact cell_of_settled (hsettled line column)

/-- `past` may be anything the host has written: earlier frames, printed effects. -/
theorem cell_frame (past : List TermOp) (rows : List (List Terminal)) (line column : Nat) :
    (T.screen (past ++ frame rows)).cell line column =
      ((T.written rows).cell line column).map (Prod.map id (·.over (T.screen past).style)) := by
  rw [screen, run_append, run_frame, Screen.cell_map]
  rfl

theorem settled_of_reset {row : List Terminal} {rest : List (List Terminal)}
    {line column : Nat} {c : Char} {d : Change Attr.Value}
    (h : (T.written ((.Reset :: row) :: rest)).cell line column = some (c, d)) : d.Settled := by
  have hscan : scan (rowToStr (.Reset :: row)).toList =
      .sgr "0".toList :: scan (rowToStr row).toList := by
    rw [rowToStr_cons, String.toList_append, scan_toStr .Reset (by simp)]
    rfl
  have hreset : (T.sgr "0".toList).Settled := by
    rw [T.sgr_code .Reset "0" rfl]
    exact fun i => rfl
  simp only [written, Screen.traced, rowsOps, List.flatMap_cons, hscan, List.map_cons,
    List.cons_append, Screen.run_cons, Screen.step] at h
  exact Screen.cell_forall (fun params c hc => hc.andThen (T.sgr params))
    (Change.none.andThen_settled hreset) _ h

end Tty

theorem rendered_frame {w w' : World} (hs : Step cap w es w') (hpc : w.pc = .render result)
    (hrows : rowsOf result = viewForHost (.RawMode rows)) (hwait : w'.pc = .wait) :
    w'.io.terminal = w.io.terminal ++ frame rows := by
  cases hs with
  | rendered hpc' hops =>
    obtain rfl : result = _ := by simpa using hpc.symm.trans hpc'
    rw [render_frame hrows] at hops
    simp only [HostIo.emit, Except.ok.inj hops]
  | goto hg => cases hg <;> simp_all
  | thread | tick => exact absurd (hpc.symm.trans hwait) (by simp)
  | _ => simp_all

/-- A frame fixes the character of every cell, and of its style what the frame's own tokens have
set before the cell is written; the rest is the style the history ended in.  A view that begins
with `Reset` leaves no rest. -/
theorem screen_of_view (T : Tty) (rows : List (List Terminal)) :
    (∀ past line column, (T.screen (past ++ frame rows)).cell line column =
      ((T.written rows).cell line column).map (Prod.map id (·.over (T.screen past).style))) ∧
    ((∀ past past' : List (List (List Terminal)), ∀ line column,
      (T.screen (past.flatMap frame ++ frame rows)).cell line column =
        (T.screen (past'.flatMap frame ++ frame rows)).cell line column) ↔
      ∀ line column c d, (T.written rows).cell line column = some (c, d) → d.Settled) ∧
    (∀ row rest, rows = (.Reset :: row) :: rest → ∀ past past' line column,
      (T.screen (past ++ frame rows)).cell line column =
        (T.screen (past' ++ frame rows)).cell line column) := by
  refine ⟨fun past line column => Tty.cell_frame past rows line column, Tty.same_iff T rows, ?_⟩
  rintro row rest rfl past past' line column
  exact Tty.cell_of_settled fun c d hc => Tty.settled_of_reset hc

def onSheet (S : Sheet) (powerOn : Paper (Style Attr.Value))
    (sgr : List Char → Change Attr.Value)
    (sgr_code : ∀ (t : Terminal) code, t.code = some code → sgr code.toList = changeOf t) :
    Tty where
  device := S.device
  moveTo_clearAll d := by simp [Sheet.device, Sheet.control]
  powerOn := powerOn
  sgr := sgr
  sgr_code := sgr_code

theorem ofCode_change (t : Terminal) (code : String) (h : t.code = some code) :
    (ofCode code.toList).elim Change.none changeOf = changeOf t := by
  rcases mem_styles t with ht | ⟨str, rfl⟩
  · obtain ⟨code', hcode', -, hof⟩ := styles_spec t ht
    obtain rfl : code = code' := Option.some.inj (h.symm.trans hcode')
    simp [hof]
  · simp [Terminal.code] at h

def ansi (S : Sheet) : Tty :=
  onSheet S S.device.home (fun params => (ofCode params).elim Change.none changeOf) ofCode_change

def ascii (lines columns : Nat) : Sheet where
  lines := lines
  columns := columns
  single c := ' ' ≤ c && c ≤ '~'
  spill _ _ p := p
  mode _ p := p
  single_esc := by decide
  map_spill _ _ _ _ := rfl
  map_mode _ _ _ := rfl

theorem style_leaks_into_next_frame :
    ((ansi (ascii 24 80)).screen ([].flatMap frame ++ frame [[.Text "a"]])).cell 0 0 ≠
      ((ansi (ascii 24 80)).screen
        ([[[.Fg .Red, .Text "b"]]].flatMap frame ++ frame [[.Text "a"]])).cell 0 0 := by
  intro h
  have hfg := congrArg (Option.map fun p => p.2 .fg) h
  revert hfg
  decide

end RocTui.Frame
