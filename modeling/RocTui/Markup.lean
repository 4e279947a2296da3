import RocTui.Lib.Escapes

namespace RocTui.Markup

open RocTui.Lib.Escapes

inductive Color
  | Black | Red | Green | Yellow | Blue | Magenta | Cyan | White
  | BrightBlack | BrightRed | BrightGreen | BrightYellow
  | BrightBlue | BrightMagenta | BrightCyan | BrightWhite
  deriving DecidableEq, Repr

inductive Terminal
  | Fg (color : Color)
  | Bg (color : Color)
  | Bold | Dim | Italic | Underline | Strikethrough
  | Text (str : String)
  | Reset
  deriving DecidableEq, Repr

def colorFgCode : Color → String
  | .Black => "30"
  | .Red => "31"
  | .Green => "32"
  | .Yellow => "33"
  | .Blue => "34"
  | .Magenta => "35"
  | .Cyan => "36"
  | .White => "37"
  | .BrightBlack => "90"
  | .BrightRed => "91"
  | .BrightGreen => "92"
  | .BrightYellow => "93"
  | .BrightBlue => "94"
  | .BrightMagenta => "95"
  | .BrightCyan => "96"
  | .BrightWhite => "97"

def colorBgCode : Color → String
  | .Black => "40"
  | .Red => "41"
  | .Green => "42"
  | .Yellow => "43"
  | .Blue => "44"
  | .Magenta => "45"
  | .Cyan => "46"
  | .White => "47"
  | .BrightBlack => "100"
  | .BrightRed => "101"
  | .BrightGreen => "102"
  | .BrightYellow => "103"
  | .BrightBlue => "104"
  | .BrightMagenta => "105"
  | .BrightCyan => "106"
  | .BrightWhite => "107"

def Terminal.toStr (t : Terminal) : String :=
  let esc := "\x1b["
  match t with
  | .Fg color => esc ++ colorFgCode color ++ "m"
  | .Bg color => esc ++ colorBgCode color ++ "m"
  | .Bold => esc ++ "1m"
  | .Dim => esc ++ "2m"
  | .Italic => esc ++ "3m"
  | .Underline => esc ++ "4m"
  | .Strikethrough => esc ++ "9m"
  | .Text str => str
  | .Reset => esc ++ "0m"

/-- A row of `view_for_host`: `Str.join_with` of its tokens. -/
def rowToStr (row : List Terminal) : String := "".intercalate (row.map Terminal.toStr)

def Terminal.code : Terminal → Option String
  | .Fg color => some (colorFgCode color)
  | .Bg color => some (colorBgCode color)
  | .Bold => some "1"
  | .Dim => some "2"
  | .Italic => some "3"
  | .Underline => some "4"
  | .Strikethrough => some "9"
  | .Text _ => none
  | .Reset => some "0"

def Terminal.styles : List Terminal :=
  let colors : List Color :=
    [.Black, .Red, .Green, .Yellow, .Blue, .Magenta, .Cyan, .White, .BrightBlack, .BrightRed,
      .BrightGreen, .BrightYellow, .BrightBlue, .BrightMagenta, .BrightCyan, .BrightWhite]
  [.Reset, .Bold, .Dim, .Italic, .Underline, .Strikethrough] ++ colors.map .Fg ++ colors.map .Bg

def ofCode (params : List Char) : Option Terminal :=
  Terminal.styles.find? fun t => t.code.map String.toList == some params

def Terminal.items (t : Terminal) : List Item :=
  match t, t.code with
  | .Text str, _ => text str.toList
  | _, some code => [.sgr code.toList]
  | _, none => []

def PlainText (row : List Terminal) : Prop := ∀ str, .Text str ∈ row → esc ∉ str.toList

def prependText (str : String) : List Terminal → List Terminal
  | .Text str' :: rest => .Text (str ++ str') :: rest
  | rest => if str = "" then rest else .Text str :: rest

/-- Adjacent texts are one text, and empty texts are none. -/
def normalForm : List Terminal → List Terminal
  | [] => []
  | .Text str :: rest => prependText str (normalForm rest)
  | t :: rest => t :: normalForm rest

def ofItems : List Item → Option (List Terminal)
  | [] => some []
  | .chr c :: rest => do
    let tokens ← ofItems rest
    return prependText (String.singleton c) tokens
  | .sgr params :: rest => do
    let t ← ofCode params
    let tokens ← ofItems rest
    return t :: tokens

def decode (row : String) : Option (List Terminal) := ofItems (scan row.toList)

theorem styles_spec : ∀ t ∈ Terminal.styles, ∃ code,
    t.code = some code ∧ (∀ c ∈ code.toList, isParam c = true) ∧ ofCode code.toList = some t := by
  intro t ht
  have hall : ∀ t ∈ Terminal.styles, (t.code.any fun code =>
      code.toList.all isParam && ofCode code.toList == some t) = true := by decide
  obtain ⟨code, hcode, h⟩ := (Option.any_eq_true _ _).mp (hall t ht)
  simp only [Bool.and_eq_true, List.all_eq_true, beq_iff_eq] at h
  exact ⟨code, hcode, h.1, h.2⟩

theorem mem_styles (t : Terminal) : t ∈ Terminal.styles ∨ ∃ str, t = .Text str := by
  cases t with
  | Text str => exact .inr ⟨str, rfl⟩
  | Fg color => exact .inl (by cases color <;> decide)
  | Bg color => exact .inl (by cases color <;> decide)
  | _ => exact .inl (by decide)

theorem toStr_eq {code : String} {t : Terminal} (h : t.code = some code) :
    t.toStr.toList = esc :: '[' :: code.toList ++ ['m'] ∧ t.items = [.sgr code.toList] := by
  cases t with
  | Text str => simp [Terminal.code] at h
  | _ =>
    simp only [Terminal.code, Option.some.injEq] at h
    subst h
    simp [Terminal.toStr, Terminal.items, Terminal.code, esc]

@[simp] theorem rowToStr_nil : rowToStr [] = "" := rfl

@[simp] theorem rowToStr_cons (t : Terminal) (row : List Terminal) :
    rowToStr (t :: row) = t.toStr ++ rowToStr row := by
  cases row <;> simp [rowToStr, String.intercalate_cons_cons]

theorem scan_toStr (t : Terminal) (h : ∀ str, t = .Text str → esc ∉ str.toList)
    (rest : List Char) : scan (t.toStr.toList ++ rest) = t.items ++ scan rest := by
  rcases mem_styles t with ht | ⟨str, rfl⟩
  · obtain ⟨code, hcode, hparams, -⟩ := styles_spec t ht
    obtain ⟨hstr, hitems⟩ := toStr_eq hcode
    rw [hstr, hitems]
    simpa using scan_sgr hparams rest
  · exact scan_text (h str rfl) rest

theorem scan_rowToStr {row : List Terminal} (h : PlainText row) :
    scan (rowToStr row).toList = row.flatMap Terminal.items := by
  induction row with
  | nil => rfl
  | cons t row ih =>
    have ht : ∀ str, t = .Text str → esc ∉ str.toList := fun str heq => h str (by simp [heq])
    have hrow : PlainText row := fun str hmem => h str (by simp [hmem])
    rw [rowToStr_cons, String.toList_append, scan_toStr t ht, ih hrow, List.flatMap_cons]

@[simp] theorem prependText_empty (tokens : List Terminal) : prependText "" tokens = tokens := by
  fun_cases prependText <;> simp_all

theorem prependText_append (s s' : String) (tokens : List Terminal) :
    prependText (s ++ s') tokens = prependText s (prependText s' tokens) := by
  by_cases htext : ∃ str rest, tokens = .Text str :: rest
  · obtain ⟨str, rest, rfl⟩ := htext
    simp [prependText, String.append_assoc]
  · have hother : ∀ str, prependText str tokens =
        if str = "" then tokens else .Text str :: tokens := by
      intro str
      fun_cases prependText str tokens with
      | case1 str' rest => exact absurd ⟨str', rest, rfl⟩ htext
      | case2 => simp_all
      | case3 => simp_all
    by_cases hs' : s' = ""
    · simp [hs']
    · have hss' : s ++ s' ≠ "" := by simp [String.append_eq_empty_iff, hs']
      rw [hother (s ++ s'), hother s', if_neg hss', if_neg hs', prependText]

theorem rowToStr_prependText (str : String) (tokens : List Terminal) :
    rowToStr (prependText str tokens) = str ++ rowToStr tokens := by
  fun_cases prependText str tokens with
  | case1 str' rest => simp [Terminal.toStr, String.append_assoc]
  | case2 => simp_all
  | case3 => simp [Terminal.toStr]

theorem rowToStr_normalForm (row : List Terminal) : rowToStr (normalForm row) = rowToStr row := by
  fun_induction normalForm row with
  | case1 => rfl
  | case2 str rest ih => rw [rowToStr_prependText, ih, rowToStr_cons, Terminal.toStr]
  | case3 t rest _ ih => rw [rowToStr_cons, ih, rowToStr_cons]

theorem ofItems_text {rest : List Item} (h : ofItems rest = some tokens) (cs : List Char) :
    ofItems (text cs ++ rest) = some (prependText (String.ofList cs) tokens) := by
  induction cs with
  | nil => simpa [text] using h
  | cons c cs ih =>
    have hcons : String.ofList (c :: cs) = String.singleton c ++ String.ofList cs := by
      simp
    simp only [text, List.map_cons, List.cons_append, ofItems]
    rw [show List.map Item.chr cs = text cs from rfl, ih, hcons, prependText_append]
    rfl

theorem ofItems_row (row : List Terminal) :
    ofItems (row.flatMap Terminal.items) = some (normalForm row) := by
  induction row with
  | nil => rfl
  | cons t row ih =>
    rw [List.flatMap_cons]
    rcases mem_styles t with ht | ⟨str, rfl⟩
    · obtain ⟨code, hcode, -, hof⟩ := styles_spec t ht
      have hform : normalForm (t :: row) = t :: normalForm row := by
        cases t with
        | Text str => simp [Terminal.code] at hcode
        | _ => rfl
      rw [(toStr_eq hcode).2, hform]
      simp [ofItems, hof, ih]
    · simpa [Terminal.items, normalForm] using ofItems_text ih str.toList

theorem decode_rowToStr {row : List Terminal} (h : PlainText row) :
    decode (rowToStr row) = some (normalForm row) := by
  rw [decode, scan_rowToStr h, ofItems_row]

/-- The rendered string determines a row up to its normal form, and the terminal reads it token
by token: no text runs into an escape sequence and no escape sequence into a text. -/
theorem rowToStr_unambiguous :
    (∀ xs ys, PlainText xs → PlainText ys →
      (rowToStr xs = rowToStr ys ↔ normalForm xs = normalForm ys)) ∧
    (∀ row, PlainText row → decode (rowToStr row) = some (normalForm row)) ∧
    ∀ row, PlainText row → scan (rowToStr row).toList = row.flatMap Terminal.items := by
  refine ⟨fun xs ys hxs hys => ⟨fun heq => ?_, fun heq => ?_⟩,
    fun row h => decode_rowToStr h, fun row h => scan_rowToStr h⟩
  · have hdecode := decode_rowToStr hxs
    rw [heq, decode_rowToStr hys] at hdecode
    exact (Option.some.inj hdecode).symm
  · rw [← rowToStr_normalForm xs, heq, rowToStr_normalForm]

theorem rowToStr_unambiguous_regrouped :
    rowToStr [.Fg .Red, .Text "[3", .Text "1m", .Text ""] = rowToStr [.Fg .Red, .Text "[31m"] ∧
      rowToStr [.Fg .Red, .Text "m"] ≠ rowToStr [.Fg .BrightRed, .Text "m"] := by
  have hplain : ∀ color, PlainText [.Fg color, .Text "m"] := by
    intro color str hmem
    simp only [List.mem_cons, List.not_mem_nil, or_false, reduceCtorEq, false_or,
      Terminal.Text.injEq] at hmem
    subst hmem
    decide
  refine ⟨(rowToStr_unambiguous.1 _ _ ?_ ?_).mpr (by decide), fun heq => ?_⟩
  · intro str hmem
    simp only [List.mem_cons, List.not_mem_nil, or_false, reduceCtorEq, false_or,
      Terminal.Text.injEq] at hmem
    rcases hmem with rfl | rfl | rfl <;> decide
  · intro str hmem
    simp only [List.mem_cons, List.not_mem_nil, or_false, reduceCtorEq, false_or,
      Terminal.Text.injEq] at hmem
    subst hmem
    decide
  · have hform := (rowToStr_unambiguous.1 _ _ (hplain .Red) (hplain .BrightRed)).mp heq
    exact absurd hform (by decide)

end RocTui.Markup
