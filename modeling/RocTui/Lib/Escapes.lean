namespace RocTui.Lib.Escapes

def esc : Char := '\x1b'

/-- What a terminal makes of its input: a character to show, or a "select graphic rendition"
sequence with its parameter bytes. -/
inductive Item
  | chr (c : Char)
  | sgr (params : List Char)
  deriving DecidableEq, Repr

inductive Scan
  | ground
  | escape
  | csi (params : List Char)
  deriving DecidableEq, Repr

def isParam (c : Char) : Bool := '0' ≤ c && c ≤ '?'

def Scan.pending : Scan → List Char
  | .ground => []
  | .escape => [esc]
  | .csi params => esc :: '[' :: params

def text (cs : List Char) : List Item := cs.map .chr

/-- Every sequence but `ESC [ params m` goes through character by character. -/
def scanFrom (st : Scan) : List Char → List Item
  | [] => text st.pending
  | c :: cs =>
    if c = esc then text st.pending ++ scanFrom .escape cs
    else
      match st with
      | .ground => .chr c :: scanFrom .ground cs
      | .escape =>
        if c = '[' then scanFrom (.csi []) cs
        else text (st.pending ++ [c]) ++ scanFrom .ground cs
      | .csi params =>
        if c = 'm' then .sgr params :: scanFrom .ground cs
        else if isParam c then scanFrom (.csi (params ++ [c])) cs
        else text (st.pending ++ [c]) ++ scanFrom .ground cs

def scan (cs : List Char) : List Item := scanFrom .ground cs

theorem isParam_ne_esc {c : Char} (h : isParam c = true) : c ≠ esc := by
  rintro rfl
  simp [isParam, esc] at h

theorem isParam_ne_final {c : Char} (h : isParam c = true) : c ≠ 'm' := by
  rintro rfl
  simp [isParam] at h

theorem scan_text {cs : List Char} (h : esc ∉ cs) (rest : List Char) :
    scan (cs ++ rest) = text cs ++ scan rest := by
  induction cs with
  | nil => rfl
  | cons c cs ih =>
    simp only [List.mem_cons, not_or] at h
    have hc : c ≠ esc := fun heq => h.1 heq.symm
    simp only [scan, List.cons_append, scanFrom, if_neg hc, text, List.map_cons]
    exact congrArg (Item.chr c :: ·) (ih h.2)

theorem scanFrom_params {ps : List Char} (h : ∀ c ∈ ps, isParam c = true) (seen : List Char)
    (rest : List Char) :
    scanFrom (.csi seen) (ps ++ rest) = scanFrom (.csi (seen ++ ps)) rest := by
  induction ps generalizing seen with
  | nil => simp
  | cons c ps ih =>
    have hc := h c (by simp)
    have hps : ∀ d ∈ ps, isParam d = true := fun d hd => h d (by simp [hd])
    simp only [List.cons_append, scanFrom, if_neg (isParam_ne_esc hc),
      if_neg (isParam_ne_final hc), if_pos hc, ih hps]
    simp

theorem scan_sgr {ps : List Char} (h : ∀ c ∈ ps, isParam c = true) (rest : List Char) :
    scan (esc :: '[' :: ps ++ 'm' :: rest) = .sgr ps :: scan rest := by
  have hbracket : '[' ≠ esc := by decide
  have hfinal : 'm' ≠ esc := by decide
  calc scan (esc :: '[' :: ps ++ 'm' :: rest)
      = scanFrom (.csi []) (ps ++ 'm' :: rest) := by
        simp [scan, scanFrom, text, Scan.pending, hbracket]
    _ = scanFrom (.csi ps) ('m' :: rest) := by
        simpa using scanFrom_params h [] ('m' :: rest)
    _ = .sgr ps :: scan rest := by
        simp [scan, scanFrom, hfinal]

end RocTui.Lib.Escapes
