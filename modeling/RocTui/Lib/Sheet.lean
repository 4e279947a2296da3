import RocTui.Lib.Display

namespace RocTui.Lib.Display

structure Paper (σ : Type) where
  cells : Nat → Nat → Option (Char × σ)
  line : Nat
  column : Nat

def Paper.map (f : σ → τ) (p : Paper σ) : Paper τ :=
  ⟨fun line column => (p.cells line column).map (Prod.map id f), p.line, p.column⟩

def Paper.write (c : Char) (style : σ) (p : Paper σ) : Paper σ where
  cells line column :=
    if line = p.line ∧ column = p.column then some (c, style) else p.cells line column
  line := p.line
  column := p.column + 1

theorem Paper.map_write (f : σ → τ) (c : Char) (style : σ) (p : Paper σ) :
    (p.write c style).map f = (p.map f).write c (f style) := by
  simp only [Paper.map, Paper.write, Paper.mk.injEq, and_true]
  funext line column
  by_cases hcursor : line = p.line ∧ column = p.column <;> simp [hcursor]

def Paper.typed (style : σ) (cs : List Char) (p : Paper σ) : Paper σ where
  cells line column :=
    if line = p.line ∧ p.column ≤ column then
      (cs[column - p.column]?.map fun c => (c, style)).or (p.cells line column)
    else p.cells line column
  line := p.line
  column := p.column + cs.length

@[simp] theorem Paper.typed_nil (style : σ) (p : Paper σ) : p.typed style [] = p := by
  simp [Paper.typed]

theorem Paper.typed_cons (style : σ) (c : Char) (cs : List Char) (p : Paper σ) :
    p.typed style (c :: cs) = (p.write c style).typed style cs := by
  simp only [Paper.typed, Paper.write, List.length_cons, Paper.mk.injEq, true_and]
  refine ⟨?_, by omega⟩
  funext line column
  by_cases hline : line = p.line
  · rcases Nat.lt_trichotomy column p.column with hlt | heq | hgt
    · have hne : column ≠ p.column := by omega
      simp [show ¬p.column ≤ column by omega, show ¬p.column + 1 ≤ column by omega, hne]
    · simp [hline, heq, show ¬p.column + 1 ≤ p.column by omega]
    · obtain ⟨k, rfl⟩ : ∃ k, column = p.column + 1 + k := ⟨column - (p.column + 1), by omega⟩
      have hsucc : p.column + 1 + k - p.column = k + 1 := by omega
      simp [hline, hsucc, show p.column ≤ p.column + 1 + k by omega,
        show p.column + 1 + k ≠ p.column by omega]
  · simp [hline]

theorem Paper.typed_append (style : σ) (cs cs' : List Char) (p : Paper σ) :
    p.typed style (cs ++ cs') = (p.typed style cs).typed style cs' := by
  induction cs generalizing p with
  | nil => simp
  | cons c cs ih => rw [List.cons_append, p.typed_cons, ih, ← p.typed_cons]

/-- A terminal of `lines` by `columns`.  What it does with a character that is not `single`
(printable and one column wide) or comes past the last column is left open, as are its modes. -/
structure Sheet where
  lines : Nat
  columns : Nat
  single : Char → Bool
  spill : {σ : Type} → Char → σ → Paper σ → Paper σ
  mode : {σ : Type} → Mode → Paper σ → Paper σ
  single_esc : single Escapes.esc = false
  map_spill : ∀ {σ τ : Type} (f : σ → τ) c s p, (spill c s p).map f = spill c (f s) (p.map f)
  map_mode : ∀ {σ τ : Type} (f : σ → τ) m p, (mode m p).map f = mode m (p.map f)

namespace Sheet

variable (S : Sheet)

def put (c : Char) (style : σ) (p : Paper σ) : Paper σ :=
  if S.single c = true ∧ p.column < S.columns then p.write c style else S.spill c style p

def control (k : Control) (p : Paper σ) : Paper σ :=
  match k with
  | .clearAll => { p with cells := fun _ _ => none }
  | .moveTo column line =>
    { p with line := min line (S.lines - 1), column := min column (S.columns - 1) }
  | .nextLine lines => { p with line := min (p.line + lines) (S.lines - 1), column := 0 }
  | .mode m => S.mode m p

def device : Device where
  State := Paper
  map := Paper.map
  put := S.put
  control := S.control
  home := ⟨fun _ _ => none, 0, 0⟩
  cell := Paper.cells
  map_put f c s p := by
    by_cases hput : S.single c = true ∧ p.column < S.columns
    · rw [put, if_pos hput, p.map_write, put, if_pos (by exact hput)]
    · rw [put, if_neg hput, S.map_spill, put, if_neg (by exact hput)]
  map_control f k p := by
    cases k with
    | mode m => exact S.map_mode f m p
    | _ => rfl
  map_home f := rfl
  cell_map f p line column := rfl
  cell_home line column := rfl

variable {S}

theorem run_text {cs : List Char} (hsingle : ∀ c ∈ cs, S.single c = true)
    (sgr : List Char → σ → σ) {p : Paper σ} (hfits : p.column + cs.length ≤ S.columns)
    (style : σ) :
    (⟨p, style⟩ : Screen S.device σ).run sgr ((Escapes.text cs).map .item) =
      ⟨p.typed style cs, style⟩ := by
  induction cs generalizing p with
  | nil => simp [Escapes.text]
  | cons c cs ih =>
    simp only [List.length_cons] at hfits
    have hput : S.device.put c style p = p.write c style :=
      if_pos ⟨hsingle c (by simp), by omega⟩
    have hcs : ∀ d ∈ cs, S.single d = true := fun d hd => hsingle d (by simp [hd])
    have hroom : (p.write c style).column + cs.length ≤ S.columns := by
      simp only [Paper.write]
      omega
    simp only [Escapes.text, List.map_cons, Screen.run_cons, Screen.step, hput]
    rw [p.typed_cons]
    exact ih hcs hroom

end Sheet

end RocTui.Lib.Display
