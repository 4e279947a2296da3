import RocTui.Lib.Escapes
import Mathlib.Logic.Function.Basic

namespace RocTui.Lib.Display

open RocTui.Lib.Escapes

section Change

variable {ι : Type} (V : ι → Type)

abbrev Style : Type := ∀ i, V i

/-- The attributes that are set, and what to; the others stay what they were. -/
abbrev Change : Type := ∀ i, Option (V i)

variable {V}

def Change.none : Change V := fun _ => Option.none

def Change.set [DecidableEq ι] (i : ι) (v : V i) : Change V :=
  Function.update Change.none i (some v)

def Change.over (c : Change V) (s : Style V) : Style V := fun i => (c i).getD (s i)

def Change.andThen (c d : Change V) : Change V := fun i => d i <|> c i

def Change.Settled (c : Change V) : Prop := ∀ i, (c i).isSome

@[simp] theorem Change.over_none (s : Style V) : Change.none.over s = s := rfl

theorem Change.over_andThen (c d : Change V) (s : Style V) :
    (c.andThen d).over s = d.over (c.over s) := by
  funext i
  cases hd : d i <;> simp [Change.over, Change.andThen, hd]

theorem Change.over_eq_iff (c : Change V) (s s' : Style V) (i : ι) :
    c.over s i = c.over s' i ↔ (c i).isSome ∨ s i = s' i := by
  cases hc : c i <;> simp [Change.over, hc]

theorem Change.Settled.andThen {c : Change V} (h : c.Settled) (d : Change V) :
    (c.andThen d).Settled := by
  intro i
  have hc := h i
  cases hd : d i <;> simp [Change.andThen, hd, hc]

theorem Change.andThen_settled (c : Change V) {d : Change V} (h : d.Settled) :
    (c.andThen d).Settled := by
  intro i
  obtain ⟨v, hv⟩ := Option.isSome_iff_exists.mp (h i)
  simp [Change.andThen, hv]

end Change

inductive Mode
  | alternateScreen (on : Bool)
  | rawMode (on : Bool)
  deriving DecidableEq, Repr

inductive Control
  | clearAll
  | moveTo (column line : Nat)
  | nextLine (lines : Nat)
  | mode (m : Mode)
  deriving DecidableEq, Repr

/-- A character display that only stores styles: whatever it does with a character or a control,
it does alike for all styles (the `map` laws).  `home` is the blank display, cursor at the top. -/
structure Device where
  State : Type → Type
  map : {σ τ : Type} → (σ → τ) → State σ → State τ
  put : {σ : Type} → Char → σ → State σ → State σ
  control : {σ : Type} → Control → State σ → State σ
  home : {σ : Type} → State σ
  cell : {σ : Type} → State σ → Nat → Nat → Option (Char × σ)
  map_put : ∀ {σ τ : Type} (f : σ → τ) c s d, map f (put c s d) = put c (f s) (map f d)
  map_control : ∀ {σ τ : Type} (f : σ → τ) k d, map f (control k d) = control k (map f d)
  map_home : ∀ {σ τ : Type} (f : σ → τ), map f home = home
  cell_map : ∀ {σ τ : Type} (f : σ → τ) d line column,
    cell (map f d) line column = (cell d line column).map (Prod.map id f)
  cell_home : ∀ {σ : Type} line column, cell (home (σ := σ)) line column = none

inductive Op
  | item (i : Item)
  | control (k : Control)
  deriving DecidableEq, Repr

structure Screen (D : Device) (σ : Type) where
  glass : D.State σ
  style : σ

namespace Screen

variable {D : Device} {σ τ : Type}

def step (sgr : List Char → σ → σ) (s : Screen D σ) : Op → Screen D σ
  | .item (.chr c) => { s with glass := D.put c s.style s.glass }
  | .item (.sgr params) => { s with style := sgr params s.style }
  | .control k => { s with glass := D.control k s.glass }

def run (sgr : List Char → σ → σ) (s : Screen D σ) (ops : List Op) : Screen D σ :=
  ops.foldl (step sgr) s

def map (f : σ → τ) (s : Screen D σ) : Screen D τ := ⟨D.map f s.glass, f s.style⟩

def cell (s : Screen D σ) (line column : Nat) : Option (Char × σ) := D.cell s.glass line column

@[simp] theorem run_nil (sgr : List Char → σ → σ) (s : Screen D σ) : s.run sgr [] = s := rfl

@[simp] theorem run_cons (sgr : List Char → σ → σ) (s : Screen D σ) (op : Op)
    (ops : List Op) : s.run sgr (op :: ops) = (s.step sgr op).run sgr ops := rfl

theorem run_append (sgr : List Char → σ → σ) (s : Screen D σ) (ops ops' : List Op) :
    s.run sgr (ops ++ ops') = (s.run sgr ops).run sgr ops' := List.foldl_append

theorem map_run (f : σ → τ) (sgr : List Char → σ → σ) (sgr' : List Char → τ → τ)
    (h : ∀ params t, f (sgr params t) = sgr' params (f t)) (s : Screen D σ) (ops : List Op) :
    (s.run sgr ops).map f = (s.map f).run sgr' ops := by
  induction ops generalizing s with
  | nil => rfl
  | cons op ops ih =>
    have hstep : (s.step sgr op).map f = (s.map f).step sgr' op := by
      cases op with
      | item i =>
        cases i with
        | chr c => simp [step, map, D.map_put]
        | sgr params => simp [step, map, h]
      | control k => simp [step, map, D.map_control]
    rw [run_cons, ih, hstep, run_cons]

theorem cell_map (f : σ → τ) (s : Screen D σ) (line column : Nat) :
    (s.map f).cell line column = (s.cell line column).map (Prod.map id f) :=
  D.cell_map f s.glass line column

theorem char_run (sgr : List Char → σ → σ) (style : σ) (ops : List Op) (line column : Nat) :
    (((⟨D.home, style⟩ : Screen D σ).run sgr ops).cell line column).map Prod.fst =
      (((⟨D.home, ()⟩ : Screen D Unit).run (fun _ u => u) ops).cell line column).map Prod.fst := by
  have hrun := map_run (fun _ => ()) sgr (fun _ u => u) (fun _ _ => rfl)
    (⟨D.home, style⟩ : Screen D σ) ops
  have hstart : (⟨D.home, style⟩ : Screen D σ).map (fun _ => ()) = ⟨D.home, ()⟩ := by
    simp [map, D.map_home]
  rw [← hstart, ← hrun, cell_map, Option.map_map]
  rfl

theorem cell_forall {P : σ → Prop} {sgr : List Char → σ → σ}
    (h : ∀ params t, P t → P (sgr params t)) {style : σ} (hs : P style) (ops : List Op)
    (hc : ((⟨D.home, style⟩ : Screen D σ).run sgr ops).cell line column = some (c, t)) : P t := by
  let sgr' : List Char → { t // P t } → { t // P t } := fun params t =>
    ⟨sgr params t.1, h params t.1 t.2⟩
  have hrun := map_run Subtype.val sgr' sgr (fun _ _ => rfl)
    (⟨D.home, ⟨style, hs⟩⟩ : Screen D { t // P t }) ops
  have hstart : (⟨D.home, ⟨style, hs⟩⟩ : Screen D { t // P t }).map Subtype.val =
      ⟨D.home, style⟩ := by
    simp [map, D.map_home]
  rw [hstart] at hrun
  rw [← hrun, cell_map] at hc
  obtain ⟨⟨c', t'⟩, -, heq⟩ := Option.map_eq_some_iff.mp hc
  simp only [Prod.map_apply, Prod.mk.injEq] at heq
  exact heq.2 ▸ t'.2

variable {ι : Type} {V : ι → Type} (change : List Char → Change V)

/-- Each cell by its character and what has been set, since the display was blank, of the style
it was written in. -/
def traced (D : Device) (ops : List Op) : Screen D (Change V) :=
  (⟨D.home, Change.none⟩ : Screen D (Change V)).run (fun params c => c.andThen (change params)) ops

theorem run_home (style : Style V) (ops : List Op) :
    (⟨D.home, style⟩ : Screen D (Style V)).run (fun params s => (change params).over s) ops =
      (traced change D ops).map (·.over style) := by
  have hmap := map_run (fun c : Change V => c.over style)
    (fun params c => c.andThen (change params))
    (fun params s => (change params).over s)
    (fun params c => c.over_andThen (change params) style)
    (⟨D.home, Change.none⟩ : Screen D (Change V)) ops
  rw [traced, hmap]
  simp [map, D.map_home]

/-- A cell comes out the same over two styles exactly when the style it was written in is set,
or inherited alike, in every attribute. -/
theorem cell_over_iff (s s' : Style V) (ops : List Op) (line column : Nat) :
    ((traced change D ops).map (·.over s)).cell line column =
        ((traced change D ops).map (·.over s')).cell line column ↔
      ∀ c d, (traced change D ops).cell line column = some (c, d) →
        ∀ i, (d i).isSome ∨ s i = s' i := by
  simp only [cell_map]
  cases (traced change D ops).cell line column with
  | none => simp
  | some p =>
    obtain ⟨c, d⟩ := p
    simp only [Option.map_some, Option.some.injEq, Prod.map_apply, Prod.mk.injEq, id_eq, true_and]
    constructor
    · rintro heq c' d' ⟨-, rfl⟩ i
      exact (d.over_eq_iff s s' i).mp (congrFun heq i)
    · intro h
      exact funext fun i => (d.over_eq_iff s s' i).mpr (h c d ⟨rfl, rfl⟩ i)

end Screen

end RocTui.Lib.Display
