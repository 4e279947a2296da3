import Mathlib.Data.List.TakeWhile

universe u

namespace RocTui.Lib

/-- The symbols that end a line; `cr` and an `lf` behind it end one line together. -/
structure LineBreaks (α : Type u) where
  isBreak : α → Bool
  cr : α
  lf : α
  isBreak_cr : isBreak cr = true
  isBreak_lf : isBreak lf = true
  cr_ne_lf : cr ≠ lf

theorem eq_take_cons_drop {α : Type u} {xs : List α} {i : Nat} {x : α} (h : xs[i]? = some x) :
    xs = xs.take i ++ x :: xs.drop (i + 1) := by
  obtain ⟨hi, rfl⟩ := List.getElem?_eq_some_iff.mp h
  rw [List.getElem_cons_drop, List.take_append_drop]

theorem flatten_set_eq_iff {α : Type u} {lines : List (List α)} {i : Nat} {line : List α}
    (h : lines[i]? = some line) (line' : List α) :
    (lines.set i line').flatten = lines.flatten ↔ line' = line := by
  obtain ⟨hi, -⟩ := List.getElem?_eq_some_iff.mp h
  rw [congrArg List.flatten (eq_take_cons_drop h), List.set_eq_take_append_cons_drop, if_pos hi]
  simp only [List.flatten_append, List.flatten_cons, List.append_cancel_left_eq,
    List.append_cancel_right_eq]

namespace LineBreaks

variable {α : Type u} (L : LineBreaks α)

def onHead (c : α) : List (List α) → List (List α)
  | [] => [[c]]
  | line :: lines => (c :: line) :: lines

@[simp] theorem flatten_onHead (c : α) (lines : List (List α)) :
    (onHead c lines).flatten = c :: lines.flatten := by
  cases lines <;> rfl

def body (line : List α) : List α := line.takeWhile fun c => !L.isBreak c

def terminator (line : List α) : List α := line.dropWhile fun c => !L.isBreak c

variable {L} in
theorem isBreak_of_mem_body (h : c ∈ L.body line) : L.isBreak c = false := by
  simpa using List.mem_takeWhile_imp h

theorem body_append_terminator (line : List α) : L.body line ++ L.terminator line = line :=
  List.takeWhile_append_dropWhile

/-- What ends the line is an `lf`, with or without a `cr`, or the end of the text. -/
def Plain (line : List α) : Prop :=
  L.terminator line = [] ∨ L.terminator line = [L.lf] ∨ L.terminator line = [L.cr, L.lf]

variable [DecidableEq α]

instance (line : List α) : Decidable (L.Plain line) := inferInstanceAs (Decidable (_ ∨ _ ∨ _))

def ends (c : α) (rest : List α) : Bool :=
  L.isBreak c && !(c == L.cr && rest.head? == some L.lf)

def split : List α → List (List α)
  | [] => []
  | c :: rest => if L.ends c rest then [c] :: split rest else onHead c (split rest)

variable {L} {text line line' rest : List α} {lines before after : List (List α)}

@[simp] theorem flatten_split (text : List α) : (L.split text).flatten = text := by
  induction text with
  | nil => rfl
  | cons c rest ih =>
    rw [split]
    split <;> simp [ih]

theorem ne_nil_of_mem_split (h : line ∈ L.split text) : line ≠ [] := by
  induction text generalizing line with
  | nil => cases h
  | cons c rest ih =>
    rw [split] at h
    split at h
    · rcases List.mem_cons.mp h with rfl | h
      · exact List.cons_ne_nil _ _
      · exact ih h
    · cases hrest : L.split rest with
      | nil =>
        rw [hrest, onHead, List.mem_singleton] at h
        exact h ▸ List.cons_ne_nil _ _
      | cons line' lines =>
        rw [hrest, onHead, List.mem_cons] at h
        rcases h with rfl | h
        · exact List.cons_ne_nil _ _
        · exact ih (hrest ▸ List.mem_cons_of_mem _ h)

theorem split_flatten_tail (h : L.split text = line :: lines) :
    L.split lines.flatten = lines := by
  induction text generalizing line lines with
  | nil => cases h
  | cons c rest ih =>
    rw [split] at h
    split at h
    · obtain ⟨-, rfl⟩ := List.cons.inj h
      rw [flatten_split]
    · cases hrest : L.split rest with
      | nil =>
        rw [hrest] at h
        obtain ⟨-, rfl⟩ := List.cons.inj h
        rfl
      | cons line' lines' =>
        rw [hrest] at h
        obtain ⟨-, rfl⟩ := List.cons.inj h
        exact ih hrest

theorem split_append {body : List α} (hbody : ∀ c ∈ body, L.isBreak c = false)
    (h : L.split rest = line :: lines) : L.split (body ++ rest) = (body ++ line) :: lines := by
  induction body with
  | nil => exact h
  | cons c body ih =>
    rw [List.forall_mem_cons] at hbody
    rw [List.cons_append, split, ih hbody.2]
    simp [ends, hbody.1, onHead]

theorem split_of_forall {body : List α} (hbody : ∀ c ∈ body, L.isBreak c = false)
    (hne : body ≠ []) : L.split body = [body] := by
  induction body with
  | nil => exact absurd rfl hne
  | cons c body ih =>
    rw [List.forall_mem_cons] at hbody
    cases body with
    | nil => simp [split, ends, hbody.1, onHead]
    | cons d body =>
      rw [split, ih hbody.2 (List.cons_ne_nil _ _)]
      simp [ends, hbody.1, onHead]

theorem split_lf (rest : List α) : L.split (L.lf :: rest) = [L.lf] :: L.split rest := by
  simp [split, ends, L.isBreak_lf, Ne.symm L.cr_ne_lf]

theorem split_crlf (rest : List α) :
    L.split (L.cr :: L.lf :: rest) = [L.cr, L.lf] :: L.split rest := by
  rw [split, split_lf]
  simp [ends, onHead]

theorem split_line (h : L.Plain line) (hne : L.terminator line ≠ []) (rest : List α) :
    L.split (line ++ rest) = line :: L.split rest := by
  have hbody : ∀ c ∈ L.body line, L.isBreak c = false := fun c hc => isBreak_of_mem_body hc
  have hline := L.body_append_terminator line
  rcases h with hnone | hlf | hcrlf
  · exact absurd hnone hne
  · rw [hlf] at hline
    have hsplit := split_append hbody (split_lf (L := L) rest)
    rwa [← List.singleton_append, ← List.append_assoc, hline] at hsplit
  · rw [hcrlf] at hline
    have hsplit := split_append hbody (split_crlf (L := L) rest)
    rwa [← List.singleton_append, ← List.singleton_append (l := rest), ← List.append_assoc,
      ← List.append_assoc, List.append_assoc (L.body line), List.singleton_append, hline] at hsplit

theorem split_last (h : L.terminator line = []) (hne : line ≠ []) : L.split line = [line] := by
  have hline := L.body_append_terminator line
  rw [h, List.append_nil] at hline
  refine split_of_forall (fun c hc => ?_) hne
  rw [← hline] at hc
  exact isBreak_of_mem_body hc

theorem terminator_ne_nil (h : L.split text = line :: line' :: lines) : L.terminator line ≠ [] := by
  intro hnone
  have hline := L.body_append_terminator line
  rw [hnone, List.append_nil] at hline
  have hbody : ∀ c ∈ line, L.isBreak c = false := fun c hc =>
    isBreak_of_mem_body (hline.symm ▸ hc)
  have hsplit := split_append hbody (split_flatten_tail h)
  have htext : line ++ (line' :: lines).flatten = text := by
    rw [← List.flatten_cons, ← h, flatten_split]
  rw [htext, h] at hsplit
  have hmem : line' ∈ L.split text := by simp [h]
  have hempty : line' = [] := by simpa using (List.cons.inj hsplit).1
  exact ne_nil_of_mem_split hmem hempty

/-- A line can be replaced by another with the same end. -/
theorem split_replace (h : L.split text = before ++ line :: after)
    (hplain : ∀ l ∈ L.split text, L.Plain l) (hterm : L.terminator line' = L.terminator line)
    (hne : line' ≠ []) :
    L.split (before ++ line' :: after).flatten = before ++ line' :: after := by
  induction before generalizing text with
  | nil =>
    rw [List.nil_append] at h
    have hline : L.Plain line := hplain line (h ▸ List.mem_cons_self)
    have hline' : L.Plain line' := by rwa [Plain, hterm]
    have hafter := split_flatten_tail h
    rw [List.nil_append, List.flatten_cons]
    by_cases hnone : L.terminator line' = []
    · cases after with
      | nil => simpa using split_last hnone hne
      | cons next after => exact absurd (hterm ▸ hnone) (terminator_ne_nil h)
    · rw [split_line hline' hnone, hafter]
  | cons first before ih =>
    have hfirst : L.Plain first := hplain first (h ▸ List.mem_cons_self)
    have hrest := split_flatten_tail h
    have hended : L.terminator first ≠ [] := by
      cases before with
      | nil => exact terminator_ne_nil h
      | cons next before => exact terminator_ne_nil h
    rw [List.cons_append, List.flatten_cons, split_line hfirst hended, ih hrest]
    intro l hl
    rw [hrest] at hl
    exact hplain l (h ▸ List.mem_cons_of_mem _ hl)

variable {i : Nat}

theorem split_set (hline : (L.split text)[i]? = some line) (hplain : ∀ l ∈ L.split text, L.Plain l)
    (hterm : L.terminator line' = L.terminator line) (hne : line' ≠ []) :
    L.split ((L.split text).set i line').flatten = (L.split text).set i line' := by
  obtain ⟨hi, -⟩ := List.getElem?_eq_some_iff.mp hline
  rw [List.set_eq_take_append_cons_drop, if_pos hi]
  exact split_replace (eq_take_cons_drop hline) hplain hterm hne

end LineBreaks

end RocTui.Lib
