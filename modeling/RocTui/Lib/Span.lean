import RocTui.Lib.Run

namespace RocTui.Lib.Span

variable {α : Type} [DecidableEq α] {opens closes x : α} {l before : List α}

/-- What stands between the first `opens` and the next `closes`. -/
def span (opens closes : α) : List α → List α
  | [] => []
  | x :: l => if x = opens then l.takeWhile (· ≠ closes) else span opens closes l

def Within (opens closes : α) (l : List α) : Prop := opens ∈ l ∧ closes ∉ l

def Matched (opens closes : α) (l : List α) : Prop :=
  Always (fun past x => x = closes → Within opens closes past) l

theorem span_append (h : opens ∉ before) (rest : List α) :
    span opens closes (before ++ rest) = span opens closes rest := by
  induction before with
  | nil => rfl
  | cons y before ih =>
    obtain ⟨hy, hbefore⟩ := List.ne_and_not_mem_of_not_mem_cons h
    rw [List.cons_append, span, if_neg (Ne.symm hy), ih hbefore]

theorem span_nil (h : opens ∉ l) : span opens closes l = [] := by
  rw [← List.append_nil l, span_append h]
  rfl

theorem span_open (h : opens ∉ before) (during : List α) :
    span opens closes (before ++ opens :: during) = during.takeWhile (· ≠ closes) := by
  rw [span_append h, span, if_pos rfl]

theorem takeWhile_open (h : closes ∉ before) (rest : List α) :
    (before ++ rest).takeWhile (· ≠ closes) = before ++ rest.takeWhile (· ≠ closes) :=
  List.takeWhile_append_of_pos fun _ hy => decide_eq_true fun heq => h (heq ▸ hy)

theorem span_concat_within (h : Within opens closes l) (x : α) :
    span opens closes (l ++ [x]) = span opens closes l ++ if x = closes then [] else [x] := by
  obtain ⟨before, during, rfl, hfirst⟩ := List.eq_append_cons_of_mem h.1
  have up : closes ∉ during := fun hmem =>
    h.2 (List.mem_append_right _ (List.mem_cons_of_mem _ hmem))
  have all := takeWhile_open up []
  rw [List.append_nil, List.takeWhile_nil, List.append_nil] at all
  rw [List.append_assoc, List.cons_append, span_open hfirst, span_open hfirst, takeWhile_open up,
    all]
  by_cases hx : x = closes <;> simp [hx]

theorem span_concat_outside (hm : Matched opens closes l) (h : ¬Within opens closes l) (x : α) :
    span opens closes (l ++ [x]) = span opens closes l := by
  by_cases ho : opens ∈ l
  · have hc : closes ∈ l := by
      by_contra hno
      exact h ⟨ho, hno⟩
    obtain ⟨past, rest, rfl, hclosed⟩ := List.eq_append_cons_of_mem hc
    obtain ⟨before, during, rfl, hfirst⟩ :=
      List.eq_append_cons_of_mem (hm past closes rest rfl rfl).1
    have up : closes ∉ during := fun hmem =>
      hclosed (List.mem_append_right _ (List.mem_cons_of_mem _ hmem))
    simp only [List.append_assoc, List.cons_append]
    rw [span_open hfirst, span_open hfirst, takeWhile_open up, takeWhile_open up,
      List.takeWhile_cons_of_neg (by simp), List.takeWhile_cons_of_neg (by simp)]
  · rw [span_append ho, span_nil ho, span]
    by_cases hx : x = opens
    · rw [if_pos hx, List.takeWhile_nil]
    · rw [if_neg hx, span]

theorem span_begins {more : List α} (h : Matched opens closes (l ++ more)) :
    span opens closes l <+: span opens closes (l ++ more) := by
  induction more using List.reverseRecOn with
  | nil => rw [List.append_nil]
  | append_singleton more x ih =>
    rw [← List.append_assoc] at h ⊢
    have hmore : Matched opens closes (l ++ more) := Always.of_append h
    refine (ih hmore).trans ?_
    by_cases hw : Within opens closes (l ++ more)
    · rw [span_concat_within hw]
      exact List.prefix_append _ _
    · rw [span_concat_outside hmore hw]

end RocTui.Lib.Span
