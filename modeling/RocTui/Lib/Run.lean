import Mathlib.Data.List.Basic
import Mathlib.Data.List.Infix

universe u v

namespace RocTui.Lib

/-- Runs of a labelled step relation.  The index is the history left behind, oldest event
first. -/
inductive Run {State : Type u} {Event : Type v} (step : State → List Event → State → Prop)
    (init : State) : List Event → State → Prop
  | nil : Run step init [] init
  | snoc : Run step init past s → step s es t → Run step init (past ++ es) t

namespace Run

variable {State : Type u} {Event : Type v} {step : State → List Event → State → Prop}
  {init : State} {past : List Event} {s t : State}

theorem invariant {I : List Event → State → Prop} (start : I [] init)
    (next : ∀ {past s es t}, I past s → step s es t → I (past ++ es) t)
    (h : Run step init past s) : I past s := by
  induction h with
  | nil => exact start
  | snoc _ hs ih => exact next ih hs

theorem invariant_of {I J : List Event → State → Prop}
    (known : ∀ {past s}, Run step init past s → J past s) (start : I [] init)
    (next : ∀ {past s es t}, J past s → I past s → step s es t → I (past ++ es) t)
    (h : Run step init past s) : I past s := by
  induction h with
  | nil => exact start
  | snoc hr hs ih => exact next (known hr) ih hs

theorem mono {step' : State → List Event → State → Prop}
    (sub : ∀ {s es t}, step s es t → step' s es t) (h : Run step init past s) :
    Run step' init past s := by
  induction h with
  | nil => exact nil
  | snoc _ hs ih => exact snoc ih (sub hs)

theorem restrict {p : Event → Prop} (h : Run step init past s) (hp : ∀ e ∈ past, p e) :
    Run (fun s es t => step s es t ∧ ∀ e ∈ es, p e) init past s := by
  induction h with
  | nil => exact nil
  | snoc _ hs ih =>
    have before := ih fun e he => hp e (List.mem_append_left _ he)
    exact before.snoc ⟨hs, fun e he => hp e (List.mem_append_right _ he)⟩

theorem trans {es : List Event} (h : Run step init past s) (hs : Run step s es t) :
    Run step init (past ++ es) t := by
  induction hs with
  | nil => simpa using h
  | snoc _ hs ih =>
    rw [← List.append_assoc]
    exact ih.snoc hs

/-- Steps that do what `step` does, or nothing, under a projection run as `step` does. -/
theorem project {State' : Type u} {step' : State' → List Event → State' → Prop}
    {init' s' : State'} (π : State' → State)
    (sub : ∀ {s es t}, step' s es t → step (π s) es (π t) ∨ es = [] ∧ π t = π s)
    (h : Run step' init' past s') : Run step (π init') past (π s') := by
  induction h with
  | nil => exact nil
  | snoc _ hs ih =>
    rcases sub hs with hstep | ⟨rfl, heq⟩
    · exact ih.snoc hstep
    · rw [heq, List.append_nil]
      exact ih

/-- A run is matched by one of `step'` when every step is. -/
theorem lift {State' : Type u} {step' : State' → List Event → State' → Prop} {init' : State'}
    (R : State → State' → Prop) (start : R init init')
    (sim : ∀ {s es t s'}, R s s' → step s es t → ∃ t', step' s' es t' ∧ R t t')
    (h : Run step init past s) : ∃ s', Run step' init' past s' ∧ R s s' := by
  induction h with
  | nil => exact ⟨init', nil, start⟩
  | snoc _ hs ih =>
    obtain ⟨s', hr, hrel⟩ := ih
    obtain ⟨t', hs', hrel'⟩ := sim hrel hs
    exact ⟨t', hr.snoc hs', hrel'⟩

theorem snoc_one {e : Event} (h : Run step init past s) (hs : step s [e] t) :
    Run step init (past ++ [e]) t := snoc h hs

theorem snoc_silent (h : Run step init past s) (hs : step s [] t) : Run step init past t := by
  simpa using snoc h hs

end Run

/-- Every event of the history stands in the relation `P` to the events before it. -/
def Always {Event : Type v} (P : List Event → Event → Prop) (history : List Event) : Prop :=
  ∀ past e rest, history = past ++ e :: rest → P past e

namespace Always

variable {Event : Type v} {P Q : List Event → Event → Prop} {history es : List Event} {e : Event}

theorem nil : Always P [] := by
  intro past e rest h
  simp at h

theorem concat (h : Always P history) (he : P history e) : Always P (history ++ [e]) := by
  intro past e' rest heq
  rcases List.eq_nil_or_concat rest with rfl | ⟨rest', last, rfl⟩
  · obtain ⟨rfl, rfl⟩ : history = past ∧ e = e' := by simpa using List.append_inj' heq rfl
    exact he
  · have split : history ++ [e] = (past ++ e' :: rest') ++ [last] := by simpa using heq
    exact h past e' rest' (List.append_inj' split rfl).1

theorem of_append (h : Always P (history ++ es)) : Always P history := by
  intro past e rest heq
  apply h past e (rest ++ es)
  rw [heq, List.append_assoc]
  rfl

theorem of_concat (h : Always P (history ++ [e])) : Always P history ∧ P history e :=
  ⟨h.of_append, h history e [] rfl⟩

def After (P : List Event → Event → Prop) (past : List Event) : List Event → Prop
  | [] => True
  | e :: es => P past e ∧ After P (past ++ [e]) es

theorem append (h : Always P history) (hes : After P history es) : Always P (history ++ es) := by
  induction es generalizing history with
  | nil => simpa using h
  | cons e es ih =>
    have tail := ih (h.concat hes.1) hes.2
    simpa using tail

theorem After.of_forall (h : ∀ e ∈ es, ∀ past, P past e) : After P history es := by
  induction es generalizing history with
  | nil => trivial
  | cons e es ih =>
    exact ⟨h e List.mem_cons_self history, ih fun e' he' => h e' (List.mem_cons_of_mem _ he')⟩

theorem imp (h : Always P history) (sub : ∀ past e, P past e → Q past e) : Always Q history :=
  fun past e rest heq => sub past e (h past e rest heq)

end Always

theorem Run.always {State : Type u} {Event : Type v} {step : State → List Event → State → Prop}
    {init : State} {P : List Event → Event → Prop}
    (next : ∀ {past s es t}, Run step init past s → step s es t → Always.After P past es)
    {past : List Event} {s : State} (h : Run step init past s) : Always P past := by
  induction h with
  | nil => exact Always.nil
  | snoc hr hs ih => exact ih.append (next hr hs)

end RocTui.Lib
