import Mathlib.Data.List.Count
import Mathlib.Data.List.Flatten
import RocTui.Lib.Run

universe u v w

namespace RocTui.Lib

/-- What the events of a history take in and pay out, item by item. -/
structure Ledger (Event : Type u) (α : Type v) where
  gains : Event → List α
  spends : Event → List α

namespace Ledger

variable {Event : Type u} {α : Type v} [DecidableEq α] (L : Ledger Event α)

def owned (history : List Event) (a : α) : Int :=
  (history.flatMap L.gains).count a - (history.flatMap L.spends).count a

@[simp] theorem owned_nil (a : α) : L.owned [] a = 0 := rfl

@[simp] theorem owned_cons (e : Event) (es : List Event) (a : α) :
    L.owned (e :: es) a = (L.gains e).count a - (L.spends e).count a + L.owned es a := by
  simp only [owned, List.flatMap_cons, List.count_append]
  omega

theorem owned_append (past es : List Event) (a : α) :
    L.owned (past ++ es) a = L.owned past a + L.owned es a := by
  simp only [owned, List.flatMap_append, List.count_append]
  omega

/-- The conservation rule.  If every step changes what a state is said to hold by what its
events take in and pay out, every run owns exactly what its last state holds.  The states that
take steps have the property `P`, and only such states need to say what they hold. -/
theorem conserved {State : Type w} {step : State → List Event → State → Prop} {init : State}
    {held : List Event → State → List α} {P : State → Prop} (start : held [] init = [])
    (alive : ∀ {s es t}, step s es t → P s)
    (next : ∀ {past s es t}, Run step init past s → step s es t → P t →
      ∀ a, ((held (past ++ es) t).count a : Int) = (held past s).count a + L.owned es a)
    {past : List Event} {s : State} (h : Run step init past s) (hl : P s) (a : α) :
    L.owned past a = (held past s).count a := by
  induction h with
  | nil => simp [start]
  | snoc hr hs ih =>
    rw [owned_append, ih (alive hs)]
    exact (next hr hs hl a).symm

end Ledger

end RocTui.Lib
