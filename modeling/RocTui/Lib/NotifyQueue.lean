import RocTui.Lib.Run

namespace RocTui.Lib.NotifyQueue

/-- Counters of a queue whose producers put an item and announce it with a token in two steps,
and whose consumer takes a token and fetches an item in two steps. -/
structure Counters where
  items : Nat
  tokens : Nat
  announcing : Nat
  fetching : Nat

inductive Step : Counters → Counters → Prop
  | put : Step c { c with items := c.items + 1, announcing := c.announcing + 1 }
  | announce : 0 < c.announcing →
      Step c { c with tokens := c.tokens + 1, announcing := c.announcing - 1 }
  | take : 0 < c.tokens →
      Step c { c with tokens := c.tokens - 1, fetching := c.fetching + 1 }
  | fetch : 0 < c.fetching → 0 < c.items →
      Step c { c with items := c.items - 1, fetching := c.fetching - 1 }
  | miss : 0 < c.fetching → c.items = 0 → Step c { c with fetching := c.fetching - 1 }

/-- Every item is accounted for by its token, by the producer about to write that token, or by
the consumer that has already taken it. -/
def Counters.Balanced (c : Counters) : Prop :=
  c.items = c.tokens + c.announcing + c.fetching

theorem Counters.Balanced.available {c : Counters} (h : c.Balanced) (hf : 0 < c.fetching) :
    0 < c.items := by
  unfold Counters.Balanced at h
  omega

theorem Counters.Balanced.readable {c : Counters} (h : c.Balanced) (ha : c.announcing = 0)
    (hf : c.fetching = 0) (hi : 0 < c.items) : 0 < c.tokens := by
  unfold Counters.Balanced at h
  omega

theorem Step.balanced {c d : Counters} (h : Step c d) (hc : c.Balanced) : d.Balanced := by
  unfold Counters.Balanced at hc ⊢
  cases h with
  | put => simp only; omega
  | announce ha => simp only; omega
  | take ht => simp only; omega
  | fetch hf hi => simp only; omega
  | miss hf hi => simp only; omega

/-- A system whose steps move its counters by `Step`, or leave them alone, stays balanced. -/
theorem balanced_of_simulation {State Event : Type*} {step : State → List Event → State → Prop}
    {init : State} (counters : State → Counters) (start : (counters init).Balanced)
    (simulates : ∀ {past s es t}, Run step init past s → step s es t →
      counters t = counters s ∨ Step (counters s) (counters t))
    {past : List Event} {s : State} (h : Run step init past s) : (counters s).Balanced := by
  induction h with
  | nil => exact start
  | snoc hr hs ih =>
    cases simulates hr hs with
    | inl same =>
      rw [same]
      exact ih
    | inr move => exact move.balanced ih

end RocTui.Lib.NotifyQueue
