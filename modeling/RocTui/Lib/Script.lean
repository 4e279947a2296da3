import Mathlib.Data.List.Basic

namespace RocTui.Lib.Script

variable {ε σ α β : Type}

theorem bind_eq_ok {x : Except ε α} {f : α → Except ε β} {b : β} :
    x >>= f = .ok b ↔ ∃ a, x = .ok a ∧ f a = .ok b := by
  cases x with
  | error e => simp [bind, Except.bind]
  | ok a => simp [bind, Except.bind]

theorem ok_bind (a : α) (f : α → Except ε β) : (Except.ok a >>= f) = f a := rfl

theorem error_bind (e : ε) (f : α → Except ε β) : (Except.error e >>= f) = .error e := rfl

theorem map_eq_ok {x : Except ε α} {f : α → β} {b : β} :
    f <$> x = .ok b ↔ ∃ a, x = .ok a ∧ f a = b := by
  cases x with
  | error e => simp [Functor.map, Except.map]
  | ok a => simp [Functor.map, Except.map]

def expect (c : Prop) [Decidable c] (e : ε) : Except ε Unit :=
  if c then pure () else throw e

def expectSome (value : Option α) (e : ε) : Except ε α :=
  match value with
  | some a => pure a
  | none => throw e

@[simp] theorem expect_eq_ok {c : Prop} [Decidable c] {e : ε} {u : Unit} :
    expect c e = .ok u ↔ c := by
  unfold expect
  split <;> simp_all [pure, Except.pure, throw, throwThe, MonadExceptOf.throw]

theorem expect_of {c : Prop} [Decidable c] {e : ε} (h : c) : expect c e = .ok () := if_pos h

theorem expect_of_not {c : Prop} [Decidable c] {e : ε} (h : ¬c) : expect c e = .error e := if_neg h

theorem expectSome_some (a : α) (e : ε) : expectSome (some a) e = .ok a := rfl

@[simp] theorem expectSome_eq_ok {value : Option α} {e : ε} {a : α} :
    expectSome value e = .ok a ↔ value = some a := by
  cases value <;> simp [expectSome, pure, Except.pure, throw, throwThe, MonadExceptOf.throw]

theorem mapM_eq_ok {f : α → Except ε β} {xs : List α} {ys : List β} :
    xs.mapM f = .ok ys ↔ xs.map f = ys.map .ok := by
  induction xs generalizing ys with
  | nil => cases ys <;> simp [pure, Except.pure]
  | cons x xs ih =>
    simp only [List.mapM_cons, bind_eq_ok, ih, List.map_cons]
    constructor
    · rintro ⟨y, hy, ys, hys, heq⟩
      obtain rfl := Except.ok.inj heq
      rw [hy, hys, List.map_cons]
    · intro h
      cases ys with
      | nil => simp at h
      | cons y ys =>
        obtain ⟨hy, hys⟩ := List.cons.inj h
        exact ⟨y, hy, ys, hys, rfl⟩

theorem ofExcept_bind {y : Except ε α} {a : α} (h : y = .ok a) (f : α → EStateM ε σ β) :
    (MonadExcept.ofExcept y >>= f) = f a := by
  subst h
  rfl

theorem get_set_run (f : σ → Except ε β) (g : σ → β → σ) (s : σ) :
    (get >>= fun s => MonadExcept.ofExcept (f s) >>= fun b => set (g s b) :
        EStateM ε σ PUnit) s =
      match f s with
      | .ok b => .ok ⟨⟩ (g s b)
      | .error e => .error e s := by
  have hget : (get >>= fun s => MonadExcept.ofExcept (f s) >>= fun b => set (g s b) :
        EStateM ε σ PUnit) s =
      (MonadExcept.ofExcept (f s) >>= fun b => set (g s b) : EStateM ε σ PUnit) s := rfl
  rw [hget]
  cases f s <;> rfl

def onlyIf (c : Prop) [Decidable c] (x : EStateM ε σ Unit) : EStateM ε σ Unit :=
  if c then x else pure ()

/-- From a state with `P`, the script returns with `Q` or stops with `E`. -/
def Triple (P : σ → Prop) (x : EStateM ε σ α) (Q : α → σ → Prop) (E : σ → Prop) : Prop :=
  ∀ s, P s → match x s with
    | .ok a s' => Q a s'
    | .error _ s' => E s'

variable {P P' E E' I : σ → Prop} {Q Q' : α → σ → Prop} {R : β → σ → Prop}
  {x : EStateM ε σ α}

def final (x : EStateM ε σ α) (s : σ) : σ :=
  match x s with
  | .ok _ s' | .error _ s' => s'

theorem Triple.final {s : σ} (h : Triple P x (fun _ => E) E) (hs : P s) : E (final x s) := by
  have hx := h s hs
  unfold Script.final
  split at hx <;> simp [*]

theorem Triple.mono (h : Triple P x Q E) (hP : ∀ s, P' s → P s) (hQ : ∀ a s, Q a s → Q' a s)
    (hE : ∀ s, E s → E' s) : Triple P' x Q' E' := by
  intro s hs
  have hx := h s (hP s hs)
  split at hx
  · exact hQ _ _ hx
  · exact hE _ hx

theorem Triple.and (h : Triple P x Q E) (h' : Triple P' x Q' E') :
    Triple (fun s => P s ∧ P' s) x (fun a s => Q a s ∧ Q' a s) fun s => E s ∧ E' s := by
  rintro s ⟨hs, hs'⟩
  have hx := h s hs
  have hx' := h' s hs'
  split at hx
  · rename_i heq
    rw [heq] at hx'
    exact ⟨hx, hx'⟩
  · rename_i heq
    rw [heq] at hx'
    exact ⟨hx, hx'⟩

theorem Triple.pure {a : α} (h : ∀ s, P s → Q a s) : Triple P (pure a : EStateM ε σ α) Q E := h

theorem Triple.bind {f : α → EStateM ε σ β} (hx : Triple P x Q E)
    (hf : ∀ a, Triple (Q a) (f a) R E) : Triple P (x >>= f) R E := by
  intro s hs
  have hxs := hx s hs
  simp only [Bind.bind, EStateM.bind]
  split at hxs
  · rename_i a s' heq
    rw [heq]
    exact hf a s' hxs
  · rename_i heq
    rw [heq]
    exact hxs

theorem Triple.get_bind {f : σ → EStateM ε σ β} (h : ∀ s, P s → Triple (· = s) (f s) R E) :
    Triple P (get >>= f) R E :=
  fun s hs => h s hs s rfl

theorem Triple.ofExcept_bind {y : Except ε α} {f : α → EStateM ε σ β}
    (h : ∀ a, y = .ok a → Triple P (f a) R E) (hE : ∀ s, P s → E s) :
    Triple P (MonadExcept.ofExcept y >>= f) R E := by
  cases y with
  | ok a => exact h a rfl
  | error e => exact hE

theorem Triple.onlyIf {c : Prop} [Decidable c] {x : EStateM ε σ Unit} {Q : Unit → σ → Prop}
    (h : c → Triple P x Q E) (hnot : ¬c → ∀ s, P s → Q () s) : Triple P (onlyIf c x) Q E := by
  unfold Script.onlyIf
  split
  · exact h ‹c›
  · exact hnot ‹¬c›

/-- The invariant of a loop speaks of the items it is done with. -/
theorem Triple.foldlM {J : List α → β → σ → Prop} {f : β → α → EStateM ε σ β} {xs : List α}
    {b : β} (h : ∀ done a b, Triple (J done b) (f b a) (J (done ++ [a])) E) :
    Triple (J [] b) (xs.foldlM f b) (J xs) E := by
  suffices H : ∀ done b, Triple (J done b) (xs.foldlM f b) (J (done ++ xs)) E from H [] b
  induction xs with
  | nil => exact fun done b => Triple.pure fun s hs => by simpa using hs
  | cons a xs ih =>
    intro done b
    rw [List.foldlM_cons]
    refine Triple.bind (h done a b) fun b' => ?_
    have hxs := ih (done ++ [a]) b'
    rwa [List.append_assoc] at hxs

abbrev Preserves (I : σ → Prop) (x : EStateM ε σ α) : Prop := Triple I x (fun _ => I) I

theorem Preserves.pure {a : α} : Preserves I (pure a : EStateM ε σ α) := fun _ hs => hs

theorem Preserves.throw {e : ε} : Preserves I (throw e : EStateM ε σ α) := fun _ hs => hs

theorem Preserves.ofExcept {y : Except ε α} :
    Preserves I (MonadExcept.ofExcept y : EStateM ε σ α) := by
  cases y with
  | ok a => exact Preserves.pure
  | error e => exact Preserves.throw

theorem Preserves.get : Preserves I (get : EStateM ε σ σ) := fun _ hs => hs

theorem Preserves.onlyIf {c : Prop} [Decidable c] {x : EStateM ε σ Unit} (h : Preserves I x) :
    Preserves I (onlyIf c x) :=
  Triple.onlyIf (fun _ => h) fun _ _ hs => hs

theorem Preserves.foldlM {f : β → α → EStateM ε σ β} {xs : List α} {b : β}
    (h : ∀ b a, Preserves I (f b a)) : Preserves I (xs.foldlM f b) :=
  Triple.foldlM (J := fun _ _ => I) fun _ a b => h b a

theorem Preserves.forM {f : α → EStateM ε σ PUnit} {xs : List α} (h : ∀ a, Preserves I (f a)) :
    Preserves I (xs.forM f) := by
  induction xs with
  | nil => exact Preserves.pure
  | cons a xs ih => exact Triple.bind (h a) fun _ => ih

end RocTui.Lib.Script
