import Mathlib.Data.List.Nodup

universe u

namespace RocTui.Lib.Sections

theorem mem_findIdxs {α : Type u} {p : α → Bool} {xs : List α} {i : Nat} :
    i ∈ xs.findIdxs p ↔ ∃ x, xs[i]? = some x ∧ p x = true := by
  rw [List.mem_findIdxs_iff_exists_getElem_pos]
  constructor
  · rintro ⟨hi, hp⟩
    exact ⟨_, List.getElem?_eq_getElem hi, hp⟩
  · rintro ⟨x, hx, hp⟩
    obtain ⟨hi, rfl⟩ := List.getElem?_eq_some_iff.mp hx
    exact ⟨hi, hp⟩

/-- From each mark up to the next. -/
def bounds (marks : List Nat) : List (Nat × Nat) := marks.zip marks.tail

variable {marks : List Nat}

theorem bounds_cons_cons (a b : Nat) (marks : List Nat) :
    bounds (a :: b :: marks) = (a, b) :: bounds (b :: marks) := rfl

theorem mem_bounds (h : marks.Pairwise (· < ·)) {a b : Nat} :
    (a, b) ∈ bounds marks ↔ a ∈ marks ∧ b ∈ marks ∧ a < b ∧ ∀ c ∈ marks, c ≤ a ∨ b ≤ c := by
  induction marks with
  | nil => simp [bounds]
  | cons first marks ih =>
    cases marks with
    | nil =>
      simp only [bounds, List.tail_cons, List.zip_nil_right, List.not_mem_nil, List.mem_singleton,
        false_iff]
      rintro ⟨rfl, rfl, hlt, -⟩
      exact absurd hlt (Nat.lt_irrefl _)
    | cons second marks =>
      obtain ⟨hfirst, hrest⟩ := List.pairwise_cons.mp h
      obtain ⟨hsecond, -⟩ := List.pairwise_cons.mp hrest
      have hlt := hfirst second List.mem_cons_self
      rw [bounds_cons_cons, List.mem_cons, ih hrest]
      constructor
      · rintro (heq | ⟨ha, hb, hab, hnone⟩)
        · obtain ⟨rfl, rfl⟩ := Prod.mk.inj heq
          refine ⟨List.mem_cons_self, by simp, hlt, ?_⟩
          simp only [List.forall_mem_cons, Nat.le_refl, true_or, or_true, true_and]
          exact fun c hc => .inr (Nat.le_of_lt (hsecond c hc))
        · refine ⟨List.mem_cons_of_mem _ ha, List.mem_cons_of_mem _ hb, hab, ?_⟩
          exact List.forall_mem_cons.mpr ⟨.inl (Nat.le_of_lt (hfirst a ha)), hnone⟩
      · rintro ⟨ha, hb, hab, hnone⟩
        rw [List.forall_mem_cons] at hnone
        rcases List.mem_cons.mp ha with rfl | ha'
        · -- The next mark is where its section ends.
          rcases hnone.2 second List.mem_cons_self with hle | hle
          · exact absurd hlt (Nat.not_lt.mpr hle)
          · rcases List.mem_cons.mp hb with rfl | hb'
            · exact absurd hab (Nat.lt_irrefl _)
            · rcases List.mem_cons.mp hb' with rfl | hb''
              · exact .inl rfl
              · exact absurd (hsecond b hb'') (Nat.not_lt.mpr hle)
        · rcases List.mem_cons.mp hb with rfl | hb'
          · exact absurd (hfirst a ha') (Nat.lt_asymm hab)
          · exact .inr ⟨ha', hb', hab, hnone.2⟩

theorem pairwise_bounds (h : marks.Pairwise (· < ·)) :
    (bounds marks).Pairwise fun p q => p.2 ≤ q.1 := by
  induction marks with
  | nil => exact List.Pairwise.nil
  | cons first marks ih =>
    cases marks with
    | nil => exact List.Pairwise.nil
    | cons second marks =>
      obtain ⟨-, hrest⟩ := List.pairwise_cons.mp h
      rw [bounds_cons_cons, List.pairwise_cons]
      refine ⟨?_, ih hrest⟩
      rintro ⟨a, b⟩ hmem
      have ha := ((mem_bounds hrest).mp hmem).1
      rcases List.mem_cons.mp ha with rfl | ha
      · exact Nat.le_refl _
      · exact Nat.le_of_lt ((List.pairwise_cons.mp hrest).1 a ha)

theorem pairwise_flatMap_bounds (h : marks.Pairwise (· < ·)) {f : Nat × Nat → List Nat}
    (hf : ∀ p, (f p).Pairwise (· < ·)) (hmem : ∀ p, ∀ i ∈ f p, p.1 ≤ i ∧ i < p.2) :
    ((bounds marks).flatMap f).Pairwise (· < ·) := by
  rw [List.pairwise_flatMap]
  refine ⟨fun p _ => hf p, (pairwise_bounds h).imp ?_⟩
  intro p q hpq i hi j hj
  calc i < p.2 := (hmem p i hi).2
    _ ≤ q.1 := hpq
    _ ≤ j := (hmem q j hj).1

theorem eq_singleton_iff {found : List Nat} (h : found.Pairwise (· < ·)) {i : Nat} :
    found = [i] ↔ ∀ j, j ∈ found ↔ j = i := by
  constructor
  · rintro rfl
    exact fun j => List.mem_singleton
  · intro hmem
    have hnodup : found.Nodup := h.imp Nat.ne_of_lt
    have hperm : found.Perm [i] :=
      (List.perm_ext_iff_of_nodup hnodup (List.nodup_singleton i)).mpr fun j =>
        (hmem j).trans List.mem_singleton.symm
    exact List.perm_singleton.mp hperm

end RocTui.Lib.Sections
