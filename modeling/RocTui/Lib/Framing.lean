import Mathlib.Data.Multiset.Sort

namespace RocTui.Lib.Framing

variable {α κ : Type*}

def fields (sep : α) (fs : List (List α)) : List α := fs.flatMap (· ++ [sep])

variable {sep : α}

@[simp] theorem fields_nil : fields sep [] = [] := rfl

@[simp] theorem fields_cons (f : List α) (fs : List (List α)) :
    fields sep (f :: fs) = f ++ sep :: fields sep fs := by
  simp [fields]

theorem field_inj {f g fs gs : List α} (hf : sep ∉ f) (hg : sep ∉ g) :
    f ++ sep :: fs = g ++ sep :: gs ↔ f = g ∧ fs = gs := by
  induction f generalizing g with
  | nil =>
    cases g with
    | nil => simp
    | cons b g => simp [Ne.symm, (List.ne_of_not_mem_cons hg)]
  | cons a f ih =>
    cases g with
    | nil => simp [(List.ne_of_not_mem_cons hf).symm]
    | cons b g =>
      rw [List.cons_append, List.cons_append, List.cons.injEq, List.cons.injEq,
        ih (List.not_mem_of_not_mem_cons hf) (List.not_mem_of_not_mem_cons hg), and_assoc]

theorem fields_inj {fs gs : List (List α)} (hf : ∀ f ∈ fs, sep ∉ f) (hg : ∀ g ∈ gs, sep ∉ g) :
    fields sep fs = fields sep gs ↔ fs = gs := by
  induction fs generalizing gs with
  | nil => cases gs <;> simp
  | cons f fs ih =>
    cases gs with
    | nil => simp
    | cons g gs =>
      rw [List.forall_mem_cons] at hf hg
      rw [fields_cons, fields_cons, field_inj hf.1 hg.1, List.cons.injEq, ih hf.2 hg.2]

variable {code contents contents' : κ → List α}

theorem records_inj (hcode : Function.Injective code) {ks ks' : List κ}
    (h : (ks.flatMap fun k => [code k, contents k]) =
      ks'.flatMap fun k => [code k, contents' k]) :
    ks = ks' ∧ ∀ k ∈ ks, contents k = contents' k := by
  induction ks generalizing ks' with
  | nil =>
    cases ks' with
    | nil => simp
    | cons k ks' => simp at h
  | cons k ks ih =>
    cases ks' with
    | nil => simp at h
    | cons k' ks' =>
      simp only [List.flatMap_cons, List.cons_append, List.nil_append, List.cons.injEq] at h
      obtain ⟨hk, hcontents, hrest⟩ := h
      obtain rfl := hcode hk
      obtain ⟨rfl, hsame⟩ := ih hrest
      exact ⟨rfl, List.forall_mem_cons.mpr ⟨hcontents, hsame⟩⟩

section Snapshot

variable [LinearOrder κ] {keys keys' : Multiset κ}

/-- Records of a name and its contents, in the order of the names. -/
def snapshot (sep : α) (code contents : κ → List α) (keys : Multiset κ) : List α :=
  (keys.sort (· ≤ ·)).flatMap fun k => code k ++ sep :: (contents k ++ [sep])

theorem snapshot_eq_fields : snapshot sep code contents keys =
    fields sep ((keys.sort (· ≤ ·)).flatMap fun k => [code k, contents k]) := by
  simp only [snapshot, fields, List.flatMap_assoc]
  simp

/-- A snapshot tells which names it is of and what each holds. -/
theorem snapshot_inj (hcode : Function.Injective code)
    (hkeys : ∀ k ∈ keys, sep ∉ code k ∧ sep ∉ contents k)
    (hkeys' : ∀ k ∈ keys', sep ∉ code k ∧ sep ∉ contents' k) :
    snapshot sep code contents keys = snapshot sep code contents' keys' ↔
      keys = keys' ∧ ∀ k ∈ keys, contents k = contents' k := by
  rw [snapshot_eq_fields, snapshot_eq_fields, fields_inj]
  · constructor
    · intro h
      obtain ⟨hsort, hsame⟩ := records_inj hcode h
      have heq : keys = keys' := by
        rw [← keys.sort_eq (· ≤ ·), hsort, keys'.sort_eq]
      exact ⟨heq, fun k hk => hsame k ((Multiset.mem_sort _).mpr hk)⟩
    · rintro ⟨rfl, hsame⟩
      refine List.flatMap_congr fun k hk => ?_
      rw [hsame k ((Multiset.mem_sort _).mp hk)]
  · intro f hf
    simp only [List.mem_flatMap, Multiset.mem_sort, List.mem_cons, List.not_mem_nil,
      or_false] at hf
    obtain ⟨k, hk, rfl | rfl⟩ := hf
    · exact (hkeys k hk).1
    · exact (hkeys k hk).2
  · intro f hf
    simp only [List.mem_flatMap, Multiset.mem_sort, List.mem_cons, List.not_mem_nil,
      or_false] at hf
    obtain ⟨k, hk, rfl | rfl⟩ := hf
    · exact (hkeys' k hk).1
    · exact (hkeys' k hk).2

end Snapshot

end RocTui.Lib.Framing
