import Mathlib.Algebra.Order.BigOperators.Group.Finset
import Mathlib.Data.List.Count
import Mathlib.Data.List.Perm.Subperm
import Mathlib.Logic.Function.Basic

universe u

namespace RocTui.Lib

/-- A reference-counted heap: the count word of each allocation (0 marks data that is never
counted), the references stored inside it, and the allocations not yet freed. -/
structure RefHeap (α : Type u) where
  count : α → Nat
  children : α → List α
  live : Finset α

namespace RefHeap

variable {α : Type u} [DecidableEq α]

def incref (h : RefHeap α) (p : α) (amount : Nat) : RefHeap α :=
  if h.count p = 0 then h
  else { h with count := Function.update h.count p (h.count p + amount) }

def decref (h : RefHeap α) (p : α) : RefHeap α :=
  if h.count p = 0 then h
  else
    { h with
      count := Function.update h.count p (h.count p - 1)
      live := if h.count p = 1 then h.live.erase p else h.live }

def decrefAll (h : RefHeap α) (ps : List α) : RefHeap α := ps.foldl decref h

@[simp] theorem decrefAll_nil (h : RefHeap α) : h.decrefAll [] = h := rfl

@[simp] theorem decrefAll_cons (h : RefHeap α) (p : α) (ps : List α) :
    h.decrefAll (p :: ps) = (h.decref p).decrefAll ps := rfl

@[simp] theorem decrefAll_append (h : RefHeap α) (ps qs : List α) :
    h.decrefAll (ps ++ qs) = (h.decrefAll ps).decrefAll qs := List.foldl_append

theorem count_decref (h : RefHeap α) (p q : α) :
    (h.decref p).count q = h.count q - [p].count q := by
  unfold decref
  by_cases hpq : p = q
  · subst hpq
    by_cases h0 : h.count p = 0 <;> simp [h0]
  · have hqp : q ≠ p := fun e => hpq e.symm
    by_cases h0 : h.count p = 0 <;> simp [h0, hpq, hqp]

theorem count_decrefAll (h : RefHeap α) (ps : List α) (q : α) :
    (h.decrefAll ps).count q = h.count q - ps.count q := by
  induction ps generalizing h with
  | nil => simp
  | cons p ps ih =>
    rw [decrefAll_cons, ih, count_decref, Nat.sub_sub, ← List.count_append, List.singleton_append]

theorem count_incref (h : RefHeap α) (p q : α) (amount : Nat) :
    (h.incref p amount).count q =
      if h.count q = 0 then 0 else h.count q + amount * [p].count q := by
  unfold incref
  by_cases hpq : p = q
  · subst hpq
    by_cases h0 : h.count p = 0 <;> simp [h0]
  · have hqp : q ≠ p := fun e => hpq e.symm
    by_cases h0 : h.count p = 0 <;> by_cases hq : h.count q = 0 <;> simp [h0, hq, hpq, hqp]

theorem mem_live_decref (h : RefHeap α) (p q : α) (hq : q ∈ h.live)
    (hc : 0 < (h.decref p).count q) : q ∈ (h.decref p).live := by
  rw [count_decref] at hc
  unfold decref
  by_cases h0 : h.count p = 0
  · simpa [h0] using hq
  · by_cases h1 : h.count p = 1
    · have hqp : q ≠ p := by
        rintro rfl
        simp [h1] at hc
      simp [h1, hqp, hq]
    · simp [h0, h1, hq]

theorem mem_live_decrefAll (h : RefHeap α) (ps : List α) (q : α) (hq : q ∈ h.live)
    (hc : 0 < (h.decrefAll ps).count q) : q ∈ (h.decrefAll ps).live := by
  induction ps generalizing h with
  | nil => exact hq
  | cons p ps ih =>
    rw [decrefAll_cons] at hc ⊢
    apply ih _ _ hc
    apply mem_live_decref h p q hq
    rw [count_decrefAll] at hc
    omega

/-- The references to `p`: those of the owners outside the heap and those stored in it. -/
def references (h : RefHeap α) (roots : List α) (p : α) : Nat :=
  roots.count p + ∑ q ∈ h.live, (h.children q).count p

/-- The accounting a reference-counted heap keeps: counts are exact, nothing dangles. -/
structure Balanced (h : RefHeap α) (roots : List α) : Prop where
  exact : ∀ p, h.count p ≠ 0 → h.count p = h.references roots p
  closed : ∀ p, 0 < h.references roots p → p ∈ h.live

/-- The allocations left once the owner of one reference to `p` lets go of it: the last
reference takes the allocation, and the references stored in it, with it. -/
def survivors (h : RefHeap α) (p : α) : Finset α :=
  if h.count p = 1 then h.live.erase p else h.live

def remaining (h : RefHeap α) (roots : List α) (p q : α) : Nat :=
  roots.count q + ∑ r ∈ h.survivors p, (h.children r).count q

inductive Reaches (h : RefHeap α) (p : α) : α → Prop
  | refl : Reaches h p p
  | child : Reaches h p q → r ∈ h.children q → Reaches h p r

theorem references_cons (h : RefHeap α) (roots : List α) (p q : α) :
    h.references (p :: roots) q = [p].count q + h.references roots q := by
  simp only [references, List.count_cons, List.count_nil]
  omega

theorem remaining_shared (h : RefHeap α) (roots : List α) (p q : α) (hp : h.count p ≠ 1) :
    h.remaining roots p q = h.references roots q := by
  simp [remaining, survivors, references, hp]

theorem remaining_unique (h : RefHeap α) (roots : List α) (p q : α) (hp : h.count p = 1)
    (hl : p ∈ h.live) :
    h.references roots q = (h.children p).count q + h.remaining roots p q := by
  have split := Finset.add_sum_erase h.live (fun r => (h.children r).count q) hl
  simp only [references, remaining, survivors, hp, if_true]
  omega

theorem Balanced.count_pos {h : RefHeap α} {roots : List α} {p : α} (hb : h.Balanced roots)
    (hc : h.count p ≠ 0) : 0 < h.references roots p := by
  rw [← hb.exact p hc]
  omega

theorem Balanced.release_unique {h : RefHeap α} {roots ps : List α} {p q : α}
    (hb : h.Balanced (p :: roots)) (hp : h.count p = 1) (hps : ps.Subperm (h.children p))
    (hq : h.count q ≠ 0) : h.remaining roots p q ≤ (h.decrefAll ps).count q := by
  have hl : p ∈ h.live := hb.closed p (hb.count_pos (by omega))
  have exact := hb.exact q hq
  rw [references_cons, remaining_unique h roots p q hp hl] at exact
  have le := hps.count_le q
  rw [count_decrefAll]
  omega

theorem Balanced.release_shared {h : RefHeap α} {roots ps : List α} {p q : α}
    (hb : h.Balanced (p :: roots)) (hp : h.count p ≠ 1) (hpq : p ≠ q) (hq : h.count q ≠ 0)
    (hmem : q ∈ ps) : (h.decrefAll ps).count q < h.remaining roots p q := by
  have exact := hb.exact q hq
  rw [references_cons] at exact
  have pos : 0 < ps.count q := List.count_pos_iff.mpr hmem
  have other : [p].count q = 0 := by simp [hpq]
  rw [remaining_shared h roots p q hp, count_decrefAll]
  omega

theorem count_decrefAll_of_notMem {h : RefHeap α} {ps : List α} {q : α} (hq : q ∉ ps) :
    (h.decrefAll ps).count q = h.count q := by
  rw [count_decrefAll, List.count_eq_zero_of_not_mem hq, Nat.sub_zero]

theorem remaining_le_references (h : RefHeap α) (roots : List α) (p q : α) :
    h.remaining roots p q ≤ h.references roots q := by
  by_cases hp : h.count p = 1
  · have sub : h.survivors p ⊆ h.live := by
      simp only [survivors, hp, if_true]
      exact Finset.erase_subset _ _
    have le := Finset.sum_le_sum_of_subset (f := fun r => (h.children r).count q) sub
    simp only [remaining, references]
    omega
  · rw [remaining_shared h roots p q hp]

theorem Balanced.not_reaches {h : RefHeap α} {roots : List α} {p r : α}
    (hb : h.Balanced (p :: roots)) (hp : h.count p = 1) (hr : r ∈ roots) :
    ∀ {q}, h.Reaches r q → q ∈ h.live ∧ q ≠ p := by
  have none : h.references roots p = 0 := by
    have exact := hb.exact p (by omega)
    rw [references_cons] at exact
    simp at exact
    omega
  have live : ∀ q, 0 < h.references roots q → q ∈ h.live := by
    intro q hq
    apply hb.closed
    rw [references_cons]
    omega
  have apart : ∀ q, 0 < h.references roots q → q ∈ h.live ∧ q ≠ p := by
    intro q hq
    refine ⟨live q hq, ?_⟩
    rintro rfl
    omega
  intro q hq
  induction hq with
  | refl =>
    apply apart
    have pos : 0 < roots.count r := List.count_pos_iff.mpr hr
    simp only [references]
    omega
  | child _ hc ih =>
    apply apart
    exact Nat.add_pos_right _ ((List.count_pos_iff.mpr hc).trans_le
      (Finset.single_le_sum (f := fun r => (h.children r).count _) (fun _ _ => Nat.zero_le _) ih.1))

theorem Balanced.remaining_pos {h : RefHeap α} {roots : List α} {p q r : α}
    (hb : h.Balanced (p :: roots)) (hp : h.count p = 1) (hr : r ∈ roots)
    (hq : h.Reaches r q) : 0 < h.remaining roots p q := by
  cases hq with
  | refl => exact Nat.add_pos_left (List.count_pos_iff.mpr hr) _
  | @child q' _ hq' hc =>
    have stays := hb.not_reaches hp hr hq'
    have survives : q' ∈ h.survivors p := by
      rw [survivors, if_pos hp]
      exact Finset.mem_erase.mpr ⟨stays.2, stays.1⟩
    exact Nat.add_pos_right _ ((List.count_pos_iff.mpr hc).trans_le
      (Finset.single_le_sum (f := fun r => (h.children r).count q) (fun _ _ => Nat.zero_le _)
        survives))

theorem Balanced.perm {h : RefHeap α} {roots roots' : List α} (hb : h.Balanced roots)
    (hp : roots.Perm roots') : h.Balanced roots' := by
  have refs (q : α) : h.references roots' q = h.references roots q := by
    simp only [references, hp.count_eq]
  exact ⟨fun q hq => (refs q).symm ▸ hb.exact q hq, fun q hq => hb.closed q (refs q ▸ hq)⟩

def alloc (h : RefHeap α) (p : α) (ps : List α) : RefHeap α where
  count := Function.update h.count p 1
  children := Function.update h.children p ps
  live := insert p h.live

theorem sum_children_alloc (h : RefHeap α) {p : α} (ps : List α) (hp : p ∉ h.live) (q : α) :
    ∑ r ∈ (h.alloc p ps).live, ((h.alloc p ps).children r).count q =
      ps.count q + ∑ r ∈ h.live, (h.children r).count q := by
  simp only [alloc]
  rw [Finset.sum_insert hp, Function.update_self]
  congr 1
  refine Finset.sum_congr rfl fun r hr => ?_
  have hne : r ≠ p := by
    rintro rfl
    exact hp hr
  rw [Function.update_of_ne hne]

theorem Balanced.alloc {h : RefHeap α} {roots ps : List α} {p : α}
    (hb : h.Balanced (ps ++ roots)) (hp : p ∉ h.live) : (h.alloc p ps).Balanced (p :: roots) := by
  have refs (q : α) : (h.alloc p ps).references (p :: roots) q =
      [p].count q + h.references (ps ++ roots) q := by
    simp only [references, sum_children_alloc h ps hp, List.count_append, List.count_cons,
      List.count_nil]
    omega
  have none : h.references (ps ++ roots) p = 0 := by
    by_contra hne
    exact hp (hb.closed p (Nat.pos_of_ne_zero hne))
  constructor
  · intro q hq
    rw [refs]
    by_cases hqp : q = p
    · subst hqp
      simp [RefHeap.alloc, none]
    · have hc : (h.alloc p ps).count q = h.count q := Function.update_of_ne hqp _ _
      rw [hc] at hq ⊢
      rw [hb.exact q hq, List.count_singleton, if_neg (by simpa using Ne.symm hqp), Nat.zero_add]
  · intro q hq
    rw [refs] at hq
    by_cases hqp : q = p
    · exact hqp ▸ Finset.mem_insert_self _ _
    · rw [List.count_singleton, if_neg (by simpa using Ne.symm hqp), Nat.zero_add] at hq
      exact Finset.mem_insert_of_mem (hb.closed q hq)

theorem Balanced.incref {h : RefHeap α} {roots : List α} {p : α} (hb : h.Balanced roots)
    (hc : h.count p ≠ 0) (n : Nat) : (h.incref p n).Balanced (List.replicate n p ++ roots) := by
  have refs (q : α) : (h.incref p n).references (List.replicate n p ++ roots) q =
      (List.replicate n p).count q + h.references roots q := by
    simp only [references, RefHeap.incref, if_neg hc, List.count_append]
    omega
  constructor
  · intro q hq
    rw [refs, List.count_replicate]
    by_cases hqp : q = p
    · subst hqp
      simp only [RefHeap.incref, if_neg hc, Function.update_self, beq_self_eq_true, if_true]
      rw [hb.exact q hc, Nat.add_comm]
    · have same : (h.incref p n).count q = h.count q := by
        simp only [RefHeap.incref, if_neg hc, Function.update_of_ne hqp]
      rw [same] at hq ⊢
      rw [hb.exact q hq, if_neg (by simpa using Ne.symm hqp), Nat.zero_add]
  · intro q hq
    rw [refs, List.count_replicate] at hq
    have live : (h.incref p n).live = h.live := by simp only [RefHeap.incref, if_neg hc]
    rw [live]
    by_cases hqp : q = p
    · exact hb.closed q (hqp ▸ hb.count_pos hc)
    · rw [if_neg (by simpa using Ne.symm hqp), Nat.zero_add] at hq
      exact hb.closed q hq

/-- The references a freed allocation held are its owner's to release. -/
def freed (h : RefHeap α) (p : α) : List α := if h.count p = 1 then h.children p else []

theorem Balanced.decref {h : RefHeap α} {roots : List α} {p : α} (hb : h.Balanced (p :: roots))
    (hc : h.count p ≠ 0) : (h.decref p).Balanced (h.freed p ++ roots) := by
  have live_p : p ∈ h.live := hb.closed p (hb.count_pos hc)
  have live : (h.decref p).live = h.survivors p := by
    simp only [RefHeap.decref, if_neg hc, survivors]
  have refs (q : α) : (h.decref p).references (h.freed p ++ roots) q = h.references roots q := by
    have children : (h.decref p).children = h.children := by simp only [RefHeap.decref, if_neg hc]
    by_cases h1 : h.count p = 1
    · rw [remaining_unique h roots p q h1 live_p]
      simp only [references, remaining, freed, if_pos h1, live, children, List.count_append]
      omega
    · rw [← remaining_shared h roots p q h1]
      simp only [references, remaining, freed, if_neg h1, live, children, List.nil_append]
  have count_p : h.count p = 1 + h.references roots p := by
    rw [hb.exact p hc, references_cons, List.count_singleton_self]
  constructor
  · intro q hq
    rw [refs, count_decref]
    rw [count_decref] at hq
    by_cases hqp : q = p
    · subst hqp
      rw [count_p, List.count_singleton_self, Nat.add_sub_cancel_left]
    · have other : [p].count q = 0 := by simp [Ne.symm hqp]
      rw [other, Nat.sub_zero] at hq ⊢
      rw [hb.exact q hq, references_cons, other, Nat.zero_add]
  · intro q hq
    rw [refs] at hq
    rw [live, survivors]
    have live_q : q ∈ h.live := hb.closed q (by rw [references_cons]; omega)
    split
    · rename_i h1
      refine Finset.mem_erase.mpr ⟨?_, live_q⟩
      rintro rfl
      omega
    · exact live_q

@[simp] theorem children_incref (h : RefHeap α) (p : α) (n : Nat) :
    (h.incref p n).children = h.children := by
  unfold incref
  split <;> rfl

@[simp] theorem live_incref (h : RefHeap α) (p : α) (n : Nat) : (h.incref p n).live = h.live := by
  unfold incref
  split <;> rfl

@[simp] theorem children_decref (h : RefHeap α) (p : α) : (h.decref p).children = h.children := by
  unfold decref
  split <;> rfl

theorem live_decref_subset (h : RefHeap α) (p : α) : (h.decref p).live ⊆ h.live := by
  unfold decref
  split
  · exact Finset.Subset.refl _
  · simp only
    split
    · exact Finset.erase_subset _ _
    · exact Finset.Subset.refl _

@[simp] theorem children_decrefAll (h : RefHeap α) (ps : List α) :
    (h.decrefAll ps).children = h.children := by
  induction ps generalizing h with
  | nil => rfl
  | cons p ps ih => rw [decrefAll_cons, ih, children_decref]

omit [DecidableEq α] in
theorem Reaches.congr {h h' : RefHeap α} (hc : h'.children = h.children) {p q : α}
    (hr : h.Reaches p q) : h'.Reaches p q := by
  induction hr with
  | refl => exact .refl
  | child _ hq ih => exact .child ih (hc ▸ hq)

theorem live_decrefAll_subset (h : RefHeap α) (ps : List α) :
    (h.decrefAll ps).live ⊆ h.live := by
  induction ps generalizing h with
  | nil => exact Finset.Subset.refl _
  | cons p ps ih => exact (ih _).trans (live_decref_subset h p)

theorem Balanced.decrefAll {h : RefHeap α} {roots ps : List α} (hb : h.Balanced (ps ++ roots))
    (hps : ∀ q ∈ ps, h.count q ≠ 0 ∧ h.children q = []) : (h.decrefAll ps).Balanced roots := by
  induction ps generalizing h with
  | nil => exact hb
  | cons p ps ih =>
    obtain ⟨hc, hnone⟩ := hps p List.mem_cons_self
    have freed : h.freed p = [] := by
      unfold RefHeap.freed
      rw [hnone, ite_self]
    have after := hb.decref hc
    rw [freed, List.nil_append] at after
    refine ih after fun q hq => ?_
    obtain ⟨hcq, hnoneq⟩ := hps q (List.mem_cons_of_mem p hq)
    refine ⟨?_, by rw [children_decref, hnoneq]⟩
    have exact := hb.exact q hcq
    have mem : 0 < ps.count q := List.count_pos_iff.mpr hq
    have le : (ps ++ roots).count q ≤ h.references (ps ++ roots) q := Nat.le_add_right _ _
    rw [List.cons_append, references_cons] at exact
    rw [List.count_append] at le
    rw [count_decref]
    omega

theorem decref_comm (h : RefHeap α) (p q : α) :
    (h.decref p).decref q = (h.decref q).decref p := by
  by_cases hpq : p = q
  · rw [hpq]
  · have hqp : q ≠ p := Ne.symm hpq
    by_cases hp : h.count p = 0 <;> by_cases hq : h.count q = 0 <;>
      by_cases hp1 : h.count p = 1 <;> by_cases hq1 : h.count q = 1 <;>
      simp_all [RefHeap.decref, Function.update_comm hpq, Finset.erase_right_comm]

theorem decrefAll_decref (h : RefHeap α) (ps : List α) (p : α) :
    (h.decrefAll ps).decref p = (h.decref p).decrefAll ps := by
  induction ps generalizing h with
  | nil => rfl
  | cons q ps ih => rw [decrefAll_cons, decrefAll_cons, ih, decref_comm]

end RefHeap

end RocTui.Lib
