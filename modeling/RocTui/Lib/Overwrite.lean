import Mathlib.Data.List.Basic

universe u v w

namespace RocTui.Lib

/-- Writing values over one item of a list. Which item depends on the kinds of the items only, an
item keeps its kind, and nothing is left of what was written before. -/
structure Overwrite (ι : Type u) (κ : Type v) (β : Type w) where
  kind : ι → κ
  Locates : List ι → Nat → Prop
  put : β → ι → Option ι
  locates_congr : ∀ {xs ys : List ι} {i : Nat}, xs.map kind = ys.map kind →
    Locates xs i → Locates ys i
  kind_put : ∀ {b : β} {x y : ι}, put b x = some y → kind y = kind x
  put_put : ∀ {b : β} {x y : ι} (b' : β), put b x = some y → put b' y = put b' x
  put_isSome : ∀ {b : β} {x y : ι} (b' : β), put b x = some y → (put b' x).isSome = true

namespace Overwrite

variable {ι : Type u} {κ : Type v} {β : Type w}

theorem getElem?_of_map_eq {f : ι → κ} {xs ys : List ι} {i : Nat} {x : ι}
    (h : xs.map f = ys.map f) (hx : xs[i]? = some x) : ∃ y, ys[i]? = some y ∧ f y = f x := by
  have hmap : (ys.map f)[i]? = some (f x) := by rw [← h, List.getElem?_map, hx, Option.map_some]
  rw [List.getElem?_map] at hmap
  exact Option.map_eq_some_iff.mp hmap

theorem mem_of_map_eq {f : ι → κ} {xs ys : List ι} {x : ι} (h : xs.map f = ys.map f)
    (hx : x ∈ xs) : ∃ y ∈ ys, f y = f x := by
  have hmap : f x ∈ ys.map f := h ▸ List.mem_map_of_mem hx
  exact List.mem_map.mp hmap

variable (O : Overwrite ι κ β)

structure Writes (b : β) (xs : List ι) (i : Nat) (x y : ι) : Prop where
  locates : O.Locates xs i
  item : xs[i]? = some x
  put : O.put b x = some y

variable {O} {b : β} {xs : List ι} {i : Nat} {x y : ι}

theorem Writes.map_kind (h : O.Writes b xs i x y) : (xs.set i y).map O.kind = xs.map O.kind := by
  obtain ⟨hi, hx⟩ := List.getElem?_eq_some_iff.mp h.item
  have hkind : O.kind y = (xs.map O.kind).get ⟨i, by simpa using hi⟩ := by
    rw [List.get_eq_getElem, List.getElem_map, hx, O.kind_put h.put]
  rw [List.map_set, hkind, List.get_eq_getElem, List.set_getElem_self]

/-- Written over once more, the list is as if it had been written over only then. -/
theorem Writes.again (h : O.Writes b xs i x y) (b' : β) :
    ∃ z, O.Writes b' (xs.set i y) i y z ∧ O.Writes b' xs i x z ∧
      (xs.set i y).set i z = xs.set i z := by
  obtain ⟨hi, -⟩ := List.getElem?_eq_some_iff.mp h.item
  obtain ⟨z, hz⟩ := Option.isSome_iff_exists.mp (O.put_isSome b' h.put)
  refine ⟨z, ⟨O.locates_congr h.map_kind.symm h.locates, ?_, ?_⟩, ⟨h.locates, h.item, hz⟩,
    List.set_set _⟩
  · rw [List.getElem?_set_self hi]
  · rw [O.put_put b' h.put, hz]

end Overwrite

end RocTui.Lib
