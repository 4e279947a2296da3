import Mathlib.Data.Finset.Basic

universe u

namespace RocTui.Lib

/-- The handles open while a function body runs. The `locals` are those that a variable of the
body closes when it goes out of scope. -/
structure Scope (H : Type u) where
  held : Finset H
  locals : Finset H
  locals_subset : locals ⊆ held

namespace Scope

variable {H : Type u} [DecidableEq H]

def enter (held : Finset H) : Scope H := ⟨held, ∅, Finset.empty_subset held⟩

variable (s : Scope H)

def raw (h : H) : Scope H where
  held := insert h s.held
  locals := s.locals
  locals_subset := s.locals_subset.trans (Finset.subset_insert h s.held)

def own (h : H) : Scope H where
  held := insert h s.held
  locals := insert h s.locals
  locals_subset := Finset.insert_subset_insert h s.locals_subset

def move (h : H) : Scope H where
  held := s.held
  locals := s.locals.erase h
  locals_subset := (Finset.erase_subset h s.locals).trans s.locals_subset

def leave : Finset H := s.held \ s.locals

@[simp] theorem leave_enter (held : Finset H) : (enter held).leave = held := Finset.sdiff_empty

variable {s} {h : H}

omit [DecidableEq H] in
theorem not_mem_locals (hfresh : h ∉ s.held) : h ∉ s.locals :=
  fun hmem => hfresh (s.locals_subset hmem)

theorem leave_raw (hfresh : h ∉ s.held) : (s.raw h).leave = insert h s.leave :=
  Finset.insert_sdiff_of_notMem s.held (not_mem_locals (s := s) hfresh)

theorem leave_own (hfresh : h ∉ s.held) : (s.own h).leave = s.leave := by
  rw [leave, own, Finset.insert_sdiff_of_mem _ (Finset.mem_insert_self h s.locals), leave]
  ext x
  simp only [Finset.mem_sdiff, Finset.mem_insert, not_or]
  constructor
  · rintro ⟨hheld, -, hlocal⟩
    exact ⟨hheld, hlocal⟩
  · rintro ⟨hheld, hlocal⟩
    exact ⟨hheld, ne_of_mem_of_not_mem hheld hfresh, hlocal⟩

theorem leave_move (hmem : h ∈ s.locals) : (s.move h).leave = insert h s.leave := by
  rw [leave, move, Finset.sdiff_erase (s.locals_subset hmem), leave]

/-- Opened and handed over, a handle is as open as one that nobody kept. -/
theorem leave_own_move (hfresh : h ∉ s.held) : ((s.own h).move h).leave = insert h s.leave := by
  rw [leave_move (Finset.mem_insert_self h s.locals), leave_own hfresh]

theorem locals_own_move (hfresh : h ∉ s.held) : ((s.own h).move h).locals = s.locals :=
  Finset.erase_insert (not_mem_locals hfresh)

end Scope

end RocTui.Lib
