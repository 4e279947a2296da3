import Mathlib.Data.Finset.Basic

namespace RocTui.Lib.Blocks

abbrev Mem := Nat → UInt8

namespace Mem

def read (m : Mem) (p n : Nat) : List UInt8 := (List.range n).map fun i => m (p + i)

def write (m : Mem) (p : Nat) (bs : List UInt8) : Mem :=
  fun a => if p ≤ a then bs[a - p]?.getD (m a) else m a

variable {m m' : Mem} {p q n k : Nat} {bs : List UInt8}

@[simp] theorem length_read (m : Mem) (p n : Nat) : (m.read p n).length = n := by simp [read]

theorem getElem_read (m : Mem) (p n i : Nat) (h : i < (m.read p n).length) :
    (m.read p n)[i] = m (p + i) := by
  simp [read]

theorem read_congr (h : ∀ i < n, m' (q + i) = m (p + i)) : m'.read q n = m.read p n := by
  refine List.ext_getElem (by simp) fun i hi _ => ?_
  rw [getElem_read, getElem_read, h i (by simpa using hi)]

theorem read_append (m : Mem) (p n k : Nat) :
    m.read p (n + k) = m.read p n ++ m.read (p + n) k := by
  simp [read, List.range_add, Nat.add_assoc]

theorem take_read (m : Mem) (p : Nat) (h : k ≤ n) : (m.read p n).take k = m.read p k := by
  obtain ⟨d, rfl⟩ := Nat.exists_eq_add_of_le h
  rw [read_append, List.take_left' (length_read m p k)]

theorem drop_read (m : Mem) (p : Nat) (h : k ≤ n) :
    (m.read p n).drop k = m.read (p + k) (n - k) := by
  obtain ⟨d, rfl⟩ := Nat.exists_eq_add_of_le h
  rw [read_append, List.drop_left' (length_read m p k), Nat.add_sub_cancel_left]

theorem write_inside (i : Nat) (h : i < bs.length) : m.write p bs (p + i) = bs[i] := by
  simp [write, h]

theorem write_outside {a : Nat} (h : a < p ∨ p + bs.length ≤ a) : m.write p bs a = m a := by
  unfold write
  split
  · rw [List.getElem?_eq_none (by omega), Option.getD_none]
  · rfl

@[simp] theorem read_write (m : Mem) (p : Nat) (bs : List UInt8) :
    (m.write p bs).read p bs.length = bs := by
  refine List.ext_getElem (by simp) fun i hi hi' => ?_
  rw [getElem_read, write_inside i hi']

theorem read_write_of_apart (h : p + n ≤ q ∨ q + bs.length ≤ p) :
    (m.write q bs).read p n = m.read p n :=
  read_congr fun i hi => write_outside (by omega)

theorem read_write_within (m : Mem) (p : Nat) (h : k + bs.length ≤ n) :
    (m.write (p + k) bs).read p n =
      (m.read p n).take k ++ bs ++ (m.read p n).drop (k + bs.length) := by
  obtain ⟨d, rfl⟩ := Nat.exists_eq_add_of_le h
  rw [take_read m p (by omega), drop_read m p (by omega), Nat.add_sub_cancel_left, read_append,
    read_append, ← Nat.add_assoc, read_write, read_write_of_apart (by omega),
    read_write_of_apart (by omega)]

end Mem

structure Layout where
  size : Nat
  align : Nat
  deriving DecidableEq, Repr

/-- What a type for layouts would promise: `align` is a power of two, and `size` rounded up to
it stays within `most`. -/
def Layout.Valid (most : Nat) (l : Layout) : Prop :=
  l.align.isPowerOfTwo ∧ l.size + (l.align - 1) ≤ most

instance (most : Nat) (l : Layout) : Decidable (l.Valid most) := by
  unfold Layout.Valid
  infer_instance

structure Block where
  base : Nat
  layout : Layout
  deriving DecidableEq, Repr

namespace Block

def Apart (b c : Block) : Prop :=
  b.base + b.layout.size ≤ c.base ∨ c.base + c.layout.size ≤ b.base

instance (b c : Block) : Decidable (b.Apart c) := by
  unfold Apart
  infer_instance

def Covers (b : Block) (p n : Nat) : Prop := b.base ≤ p ∧ p + n ≤ b.base + b.layout.size

instance (b : Block) (p n : Nat) : Decidable (b.Covers p n) := by
  unfold Covers
  infer_instance

/-- Non-null, aligned, not empty, and short of `top`, the end of the address space. -/
def Placed (top : Nat) (b : Block) : Prop :=
  0 < b.base ∧ b.layout.align ∣ b.base ∧ 0 < b.layout.size ∧ b.base + b.layout.size < top

instance (top : Nat) (b : Block) : Decidable (b.Placed top) := by
  unfold Placed
  infer_instance

def Agree (b : Block) (m m' : Mem) : Prop :=
  ∀ a, b.base ≤ a → a < b.base + b.layout.size → m' a = m a

variable {b c : Block} {m m' m'' : Mem} {p n q k : Nat}

theorem Apart.symm (h : b.Apart c) : c.Apart b := Or.symm h

theorem Apart.ranges (h : b.Apart c) (hb : b.Covers p n) (hc : c.Covers q k) :
    p + n ≤ q ∨ q + k ≤ p := by
  unfold Apart at h
  unfold Covers at hb hc
  omega

theorem Agree.rfl : b.Agree m m := fun _ _ _ => Eq.refl _

theorem Agree.trans (h : b.Agree m m') (h' : b.Agree m' m'') : b.Agree m m'' :=
  fun a ha ha' => (h' a ha ha').trans (h a ha ha')

theorem Agree.read (h : b.Agree m m') (hc : b.Covers p n) : m'.read p n = m.read p n :=
  Mem.read_congr fun i hi => h _ (by unfold Covers at hc; omega) (by unfold Covers at hc; omega)

theorem Agree.write {bs : List UInt8} (h : b.Apart c) (hc : c.Covers q bs.length) :
    b.Agree m (m.write q bs) := by
  intro a ha ha'
  apply Mem.write_outside
  unfold Apart at h
  unfold Covers at hc
  omega

end Block

structure Heap where
  mem : Mem
  live : Finset Block

namespace Heap

structure WellFormed (top : Nat) (h : Heap) : Prop where
  placed : ∀ b ∈ h.live, b.Placed top
  apart : ∀ b ∈ h.live, ∀ c ∈ h.live, b ≠ c → b.Apart c

def Free (top : Nat) (h : Heap) (b : Block) : Prop :=
  b.Placed top ∧ ∀ c ∈ h.live, c.Apart b

def Owns (h : Heap) (p n : Nat) : Prop := ∃ b ∈ h.live, b.Covers p n

instance (h : Heap) (p n : Nat) : Decidable (h.Owns p n) := by
  unfold Owns
  infer_instance

def load (h : Heap) (p n : Nat) : Option (List UInt8) :=
  if h.Owns p n then some (h.mem.read p n) else none

def store (h : Heap) (p : Nat) (bs : List UInt8) : Option Heap :=
  if h.Owns p bs.length then some { h with mem := h.mem.write p bs } else none

variable {top : Nat} {h : Heap} {b c : Block} {m : Mem} {p n : Nat} {bs : List UInt8}

theorem load_of_covers (hb : b ∈ h.live) (hc : b.Covers p n) :
    h.load p n = some (h.mem.read p n) := if_pos ⟨b, hb, hc⟩

theorem store_of_covers (hb : b ∈ h.live) (hc : b.Covers p bs.length) :
    h.store p bs = some { h with mem := h.mem.write p bs } := if_pos ⟨b, hb, hc⟩

theorem Free.notMem (hf : h.Free top b) : b ∉ h.live := by
  intro hb
  have hapart := hf.2 b hb
  have hpos := hf.1.2.2.1
  unfold Block.Apart at hapart
  omega

theorem WellFormed.empty (top : Nat) (m : Mem) : WellFormed top ⟨m, ∅⟩ :=
  ⟨fun b hb => absurd hb (Finset.notMem_empty b), fun b hb => absurd hb (Finset.notMem_empty b)⟩

theorem WellFormed.insert (hw : h.WellFormed top) (hf : h.Free top b) (m : Mem) :
    WellFormed top ⟨m, insert b h.live⟩ where
  placed c hc := by
    rcases Finset.mem_insert.mp hc with rfl | hc
    · exact hf.1
    · exact hw.placed c hc
  apart c hc d hd hne := by
    rcases Finset.mem_insert.mp hc with heq | old <;>
      rcases Finset.mem_insert.mp hd with heq' | old'
    · exact absurd (heq.trans heq'.symm) hne
    · rw [heq]
      exact (hf.2 d old').symm
    · rw [heq']
      exact hf.2 c old
    · exact hw.apart c old d old' hne

theorem WellFormed.erase (hw : h.WellFormed top) (b : Block) (m : Mem) :
    WellFormed top ⟨m, h.live.erase b⟩ where
  placed c hc := hw.placed c (Finset.mem_of_mem_erase hc)
  apart c hc d hd := hw.apart c (Finset.mem_of_mem_erase hc) d (Finset.mem_of_mem_erase hd)

theorem WellFormed.withMem (hw : h.WellFormed top) (m : Mem) : WellFormed top ⟨m, h.live⟩ where
  placed := hw.placed
  apart := hw.apart

theorem WellFormed.agree_write (hw : h.WellFormed top) (hb : b ∈ h.live) (hc : c ∈ h.live)
    (hne : b ≠ c) (hcov : c.Covers p bs.length) : b.Agree h.mem (h.mem.write p bs) :=
  Block.Agree.write (hw.apart b hb c hc hne) hcov

end Heap

/-- An allocator of whole blocks and the contract its callers rely on.  It may refuse, and may
write to any byte that is not in a block still handed out. -/
structure System (top most : Nat) where
  place : Heap → Layout → Option (Nat × Mem)
  resize : Heap → Block → Nat → Option (Nat × Mem)
  release : Heap → Block → Mem
  place_spec : ∀ {h : Heap} {l : Layout} {p m}, h.WellFormed top → l.Valid most → 0 < l.size →
    place h l = some (p, m) → h.Free top ⟨p, l⟩ ∧ ∀ b ∈ h.live, b.Agree h.mem m
  resize_spec : ∀ {h : Heap} {b : Block} {n p m}, h.WellFormed top → b ∈ h.live → 0 < n →
    Layout.Valid most ⟨n, b.layout.align⟩ → resize h b n = some (p, m) →
      Heap.Free top ⟨h.mem, h.live.erase b⟩ ⟨p, n, b.layout.align⟩ ∧
      (∀ c ∈ h.live.erase b, c.Agree h.mem m) ∧
      ∀ i < min b.layout.size n, m (p + i) = h.mem (b.base + i)
  release_spec : ∀ {h : Heap} {b : Block}, h.WellFormed top → b ∈ h.live →
    ∀ c ∈ h.live.erase b, c.Agree h.mem (release h b)

end RocTui.Lib.Blocks
