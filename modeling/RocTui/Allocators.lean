import Mathlib.Algebra.Order.BigOperators.Group.Finset
import RocTui.Lib.Blocks
import RocTui.Lib.Run
import RocTui.Lib.Script
import RocTui.Lib.Words

namespace RocTui.Allocators

open RocTui.Lib RocTui.Lib.Blocks RocTui.Lib.Script RocTui.Lib.Words

inductive Stop
  | panic (message : String)
  | exit (code : Nat) (line : String)
  | undefined
  deriving DecidableEq, Repr

abbrev addressSpace : Nat := 2 ^ 64
abbrev isizeMax : Nat := 2 ^ 63 - 1

abbrev Global := System addressSpace isizeMax

def checkedAddUsize (left right : Nat) (context : String) : Except Stop Nat := do
  expect (left + right < addressSpace) (.panic context)
  pure (left + right)

def checkedMulUsize (left right : Nat) (context : String) : Except Stop Nat := do
  expect (left * right < addressSpace) (.panic context)
  pure (left * right)

def Layout.fromSizeAlignUnchecked (size align : Nat) : Except Stop Layout := do
  expect (Layout.Valid isizeMax ⟨size, align⟩) .undefined
  pure ⟨size, align⟩

def readUsize (h : Heap) (ptr : Nat) : Except Stop Nat := do
  expect (8 ∣ ptr) .undefined
  let bytes ← expectSome (h.load ptr 8) .undefined
  pure (ofLe bytes)

def writeBytes (h : Heap) (ptr : Nat) (bytes : List UInt8) : Except Stop Heap :=
  expectSome (h.store ptr bytes) .undefined

def writeUsize (h : Heap) (ptr word : Nat) : Except Stop Heap := do
  expect (8 ∣ ptr) .undefined
  writeBytes h ptr (leBytes 8 word)

/-- `std::alloc::alloc`: null when the allocator refuses. -/
def stdAlloc (sys : Global) (h : Heap) (layout : Layout) : Except Stop (Nat × Heap) := do
  expect (0 < layout.size) .undefined
  match sys.place h layout with
  | some (base, mem) => pure (base, ⟨mem, insert ⟨base, layout⟩ h.live⟩)
  | none => pure (0, h)

def stdDealloc (sys : Global) (h : Heap) (ptr : Nat) (layout : Layout) : Except Stop Heap := do
  expect (⟨ptr, layout⟩ ∈ h.live) .undefined
  pure ⟨sys.release h ⟨ptr, layout⟩, h.live.erase ⟨ptr, layout⟩⟩

def stdRealloc (sys : Global) (h : Heap) (ptr : Nat) (layout : Layout) (newSize : Nat) :
    Except Stop (Nat × Heap) := do
  expect (⟨ptr, layout⟩ ∈ h.live) .undefined
  expect (0 < newSize ∧ Layout.Valid isizeMax ⟨newSize, layout.align⟩) .undefined
  match sys.resize h ⟨ptr, layout⟩ newSize with
  | some (base, mem) =>
    pure (base, ⟨mem, insert ⟨base, newSize, layout.align⟩ (h.live.erase ⟨ptr, layout⟩)⟩)
  | none => pure (0, h)

def rocAlloc (sys : Global) (length alignment : Nat) (h : Heap) : Except Stop (Nat × Heap) := do
  let minAlignment := max alignment 8
  let sizeStorageBytes := minAlignment
  let totalSize ← checkedAddUsize length sizeStorageBytes "roc_alloc allocation size overflow"
  let layout ← Layout.fromSizeAlignUnchecked totalSize minAlignment
  let (basePtr, h) ← stdAlloc sys h layout
  expect (basePtr ≠ 0) (.exit 1 "roc_alloc: out of memory")
  let h ← writeUsize h (basePtr + sizeStorageBytes - 8) totalSize
  pure (basePtr + sizeStorageBytes, h)

def rocDealloc (sys : Global) (ptr alignment : Nat) (h : Heap) : Except Stop Heap := do
  let minAlignment := max alignment 8
  let sizeStorageBytes := minAlignment
  let totalSize ← readUsize h (ptr - 8)
  let layout ← Layout.fromSizeAlignUnchecked totalSize minAlignment
  stdDealloc sys h (ptr - sizeStorageBytes) layout

def rocRealloc (sys : Global) (ptr newLength alignment : Nat) (h : Heap) :
    Except Stop (Nat × Heap) := do
  let minAlignment := max alignment 8
  let sizeStorageBytes := minAlignment
  let oldTotalSize ← readUsize h (ptr - 8)
  let newTotalSize ← checkedAddUsize newLength sizeStorageBytes
    "roc_realloc allocation size overflow"
  let oldLayout ← Layout.fromSizeAlignUnchecked oldTotalSize minAlignment
  let (newBasePtr, h) ← stdRealloc sys h (ptr - sizeStorageBytes) oldLayout newTotalSize
  expect (newBasePtr ≠ 0) (.exit 1 "roc_realloc: out of memory")
  let newUserPtr := newBasePtr + sizeStorageBytes
  let h ← writeUsize h (newUserPtr - 8) newTotalSize
  pure (newUserPtr, h)

theorem checkedAddUsize_of_lt (h : left + right < addressSpace) (context : String) :
    checkedAddUsize left right context = .ok (left + right) := by
  rw [checkedAddUsize, expect_of h, ok_bind]
  rfl

theorem fromSizeAlignUnchecked_of_valid {size align : Nat}
    (h : Layout.Valid isizeMax ⟨size, align⟩) :
    Layout.fromSizeAlignUnchecked size align = .ok ⟨size, align⟩ := by
  rw [Layout.fromSizeAlignUnchecked, expect_of h, ok_bind]
  rfl

/-- What the callers of the allocator see of an allocation: the alignment they asked for and
its bytes. -/
structure Cell where
  align : Nat
  bytes : List UInt8
  deriving DecidableEq, Repr

def header (alignment : Nat) : Nat := max alignment 8

def userLayout (length alignment : Nat) : Layout := ⟨length + header alignment, header alignment⟩

def Representable (length alignment : Nat) : Prop :=
  alignment.isPowerOfTwo ∧ (userLayout length alignment).Valid isizeMax

instance (length alignment : Nat) : Decidable (Representable length alignment) := by
  unfold Representable
  infer_instance

def blockOf (ptr length alignment : Nat) : Block :=
  ⟨ptr - header alignment, userLayout length alignment⟩

def Cell.block (c : Cell) (ptr : Nat) : Block := blockOf ptr c.bytes.length c.align

theorem header_isPowerOfTwo (h : alignment.isPowerOfTwo) : (header alignment).isPowerOfTwo := by
  unfold header
  rcases Nat.le_total alignment 8 with hle | hle
  · rw [Nat.max_eq_right hle]
    exact ⟨3, rfl⟩
  · rwa [Nat.max_eq_left hle]

theorem pow_dvd_of_le {a b : Nat} (ha : a.isPowerOfTwo) (hb : b.isPowerOfTwo) (h : a ≤ b) :
    a ∣ b := by
  obtain ⟨i, rfl⟩ := ha
  obtain ⟨j, rfl⟩ := hb
  exact Nat.pow_dvd_pow 2 ((Nat.pow_le_pow_iff_right (by decide)).mp h)

theorem dvd_header (h : alignment.isPowerOfTwo) : alignment ∣ header alignment :=
  pow_dvd_of_le h (header_isPowerOfTwo h) (Nat.le_max_left _ _)

theorem eight_dvd_header (h : alignment.isPowerOfTwo) : 8 ∣ header alignment :=
  pow_dvd_of_le ⟨3, rfl⟩ (header_isPowerOfTwo h) (Nat.le_max_right _ _)

theorem eight_le_header (alignment : Nat) : 8 ≤ header alignment := Nat.le_max_right _ _

/-- The heap has the allocation at `ptr`: a block of its own, the size in front of the bytes,
and the bytes. -/
structure Holds (h : Heap) (ptr : Nat) (c : Cell) : Prop where
  representable : Representable c.bytes.length c.align
  live : c.block ptr ∈ h.live
  past : header c.align < ptr
  size : h.mem.read (ptr - 8) 8 = leBytes 8 (c.bytes.length + header c.align)
  bytes : h.mem.read ptr c.bytes.length = c.bytes

namespace Holds

variable {h h' : Heap} {ptr : Nat} {c : Cell}

theorem covers_size (hh : Holds h ptr c) : (c.block ptr).Covers (ptr - 8) 8 := by
  have past := hh.past
  have le := eight_le_header c.align
  simp only [Block.Covers, Cell.block, blockOf, userLayout]
  omega

theorem covers_bytes (hh : Holds h ptr c) (hle : off + n ≤ c.bytes.length) :
    (c.block ptr).Covers (ptr + off) n := by
  have past := hh.past
  simp only [Block.Covers, Cell.block, blockOf, userLayout]
  omega

theorem frame (hh : Holds h ptr c) (live : c.block ptr ∈ h'.live)
    (agree : (c.block ptr).Agree h.mem h'.mem) : Holds h' ptr c where
  representable := hh.representable
  live := live
  past := hh.past
  size := by rw [agree.read hh.covers_size, hh.size]
  bytes := by
    have cover := hh.covers_bytes (Nat.zero_add c.bytes.length).le
    rw [Nat.add_zero] at cover
    rw [agree.read cover, hh.bytes]

theorem header_dvd (hh : Holds h ptr c) (hw : h.WellFormed addressSpace) :
    header c.align ∣ ptr := by
  have base : header c.align ∣ ptr - header c.align := (hw.placed _ hh.live).2.1
  have sum := Nat.dvd_add base (Nat.dvd_refl (header c.align))
  rwa [Nat.sub_add_cancel (Nat.le_of_lt hh.past)] at sum

theorem align_dvd (hh : Holds h ptr c) (hw : h.WellFormed addressSpace) : c.align ∣ ptr :=
  Nat.dvd_trans (dvd_header hh.representable.1) (hh.header_dvd hw)

theorem eight_dvd (hh : Holds h ptr c) (hw : h.WellFormed addressSpace) : 8 ∣ ptr :=
  Nat.dvd_trans (eight_dvd_header hh.representable.1) (hh.header_dvd hw)

theorem end_lt (hh : Holds h ptr c) (hw : h.WellFormed addressSpace) :
    ptr + c.bytes.length < addressSpace := by
  have past := hh.past
  have fits := (hw.placed _ hh.live).2.2.2
  simp only [Cell.block, blockOf, userLayout] at fits
  omega

theorem readUsize_eq (hh : Holds h ptr c) (hw : h.WellFormed addressSpace) :
    readUsize h (ptr - 8) = .ok (c.bytes.length + header c.align) := by
  have dvd : 8 ∣ ptr - 8 := Nat.dvd_sub (hh.eight_dvd hw) (Nat.dvd_refl 8)
  have small : c.bytes.length + header c.align < 256 ^ 8 := by
    have fits := hh.representable.2.2
    simp only [userLayout, isizeMax] at fits
    omega
  rw [readUsize, expect_of dvd, ok_bind, Heap.load_of_covers hh.live hh.covers_size, hh.size]
  exact congrArg Except.ok (ofLe_leBytes_of_lt small)

end Holds

theorem stdAlloc_spec (sys : Global) {h : Heap} {layout : Layout} (hw : h.WellFormed addressSpace)
    (hv : layout.Valid isizeMax) (hpos : 0 < layout.size) :
    (sys.place h layout = none ∧ stdAlloc sys h layout = .ok (0, h)) ∨
    ∃ base mem, stdAlloc sys h layout = .ok (base, ⟨mem, insert ⟨base, layout⟩ h.live⟩) ∧
      h.Free addressSpace ⟨base, layout⟩ ∧ ∀ b ∈ h.live, b.Agree h.mem mem := by
  cases hplace : sys.place h layout with
  | none =>
    refine .inl ⟨rfl, ?_⟩
    rw [stdAlloc, expect_of hpos, ok_bind, hplace]
    rfl
  | some placed =>
    obtain ⟨base, mem⟩ := placed
    obtain ⟨hfree, hagree⟩ := sys.place_spec hw hv hpos hplace
    refine .inr ⟨base, mem, ?_, hfree, hagree⟩
    rw [stdAlloc, expect_of hpos, ok_bind, hplace]
    rfl

theorem Representable.lt (h : Representable length alignment) :
    length + header alignment < addressSpace := by
  have fits := h.2.2
  have space : isizeMax < addressSpace := by decide
  simp only [userLayout] at fits
  omega

theorem Representable.size_pos (length alignment : Nat) :
    0 < (userLayout length alignment).size := by
  have le := eight_le_header alignment
  simp only [userLayout]
  omega

structure Grown (h h' : Heap) (ptr : Nat) (c : Cell) : Prop where
  free : h.Free addressSpace (c.block ptr)
  live : h'.live = insert (c.block ptr) h.live
  holds : Holds h' ptr c
  agree : ∀ b ∈ h.live, b.Agree h.mem h'.mem

theorem writeUsize_fresh {h : Heap} {mem : Mem} {base length alignment : Nat}
    (hrep : Representable length alignment)
    (hfree : h.Free addressSpace ⟨base, userLayout length alignment⟩)
    (hagree : ∀ b ∈ h.live, b.Agree h.mem mem) :
    ∃ h', writeUsize ⟨mem, insert ⟨base, userLayout length alignment⟩ h.live⟩
        (base + header alignment - 8) (length + header alignment) = .ok h' ∧
      h'.mem.read (base + header alignment) length = mem.read (base + header alignment) length ∧
      Grown h h' (base + header alignment)
        ⟨alignment, h'.mem.read (base + header alignment) length⟩ := by
  have le := eight_le_header alignment
  have dvd : 8 ∣ base + header alignment - 8 := by
    have dvd_base : header alignment ∣ base := hfree.1.2.1
    have dvd_eight := eight_dvd_header hrep.1
    exact Nat.dvd_sub (Nat.dvd_add (Nat.dvd_trans dvd_eight dvd_base) dvd_eight) (Nat.dvd_refl 8)
  have cover : (⟨base, userLayout length alignment⟩ : Block).Covers (base + header alignment - 8)
      (leBytes 8 (length + header alignment)).length := by
    simp only [Block.Covers, userLayout, length_leBytes]
    omega
  let mem' := mem.write (base + header alignment - 8) (leBytes 8 (length + header alignment))
  have unread : mem'.read (base + header alignment) length =
      mem.read (base + header alignment) length :=
    Mem.read_write_of_apart (by rw [length_leBytes]; omega)
  have size : mem'.read (base + header alignment - 8) 8 =
      leBytes 8 (length + header alignment) := by
    have same := Mem.read_write mem (base + header alignment - 8)
      (leBytes 8 (length + header alignment))
    rwa [length_leBytes] at same
  have block_eq : Cell.block ⟨alignment, mem'.read (base + header alignment) length⟩
      (base + header alignment) = ⟨base, userLayout length alignment⟩ := by
    rw [Cell.block, blockOf, Mem.length_read, Nat.add_sub_cancel]
  refine ⟨⟨mem', insert ⟨base, userLayout length alignment⟩ h.live⟩, ?_, unread, ?_⟩
  · rw [writeUsize, expect_of dvd, ok_bind, writeBytes,
      Heap.store_of_covers (Finset.mem_insert_self _ _) cover]
    rfl
  · refine ⟨?_, ?_, ⟨?_, ?_, ?_, ?_, ?_⟩, ?_⟩
    · rw [block_eq]
      exact hfree
    · rw [block_eq]
    · rwa [Mem.length_read]
    · rw [block_eq]
      exact Finset.mem_insert_self _ _
    · have pos : 0 < base := hfree.1.1
      exact Nat.lt_add_of_pos_left pos
    · rw [Mem.length_read]
      exact size
    · rw [Mem.length_read]
    · exact fun b hb => (hagree b hb).trans (Block.Agree.write (hfree.2 b hb) cover)

/-- The system allocator turns the request down. -/
def Refuses (sys : Global) (h : Heap) (length alignment : Nat) : Prop :=
  sys.place h (userLayout length alignment) = none

theorem rocAlloc_spec (sys : Global) {h : Heap} (hw : h.WellFormed addressSpace)
    (hrep : Representable length alignment) :
    (Refuses sys h length alignment ∧
      rocAlloc sys length alignment h = .error (.exit 1 "roc_alloc: out of memory")) ∨
    ∃ ptr h', rocAlloc sys length alignment h = .ok (ptr, h') ∧
      Grown h h' ptr ⟨alignment, h'.mem.read ptr length⟩ := by
  have layout : Layout.fromSizeAlignUnchecked (length + max alignment 8) (max alignment 8) =
      .ok (userLayout length alignment) := fromSizeAlignUnchecked_of_valid hrep.2
  have total := checkedAddUsize_of_lt hrep.lt "roc_alloc allocation size overflow"
  rw [header] at total
  rcases stdAlloc_spec sys hw hrep.2 (Representable.size_pos length alignment) with
    ⟨hplace, hnull⟩ | ⟨base, mem, hok, hfree, hagree⟩
  · refine .inl ⟨hplace, ?_⟩
    rw [rocAlloc, total, ok_bind, layout, ok_bind, hnull, ok_bind]
    rfl
  · right
    obtain ⟨h', hwrite, -, hgrown⟩ := writeUsize_fresh hrep hfree hagree
    have pos : base ≠ 0 := Nat.ne_of_gt hfree.1.1
    refine ⟨base + header alignment, h', ?_, hgrown⟩
    rw [rocAlloc, total, ok_bind, layout, ok_bind, hok, ok_bind]
    simp only [expect_of pos]
    rw [ok_bind, ← header, hwrite, ok_bind]
    rfl

theorem rocDealloc_spec (sys : Global) {h : Heap} (hw : h.WellFormed addressSpace)
    (hh : Holds h ptr c) :
    ∃ mem, rocDealloc sys ptr c.align h = .ok ⟨mem, h.live.erase (c.block ptr)⟩ ∧
      ∀ b ∈ h.live.erase (c.block ptr), b.Agree h.mem mem := by
  have layout : Layout.fromSizeAlignUnchecked (c.bytes.length + header c.align)
      (max c.align 8) = .ok (userLayout c.bytes.length c.align) :=
    fromSizeAlignUnchecked_of_valid hh.representable.2
  have live : (⟨ptr - max c.align 8, userLayout c.bytes.length c.align⟩ : Block) ∈ h.live :=
    hh.live
  refine ⟨sys.release h (c.block ptr), ?_, sys.release_spec hw hh.live⟩
  rw [rocDealloc, hh.readUsize_eq hw, ok_bind, layout, ok_bind, stdDealloc, expect_of live, ok_bind]
  rfl

theorem stdRealloc_spec (sys : Global) {h : Heap} {layout : Layout}
    (hw : h.WellFormed addressSpace) (live : ⟨base, layout⟩ ∈ h.live)
    (fits : 0 < newSize ∧ Layout.Valid isizeMax ⟨newSize, layout.align⟩) :
    (sys.resize h ⟨base, layout⟩ newSize = none ∧
      stdRealloc sys h base layout newSize = .ok (0, h)) ∨
    ∃ base' mem, stdRealloc sys h base layout newSize = .ok (base',
        ⟨mem, insert ⟨base', newSize, layout.align⟩ (h.live.erase ⟨base, layout⟩)⟩) ∧
      Heap.Free addressSpace ⟨h.mem, h.live.erase ⟨base, layout⟩⟩
        ⟨base', newSize, layout.align⟩ ∧
      (∀ b ∈ h.live.erase ⟨base, layout⟩, b.Agree h.mem mem) ∧
      ∀ i < min layout.size newSize, mem (base' + i) = h.mem (base + i) := by
  cases hresize : sys.resize h ⟨base, layout⟩ newSize with
  | none =>
    refine .inl ⟨rfl, ?_⟩
    rw [stdRealloc, expect_of live, ok_bind, expect_of fits, ok_bind, hresize]
    rfl
  | some placed =>
    obtain ⟨base', mem⟩ := placed
    refine .inr ⟨base', mem, ?_, sys.resize_spec hw live fits.1 fits.2 hresize⟩
    rw [stdRealloc, expect_of live, ok_bind, expect_of fits, ok_bind, hresize]
    rfl

structure Moved (h h' : Heap) (ptr : Nat) (c : Cell) (ptr' newLength : Nat) : Prop where
  grown : Grown ⟨h.mem, h.live.erase (c.block ptr)⟩ h' ptr'
    ⟨c.align, h'.mem.read ptr' newLength⟩
  kept : (h'.mem.read ptr' newLength).take c.bytes.length = c.bytes.take newLength

theorem kept_bytes {mem mem' : Mem} {base base' header length newLength : Nat}
    (hkept : ∀ i < min (length + header) (newLength + header), mem' (base' + i) = mem (base + i)) :
    (mem'.read (base' + header) newLength).take length =
      (mem.read (base + header) length).take newLength := by
  have read_eq (n : Nat) (hn : n ≤ min length newLength) :
      mem'.read (base' + header) n = mem.read (base + header) n := by
    refine Mem.read_congr fun i hi => ?_
    have byte := hkept (header + i) (by omega)
    rwa [← Nat.add_assoc, ← Nat.add_assoc] at byte
  rcases Nat.le_total length newLength with hle | hle
  · rw [Mem.take_read _ _ hle, read_eq length (by omega),
      List.take_of_length_le (by rw [Mem.length_read]; exact hle)]
  · rw [Mem.take_read _ _ hle, ← read_eq newLength (by omega),
      List.take_of_length_le (by rw [Mem.length_read]; exact hle)]

theorem rocRealloc_spec (sys : Global) {h : Heap} (hw : h.WellFormed addressSpace)
    (hh : Holds h ptr c) (hrep : Representable newLength c.align) :
    (sys.resize h (c.block ptr) (newLength + header c.align) = none ∧
      rocRealloc sys ptr newLength c.align h =
        .error (.exit 1 "roc_realloc: out of memory")) ∨
    ∃ ptr' h', rocRealloc sys ptr newLength c.align h = .ok (ptr', h') ∧
      Moved h h' ptr c ptr' newLength := by
  have layout : Layout.fromSizeAlignUnchecked (c.bytes.length + header c.align)
      (max c.align 8) = .ok (userLayout c.bytes.length c.align) :=
    fromSizeAlignUnchecked_of_valid hh.representable.2
  have total := checkedAddUsize_of_lt hrep.lt "roc_realloc allocation size overflow"
  rw [header] at total
  have fits : 0 < newLength + max c.align 8 ∧ Layout.Valid isizeMax
      ⟨newLength + max c.align 8, (userLayout c.bytes.length c.align).align⟩ :=
    ⟨Representable.size_pos newLength c.align, hrep.2⟩
  rcases stdRealloc_spec sys hw hh.live fits with
    ⟨hresize, hnull⟩ | ⟨base, mem, hok, hfree, hagree, hkept⟩
  · refine .inl ⟨hresize, ?_⟩
    rw [header] at hnull
    rw [rocRealloc, hh.readUsize_eq hw, ok_bind, total, ok_bind, layout, ok_bind, hnull, ok_bind]
    rfl
  · right
    obtain ⟨h', hwrite, hread, hgrown⟩ := writeUsize_fresh hrep hfree hagree
    have pos : base ≠ 0 := Nat.ne_of_gt hfree.1.1
    refine ⟨base + header c.align, h', ?_, hgrown, ?_⟩
    · rw [header] at hok
      rw [rocRealloc, hh.readUsize_eq hw, ok_bind, total, ok_bind, layout, ok_bind, hok, ok_bind]
      simp only [expect_of pos]
      rw [ok_bind, ← header]
      exact congrArg (· >>= fun h => pure (base + header c.align, h)) hwrite
    · have bytes := kept_bytes hkept
      rw [Nat.sub_add_cancel (Nat.le_of_lt hh.past), hh.bytes] at bytes
      rw [hread, bytes]

abbrev Store := Nat → Option Cell

structure State where
  heap : Heap
  store : Store
  others : Finset Block

inductive Call
  | alloc (length alignment : Nat)
  | dealloc (ptr alignment : Nat)
  | realloc (ptr newLength alignment : Nat)
  deriving DecidableEq, Repr

def Call.perform (sys : Global) (h : Heap) : Call → Except Stop (Nat × Heap)
  | .alloc length alignment => rocAlloc sys length alignment h
  | .dealloc ptr alignment => do
    let h ← rocDealloc sys ptr alignment h
    pure (0, h)
  | .realloc ptr newLength alignment => rocRealloc sys ptr newLength alignment h

/-- A pointer comes back with the alignment it was asked for with, and requests stay within
what a layout can say. -/
def Call.Permitted (s : Store) : Call → Prop
  | .alloc length alignment => Representable length alignment
  | .dealloc ptr alignment => ∃ c, s ptr = some c ∧ c.align = alignment
  | .realloc ptr newLength alignment =>
    (∃ c, s ptr = some c ∧ c.align = alignment) ∧ Representable newLength alignment

/-- The allocations after a call that returned `ptr'`.  Only bytes nobody wrote are looked up in
memory. -/
def Call.book (mem : Mem) (ptr' : Nat) (s : Store) : Call → Store
  | .alloc length alignment => Function.update s ptr' (some ⟨alignment, mem.read ptr' length⟩)
  | .dealloc ptr _ => Function.update s ptr none
  | .realloc ptr newLength alignment =>
    let old := (s ptr).elim [] Cell.bytes
    Function.update (Function.update s ptr none) ptr'
      (some ⟨alignment, old.take newLength ++ (mem.read ptr' newLength).drop old.length⟩)

def Call.Refused (sys : Global) (h : Heap) (s : Store) : Call → Prop
  | .alloc length alignment => Refuses sys h length alignment
  | .dealloc _ _ => False
  | .realloc ptr newLength alignment =>
    ∃ c, s ptr = some c ∧ sys.resize h (c.block ptr) (newLength + header alignment) = none

def Cell.overwrite (c : Cell) (off : Nat) (bytes : List UInt8) : Cell :=
  { c with bytes := c.bytes.take off ++ bytes ++ c.bytes.drop (off + bytes.length) }

inductive Step (sys : Global) : State → List Call → State → Prop
  | call (hp : call.Permitted st.store) (hcall : call.perform sys st.heap = .ok (ptr, h)) :
    Step sys st [call] ⟨h, call.book h.mem ptr st.store, st.others⟩
  | write (hptr : st.store ptr = some c) (hlen : off + bytes.length ≤ c.bytes.length)
    (hwrite : writeBytes st.heap (ptr + off) bytes = .ok h) :
    Step sys st [] ⟨h, Function.update st.store ptr (some (c.overwrite off bytes)), st.others⟩
  | other (hw : h.WellFormed addressSpace) (live : h.live = st.heap.live \ st.others ∪ others)
    (apart : Disjoint (st.heap.live \ st.others) others)
    (agree : ∀ b ∈ st.heap.live \ st.others, b.Agree st.heap.mem h.mem) :
    Step sys st [] ⟨h, st.store, others⟩

/-- The heap holds exactly the allocations of the store, beside the blocks of the others. -/
structure Refines (st : State) : Prop where
  wellFormed : st.heap.WellFormed addressSpace
  holds : ∀ ptr c, st.store ptr = some c → Holds st.heap ptr c
  others : st.others ⊆ st.heap.live
  own : ∀ ptr c, st.store ptr = some c → c.block ptr ∉ st.others
  known : ∀ b ∈ st.heap.live, b ∉ st.others → ∃ ptr c, st.store ptr = some c ∧ b = c.block ptr

theorem Holds.block_inj {h : Heap} (hh : Holds h p c) (hh' : Holds h' q d)
    (heq : c.block p = d.block q) : p = q := by
  have past := hh.past
  have past' := hh'.past
  simp only [Cell.block, blockOf, userLayout, Block.mk.injEq, Layout.mk.injEq] at heq
  omega

theorem Holds.not_free {h : Heap} {d : Cell} (hh : Holds h ptr c) (past : header d.align < ptr)
    (hf : h.Free addressSpace (d.block ptr)) : False := by
  have past' := hh.past
  have le := eight_le_header c.align
  have le' := eight_le_header d.align
  have apart := hf.2 _ hh.live
  simp only [Block.Apart, Cell.block, blockOf, userLayout] at apart
  omega

namespace Refines

variable {h h' : Heap} {s : Store} {others : Finset Block} {ptr : Nat} {c : Cell}

theorem mem_erase (hr : Refines ⟨h, s, others⟩) (hp : s ptr = some c) (hq : s q = some d)
    (hne : q ≠ ptr) : d.block q ∈ h.live.erase (c.block ptr) := by
  have held := hr.holds q d hq
  exact Finset.mem_erase.mpr ⟨fun heq => hne (held.block_inj (hr.holds ptr c hp) heq), held.live⟩

theorem remove {mem : Mem} (hr : Refines ⟨h, s, others⟩) (hp : s ptr = some c)
    (agree : ∀ b ∈ h.live.erase (c.block ptr), b.Agree h.mem mem) :
    Refines ⟨⟨mem, h.live.erase (c.block ptr)⟩, Function.update s ptr none, others⟩ where
  wellFormed := hr.wellFormed.erase _ _
  holds q d hq := by
    obtain ⟨hne, hq⟩ : q ≠ ptr ∧ s q = some d := by
      by_cases hqp : q = ptr
      · simp [hqp] at hq
      · exact ⟨hqp, by simpa [hqp] using hq⟩
    have kept := hr.mem_erase hp hq hne
    exact (hr.holds q d hq).frame kept (agree _ kept)
  others b hb := by
    refine Finset.mem_erase.mpr ⟨?_, hr.others hb⟩
    rintro rfl
    exact hr.own ptr c hp hb
  own q d hq := by
    by_cases hqp : q = ptr
    · simp [hqp] at hq
    · exact hr.own q d (by simpa [hqp] using hq)
  known b hb hno := by
    obtain ⟨hne, hb⟩ := Finset.mem_erase.mp hb
    obtain ⟨q, d, hq, rfl⟩ := hr.known b hb hno
    refine ⟨q, d, ?_, rfl⟩
    have hqp : q ≠ ptr := by
      rintro rfl
      have hq' : s q = some d := hq
      rw [hp] at hq'
      exact hne (by rw [Option.some.inj hq'])
    simpa [hqp] using hq

theorem add (hr : Refines ⟨h, s, others⟩) (hg : Grown h h' ptr c) :
    Refines ⟨h', Function.update s ptr (some c), others⟩ where
  wellFormed := by
    have wf := hr.wellFormed.insert hg.free h'.mem
    rwa [← hg.live] at wf
  holds q d hq := by
    by_cases hqp : q = ptr
    · subst hqp
      obtain rfl : c = d := by simpa using hq
      exact hg.holds
    · have held := hr.holds q d (by simpa [hqp] using hq)
      refine held.frame ?_ (hg.agree _ held.live)
      rw [hg.live]
      exact Finset.mem_insert_of_mem held.live
  others b hb := by
    change b ∈ h'.live
    rw [hg.live]
    exact Finset.mem_insert_of_mem (hr.others hb)
  own q d hq := by
    by_cases hqp : q = ptr
    · subst hqp
      obtain rfl : c = d := by simpa using hq
      exact fun hb => hg.free.notMem (hr.others hb)
    · exact hr.own q d (by simpa [hqp] using hq)
  known b hb hno := by
    change b ∈ h'.live at hb
    rw [hg.live] at hb
    rcases Finset.mem_insert.mp hb with rfl | hb
    · exact ⟨ptr, c, by simp, rfl⟩
    · obtain ⟨q, d, hq, rfl⟩ := hr.known b hb hno
      have hqp : q ≠ ptr := by
        rintro rfl
        exact (hr.holds q d hq).not_free hg.holds.past hg.free
      exact ⟨q, d, by simpa [hqp] using hq, rfl⟩

theorem write {bytes : List UInt8} (hr : Refines ⟨h, s, others⟩) (hp : s ptr = some c)
    (hlen : off + bytes.length ≤ c.bytes.length) :
    Refines ⟨⟨h.mem.write (ptr + off) bytes, h.live⟩,
      Function.update s ptr (some (c.overwrite off bytes)), others⟩ := by
  have held := hr.holds ptr c hp
  have cover := held.covers_bytes hlen
  have length_eq : (c.overwrite off bytes).bytes.length = c.bytes.length := by
    simp only [Cell.overwrite, List.length_append, List.length_take, List.length_drop]
    omega
  have block_eq : (c.overwrite off bytes).block ptr = c.block ptr := by
    rw [Cell.block, length_eq]
    rfl
  have holds : ∀ q d, Function.update s ptr (some (c.overwrite off bytes)) q = some d →
      Holds ⟨h.mem.write (ptr + off) bytes, h.live⟩ q d := by
    intro q d hq
    by_cases hqp : q = ptr
    · subst hqp
      obtain rfl : c.overwrite off bytes = d := by simpa using hq
      refine ⟨?_, ?_, held.past, ?_, ?_⟩
      · rw [length_eq]
        exact held.representable
      · rw [block_eq]
        exact held.live
      · have past := held.past
        have le := eight_le_header c.align
        rw [length_eq, Mem.read_write_of_apart (by omega)]
        exact held.size
      · rw [length_eq, Mem.read_write_within _ _ hlen, held.bytes]
        rfl
    · have held' := hr.holds q d (by simpa [hqp] using hq)
      have hne : d.block q ≠ c.block ptr := fun heq => hqp (held'.block_inj held heq)
      exact held'.frame held'.live (hr.wellFormed.agree_write held'.live held.live hne cover)
  refine ⟨hr.wellFormed.withMem _, holds, hr.others, ?_, ?_⟩
  · intro q d hq
    by_cases hqp : q = ptr
    · subst hqp
      obtain rfl : c.overwrite off bytes = d := by simpa using hq
      rw [block_eq]
      exact hr.own q c hp
    · exact hr.own q d (by simpa [hqp] using hq)
  · intro b hb hno
    obtain ⟨q, d, hq, rfl⟩ := hr.known b hb hno
    by_cases hqp : q = ptr
    · subst hqp
      have hq' : s q = some d := hq
      obtain rfl : c = d := by simpa [hp] using hq'
      exact ⟨q, c.overwrite off bytes, by simp, block_eq.symm⟩
    · exact ⟨q, d, by simpa [hqp] using hq, rfl⟩

theorem other {others' : Finset Block} (hr : Refines ⟨h, s, others⟩)
    (hw : h'.WellFormed addressSpace) (live : h'.live = h.live \ others ∪ others')
    (apart : Disjoint (h.live \ others) others')
    (agree : ∀ b ∈ h.live \ others, b.Agree h.mem h'.mem) : Refines ⟨h', s, others'⟩ := by
  have ours : ∀ q d, s q = some d → d.block q ∈ h.live \ others := fun q d hq =>
    Finset.mem_sdiff.mpr ⟨(hr.holds q d hq).live, hr.own q d hq⟩
  refine ⟨hw, fun q d hq => ?_, fun b hb => ?_, fun q d hq => ?_, fun b hb hno => ?_⟩
  · refine (hr.holds q d hq).frame ?_ (agree _ (ours q d hq))
    change d.block q ∈ h'.live
    rw [live]
    exact Finset.mem_union_left _ (ours q d hq)
  · change b ∈ h'.live
    rw [live]
    exact Finset.mem_union_right _ hb
  · exact Finset.disjoint_left.mp apart (ours q d hq)
  · change b ∈ h'.live at hb
    rw [live] at hb
    rcases Finset.mem_union.mp hb with hb | hb
    · obtain ⟨hb, hnot⟩ := Finset.mem_sdiff.mp hb
      exact hr.known b hb hnot
    · exact absurd hb hno

end Refines

theorem perform_alloc (sys : Global) {st : State} (hr : Refines st)
    (hp : (Call.alloc length alignment).Permitted st.store) :
    ((Call.alloc length alignment).Refused sys st.heap st.store ∧
      ∃ line, (Call.alloc length alignment).perform sys st.heap = .error (.exit 1 line)) ∨
    ∃ ptr h, (Call.alloc length alignment).perform sys st.heap = .ok (ptr, h) ∧
      Refines ⟨h, (Call.alloc length alignment).book h.mem ptr st.store, st.others⟩ ∧
      ∀ b ∈ st.others, b ∈ h.live ∧ b.Agree st.heap.mem h.mem := by
  rcases rocAlloc_spec sys hr.wellFormed hp with ⟨hrefused, hexit⟩ | ⟨ptr, h, hok, hgrown⟩
  · exact .inl ⟨hrefused, _, hexit⟩
  · refine .inr ⟨ptr, h, hok, Refines.add hr hgrown, fun b hb => ?_⟩
    have hlive := hr.others hb
    refine ⟨?_, hgrown.agree b hlive⟩
    rw [hgrown.live]
    exact Finset.mem_insert_of_mem hlive

theorem perform_dealloc (sys : Global) {st : State} (hr : Refines st)
    (hp : (Call.dealloc ptr alignment).Permitted st.store) :
    ∃ h, (Call.dealloc ptr alignment).perform sys st.heap = .ok (0, h) ∧
      Refines ⟨h, (Call.dealloc ptr alignment).book h.mem 0 st.store, st.others⟩ ∧
      ∀ b ∈ st.others, b ∈ h.live ∧ b.Agree st.heap.mem h.mem := by
  obtain ⟨c, hc, rfl⟩ := hp
  obtain ⟨mem, hok, hagree⟩ := rocDealloc_spec sys hr.wellFormed (hr.holds ptr c hc)
  refine ⟨_, by rw [Call.perform, hok, ok_bind]; rfl, Refines.remove hr hc hagree,
    fun b hb => ?_⟩
  have hlive : b ∈ st.heap.live.erase (c.block ptr) := by
    refine Finset.mem_erase.mpr ⟨?_, hr.others hb⟩
    rintro rfl
    exact hr.own ptr c hc hb
  exact ⟨hlive, hagree b hlive⟩

theorem perform_realloc (sys : Global) {st : State} (hr : Refines st)
    (hp : (Call.realloc ptr newLength alignment).Permitted st.store) :
    ((Call.realloc ptr newLength alignment).Refused sys st.heap st.store ∧ ∃ line,
      (Call.realloc ptr newLength alignment).perform sys st.heap = .error (.exit 1 line)) ∨
    ∃ ptr' h, (Call.realloc ptr newLength alignment).perform sys st.heap = .ok (ptr', h) ∧
      Refines ⟨h, (Call.realloc ptr newLength alignment).book h.mem ptr' st.store, st.others⟩ ∧
      ∀ b ∈ st.others, b ∈ h.live ∧ b.Agree st.heap.mem h.mem := by
  obtain ⟨⟨c, hc, rfl⟩, hrep⟩ := hp
  rcases rocRealloc_spec sys hr.wellFormed (hr.holds ptr c hc) hrep with
    ⟨hrefused, hexit⟩ | ⟨ptr', h, hok, hmoved⟩
  · exact .inl ⟨⟨c, hc, hrefused⟩, _, hexit⟩
  · have removed : Refines ⟨⟨st.heap.mem, st.heap.live.erase (c.block ptr)⟩,
        Function.update st.store ptr none, st.others⟩ :=
      Refines.remove hr hc fun _ _ => Block.Agree.rfl
    have moved := removed.add hmoved.grown
    have bytes : c.bytes.take newLength ++ (h.mem.read ptr' newLength).drop c.bytes.length =
        h.mem.read ptr' newLength := by
      rw [← hmoved.kept, List.take_append_drop]
    refine .inr ⟨ptr', h, hok, ?_, fun b hb => ?_⟩
    · simp only [Call.book, hc, Option.elim_some, bytes]
      exact moved
    · have hlive := removed.others hb
      refine ⟨?_, hmoved.grown.agree b hlive⟩
      rw [hmoved.grown.live]
      exact Finset.mem_insert_of_mem hlive

theorem perform_spec (sys : Global) {st : State} (hr : Refines st) {call : Call}
    (hp : call.Permitted st.store) :
    (call.Refused sys st.heap st.store ∧
      ∃ line, call.perform sys st.heap = .error (.exit 1 line)) ∨
    ∃ ptr h, call.perform sys st.heap = .ok (ptr, h) ∧
      Refines ⟨h, call.book h.mem ptr st.store, st.others⟩ ∧
      ∀ b ∈ st.others, b ∈ h.live ∧ b.Agree st.heap.mem h.mem := by
  cases call with
  | alloc length alignment => exact perform_alloc sys hr hp
  | dealloc ptr alignment =>
    obtain ⟨h, done⟩ := perform_dealloc sys hr hp
    exact .inr ⟨0, h, done⟩
  | realloc ptr newLength alignment => exact perform_realloc sys hr hp

theorem writeBytes_spec {st : State} (hr : Refines st) (hptr : st.store ptr = some c)
    {bytes : List UInt8} (hlen : off + bytes.length ≤ c.bytes.length) :
    writeBytes st.heap (ptr + off) bytes =
      .ok ⟨st.heap.mem.write (ptr + off) bytes, st.heap.live⟩ := by
  have held := hr.holds ptr c hptr
  rw [writeBytes, Heap.store_of_covers held.live (held.covers_bytes hlen)]
  rfl

theorem Refines.step {sys : Global} (hr : Refines st) (hs : Step sys st es st') : Refines st' := by
  cases hs with
  | call hp hcall =>
    rcases perform_spec sys hr hp with ⟨-, line, hexit⟩ | ⟨ptr', h', hok, done, -⟩
    · rw [hexit] at hcall
      cases hcall
    · rw [hok] at hcall
      cases hcall
      exact done
  | write hptr hlen hwrite =>
    rw [writeBytes_spec hr hptr hlen] at hwrite
    cases hwrite
    exact Refines.write hr hptr hlen
  | other hw live apart agree => exact Refines.other hr hw live apart agree

def State.initial (h : Heap) : State := ⟨h, fun _ => none, h.live⟩

theorem Refines.initial (hw : h.WellFormed addressSpace) : Refines (State.initial h) where
  wellFormed := hw
  holds _ _ hp := by simp [State.initial] at hp
  others _ hb := hb
  own _ _ hp := by simp [State.initial] at hp
  known _ hb hno := absurd hb hno

theorem refines {sys : Global} (hw : h.WellFormed addressSpace)
    (hrun : Run (Step sys) (State.initial h) log st) : Refines st :=
  Run.invariant (I := fun _ st => Refines st) (Refines.initial hw)
    (fun hr hs => Refines.step hr hs) hrun

def bumpBase (live : Finset Block) (align : Nat) : Nat :=
  align * ((∑ b ∈ live, (b.base + b.layout.size)) / align + 1)

theorem bumpBase_free {h : Heap} {l : Layout} (hv : l.Valid isizeMax) (hpos : 0 < l.size)
    (hfits : bumpBase h.live l.align + l.size < addressSpace) :
    h.Free addressSpace ⟨bumpBase h.live l.align, l⟩ := by
  have align_pos : 0 < l.align := Nat.pos_of_isPowerOfTwo hv.1
  have past := Nat.lt_mul_div_succ (∑ b ∈ h.live, (b.base + b.layout.size)) align_pos
  refine ⟨⟨Nat.mul_pos align_pos (Nat.succ_pos _), Nat.dvd_mul_right _ _, hpos, hfits⟩,
    fun c hc => .inl ?_⟩
  have le := Finset.single_le_sum (f := fun b : Block => b.base + b.layout.size)
    (fun _ _ => Nat.zero_le _) hc
  exact Nat.le_of_lt (Nat.lt_of_le_of_lt le past)

def bump : Global where
  place h l :=
    if bumpBase h.live l.align + l.size < addressSpace then
      some (bumpBase h.live l.align, h.mem)
    else none
  resize h b n :=
    let base := bumpBase h.live b.layout.align
    if base + n < addressSpace then
      some (base, h.mem.write base (h.mem.read b.base (min b.layout.size n)))
    else none
  release h _ := h.mem
  place_spec _ hv hpos hplace := by
    split at hplace
    · cases hplace
      exact ⟨bumpBase_free hv hpos ‹_›, fun _ _ => Block.Agree.rfl⟩
    · cases hplace
  resize_spec := by
    intro h b n p m hw hb hpos hv hresize
    simp only at hresize
    split at hresize
    · cases hresize
      rename_i hfits
      obtain ⟨placed, apart⟩ := bumpBase_free (h := h) hv hpos hfits
      have cover : (⟨bumpBase h.live b.layout.align, n, b.layout.align⟩ : Block).Covers
          (bumpBase h.live b.layout.align) (h.mem.read b.base (min b.layout.size n)).length := by
        simp only [Block.Covers, Mem.length_read]
        omega
      refine ⟨⟨placed, fun c hc => apart c (Finset.mem_of_mem_erase hc)⟩,
        fun c hc => Block.Agree.write (apart c (Finset.mem_of_mem_erase hc)) cover,
        fun i hi => ?_⟩
      rw [Mem.write_inside i (by rwa [Mem.length_read]), Mem.getElem_read]
    · cases hresize
  release_spec _ _ _ _ := Block.Agree.rfl

theorem not_refuses_bump (mem : Mem) (hfits : length + 2 * header alignment < addressSpace) :
    ¬Refuses bump ⟨mem, ∅⟩ length alignment := by
  have room : bumpBase ∅ (header alignment) + (length + header alignment) < addressSpace := by
    simp only [bumpBase, Finset.sum_empty, Nat.zero_div]
    omega
  intro hrefused
  simp only [Refuses, bump, userLayout, if_pos room] at hrefused
  cases hrefused

structure Sound (sys : Global) (st : State) : Prop where
  stored : ∀ ptr c, st.store ptr = some c →
    ptr ≠ 0 ∧ c.align ∣ ptr ∧ st.heap.mem.read ptr c.bytes.length = c.bytes
  apart : ∀ p c q d, st.store p = some c → st.store q = some d → p ≠ q →
    p + c.bytes.length ≤ q ∨ q + d.bytes.length ≤ p
  answered : ∀ call : Call, call.Permitted st.store →
    (call.Refused sys st.heap st.store ∧
      ∃ line, call.perform sys st.heap = .error (.exit 1 line)) ∨
    ∃ ptr h, call.perform sys st.heap = .ok (ptr, h) ∧
      ∀ b ∈ st.others, b ∈ h.live ∧ b.Agree st.heap.mem h.mem
  fresh : ∀ length alignment ptr h, Representable length alignment →
    rocAlloc sys length alignment st.heap = .ok (ptr, h) → st.store ptr = none
  writable : ∀ ptr c off bytes, st.store ptr = some c → off + bytes.length ≤ c.bytes.length →
    ∃ h, writeBytes st.heap (ptr + off) bytes = .ok h
  returned : st.store = (fun _ => none) → st.heap.live = st.others

theorem ran_call {sys : Global} (hrun : Run (Step sys) init past st) (call : Call) (ptr : Nat)
    (hp : call.Permitted st.store) (hcall : call.perform sys st.heap = .ok (ptr, h)) :
    Run (Step sys) init (past ++ [call]) ⟨h, call.book h.mem ptr st.store, st.others⟩ :=
  hrun.snoc_one (Step.call hp hcall)

theorem store_refined (sys : Global) (hw : h.WellFormed addressSpace)
    (hrun : Run (Step sys) (State.initial h) log st) : Sound sys st := by
  have hr := refines hw hrun
  refine ⟨?_, ?_, ?_, ?_, ?_, ?_⟩
  · intro ptr c hptr
    have held := hr.holds ptr c hptr
    exact ⟨Nat.ne_of_gt (Nat.zero_lt_of_lt held.past), held.align_dvd hr.wellFormed, held.bytes⟩
  · intro p c q d hp hq hne
    have held := hr.holds p c hp
    have held' := hr.holds q d hq
    have blocks := hr.wellFormed.apart _ held.live _ held'.live
      fun heq => hne (held.block_inj held' heq)
    have whole := held.covers_bytes (Nat.zero_add c.bytes.length).le
    have whole' := held'.covers_bytes (Nat.zero_add d.bytes.length).le
    simpa using blocks.ranges whole whole'
  · intro call hp
    rcases perform_spec sys hr hp with hexit | ⟨ptr, h, hok, -, hothers⟩
    · exact .inl hexit
    · exact .inr ⟨ptr, h, hok, hothers⟩
  · intro length alignment ptr h hrep hok
    rcases rocAlloc_spec sys hr.wellFormed hrep with ⟨-, hexit⟩ | ⟨ptr', h', hok', hgrown⟩
    · rw [hexit] at hok
      cases hok
    · rw [hok'] at hok
      cases hok
      by_contra hsome
      obtain ⟨c, hc⟩ := Option.ne_none_iff_exists'.mp hsome
      exact (hr.holds ptr c hc).not_free hgrown.holds.past hgrown.free
  · exact fun ptr c off bytes hptr hlen => ⟨_, writeBytes_spec hr hptr hlen⟩
  · intro hnone
    refine Finset.Subset.antisymm (fun b hb => ?_) hr.others
    by_contra hno
    obtain ⟨ptr, c, hptr, -⟩ := hr.known b hb hno
    rw [hnone] at hptr
    cases hptr

theorem store_refined_shrunk : ∃ log st,
    Run (Step bump) (State.initial ⟨fun _ => 0, ∅⟩) log st ∧
    log = [.alloc 5 16, .alloc 4 8, .dealloc 48 8, .realloc 32 3 16] ∧
    st.store 64 = some ⟨16, [0, 7, 8]⟩ ∧ st.store 48 = none ∧ st.store 32 = none ∧
    Sound bump st := by
  have hw := Heap.WellFormed.empty addressSpace fun _ => 0
  obtain ⟨h₁, h₂, h₃, h₄, h₅, made, zeros, written, second, given, shrunk⟩ :
      ∃ h₁ h₂ h₃ h₄ h₅, rocAlloc bump 5 16 ⟨fun _ => 0, ∅⟩ = .ok (32, h₁) ∧
        h₁.mem.read 32 5 = List.replicate 5 0 ∧ writeBytes h₁ (32 + 1) [7, 8] = .ok h₂ ∧
        rocAlloc bump 4 8 h₂ = .ok (48, h₃) ∧ rocDealloc bump 48 8 h₃ = .ok h₄ ∧
        rocRealloc bump 32 3 16 h₄ = .ok (64, h₅) :=
    ⟨_, _, _, _, _, rfl, rfl, rfl, rfl, rfl, rfl⟩
  have fits : Representable 5 16 ∧ Representable 4 8 ∧ Representable 3 16 := by decide
  let kept : Store := Function.update (fun _ => none) 32 (some ⟨16, List.replicate 5 0⟩)
  have made : Run (Step bump) (State.initial ⟨fun _ => 0, ∅⟩) [.alloc 5 16] ⟨h₁, kept, ∅⟩ := by
    have start : Run (Step bump) (State.initial ⟨fun _ => 0, ∅⟩) [] _ := Run.nil
    have run := ran_call start (.alloc 5 16) 32 fits.1 made
    rwa [Call.book, zeros] at run
  have write : Step bump ⟨h₁, kept, ∅⟩ [] ⟨h₂, _, ∅⟩ :=
    Step.write (c := ⟨16, List.replicate 5 0⟩) rfl (by decide) written
  have freed : (Call.dealloc 48 8).perform bump h₃ = .ok (0, h₄) := by
    rw [Call.perform, given]
    rfl
  have run := ran_call (made.snoc_silent write) (.alloc 4 8) 48 fits.2.1 second
  have run := ran_call run (.dealloc 48 8) 0 ⟨_, rfl, rfl⟩ freed
  have run := ran_call run (.realloc 32 3 16) 64 ⟨⟨_, rfl, rfl⟩, fits.2.2⟩ shrunk
  refine ⟨_, _, run, rfl, ?_, rfl, rfl, store_refined bump hw run⟩
  simp [Call.book, Cell.overwrite]

end RocTui.Allocators
