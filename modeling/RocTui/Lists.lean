import RocTui.Strings

namespace RocTui.Values

open RocTui.Lib RocTui.Lib.Blocks RocTui.Lib.Script RocTui.Lib.Words
open RocTui.Allocators RocTui.Counts

structure Elem (T : Type) where
  size : Nat
  align : Nat
  encode : T → List UInt8
  decode : List UInt8 → T
  align_pow : align.isPowerOfTwo
  align_dvd : align ∣ size
  length_encode : ∀ x, (encode x).length = size
  decode_encode : ∀ x, decode (encode x) = x

namespace Elem

variable {T : Type} (e : Elem T)

def items : Nat → List UInt8 → List T
  | 0, _ => []
  | n + 1, bytes => e.decode (bytes.take e.size) :: items n (bytes.drop e.size)

def bytesOf (xs : List T) : List UInt8 := xs.flatMap e.encode

theorem length_bytesOf (xs : List T) : (e.bytesOf xs).length = xs.length * e.size := by
  induction xs with
  | nil => simp [bytesOf]
  | cons x xs ih =>
    rw [bytesOf, List.flatMap_cons, List.length_append, e.length_encode, ← bytesOf, ih,
      List.length_cons, Nat.add_mul, Nat.one_mul, Nat.add_comm]

theorem drop_bytesOf (xs : List T) (i : Nat) :
    (e.bytesOf xs).drop (i * e.size) = e.bytesOf (xs.drop i) := by
  induction i generalizing xs with
  | zero => simp
  | succ i ih =>
    cases xs with
    | nil => simp [bytesOf]
    | cons x xs =>
      rw [List.drop_succ_cons, ← ih, bytesOf, List.flatMap_cons, Nat.add_mul, Nat.one_mul,
        Nat.add_comm, ← List.drop_drop, List.drop_left' (e.length_encode x), bytesOf]

theorem items_bytesOf (n : Nat) (xs : List T) (rest : List UInt8) (h : n ≤ xs.length) :
    e.items n (e.bytesOf xs ++ rest) = xs.take n := by
  induction n generalizing xs with
  | zero => simp [items]
  | succ n ih =>
    cases xs with
    | nil => simp at h
    | cons x xs =>
      have head : (e.bytesOf (x :: xs) ++ rest).take e.size = e.encode x := by
        rw [bytesOf, List.flatMap_cons, List.append_assoc, List.take_left' (e.length_encode x)]
      have tail : (e.bytesOf (x :: xs) ++ rest).drop e.size = e.bytesOf xs ++ rest := by
        rw [bytesOf, List.flatMap_cons, List.append_assoc, List.drop_left' (e.length_encode x)]
        rfl
      rw [items, head, tail, e.decode_encode, ih xs (by simpa using h), List.take_succ_cons]

theorem take_bytesOf (xs : List T) (n : Nat) :
    (e.bytesOf xs).take (n * e.size) = e.bytesOf (xs.take n) := by
  by_cases h : n ≤ xs.length
  · conv_lhs => rw [← List.take_append_drop n xs]
    rw [bytesOf, List.flatMap_append, List.take_left']
    · rfl
    · rw [← bytesOf, length_bytesOf, List.length_take_of_le h]
  · have short : xs.length ≤ n := by omega
    rw [List.take_of_length_le short, List.take_of_length_le]
    rw [length_bytesOf]
    exact Nat.mul_le_mul_right _ short

theorem items_slice (xs : List T) (i n : Nat) (h : i + n ≤ xs.length) :
    e.items n (((e.bytesOf xs).drop (i * e.size)).take (n * e.size)) = (xs.drop i).take n := by
  have all := e.items_bytesOf n ((xs.drop i).take n) [] (by
    rw [List.length_take_of_le (by rw [List.length_drop]; omega)])
  rw [drop_bytesOf, take_bytesOf]
  rw [List.append_nil] at all
  rw [all, List.take_take, Nat.min_self]

end Elem

def RocStr.elem : Elem RocStr where
  size := 24
  align := 8
  encode := RocStr.toBytes
  decode := RocStr.ofBytes
  align_pow := ⟨3, rfl⟩
  align_dvd := ⟨3, rfl⟩
  length_encode := RocStr.length_toBytes
  decode_encode := RocStr.ofBytes_toBytes

def byteElem : Elem UInt8 where
  size := 1
  align := 1
  encode b := [b]
  decode bytes := bytes.headD 0
  align_pow := ⟨0, rfl⟩
  align_dvd := ⟨1, rfl⟩
  length_encode _ := rfl
  decode_encode _ := rfl

/-- `RocListWith<T, ELEMENTS_REFCOUNTED>`. -/
structure RocListWith where
  elements : UInt64
  length : UInt64
  capacityOrAllocPtr : UInt64
  deriving DecidableEq, Repr

namespace RocListWith

def headerBytes (align : Nat) (elementsRefcounted : Bool) : Nat :=
  max (if elementsRefcounted then 2 * 8 else 8) align

def listShape (align : Nat) (elementsRefcounted : Bool) : Shape :=
  ⟨headerBytes align elementsRefcounted, max align 8⟩

def empty : RocListWith := ⟨0, 0, 0⟩

def isSeamlessSlice (l : RocListWith) : Bool := tagged l.capacityOrAllocPtr

def getAllocationPtr (l : RocListWith) : Nat :=
  if l.isSeamlessSlice then untagged l.capacityOrAllocPtr else l.elements.toNat

def allocationElementCount (elementsRefcounted : Bool) (h : Heap) (l : RocListWith) :
    Except Stop Nat :=
  if l.isSeamlessSlice && elementsRefcounted then
    if l.getAllocationPtr = 0 then pure 0 else readUsize h (l.getAllocationPtr - 16)
  else pure l.length.toNat

section

variable {T : Type} (e : Elem T)

def fromRawParts (h : Heap) (ptr n : Nat) : Except Stop (List T) := do
  expect (e.align ∣ ptr) .undefined
  let bytes ← expectSome (h.load ptr (n * e.size)) .undefined
  pure (e.items n bytes)

def asSlice (h : Heap) (l : RocListWith) : Except Stop (List T) :=
  if l.elements = 0 then pure [] else fromRawParts e h l.elements.toNat l.length.toNat

def allocationItems (elementsRefcounted : Bool) (h : Heap) (l : RocListWith) :
    Except Stop (List T) :=
  if l.elements = 0 then pure []
  else do
    let count ← l.allocationElementCount elementsRefcounted h
    fromRawParts e h l.getAllocationPtr count

def storeElementCount (elementsRefcounted : Bool) (dataPtr length : Nat) (h : Heap) :
    Except Stop Heap :=
  if elementsRefcounted then writeUsize h (dataPtr - 16) length else pure h

def allocate (elementsRefcounted : Bool) (sys : Global) (length : Nat) (h : Heap) :
    Except Stop (RocListWith × Heap) := do
  if length = 0 then pure (empty, h)
  else
    let dataBytes ← checkedMulUsize length e.size "RocList allocation element bytes overflow"
    let total ← checkedAddUsize dataBytes (headerBytes e.align elementsRefcounted)
      "RocList allocation size overflow"
    let (dataPtr, h) ← allocateCounted sys (listShape e.align elementsRefcounted) total h
    let h ← storeElementCount elementsRefcounted dataPtr length h
    pure (⟨.ofNat dataPtr, .ofNat length, shiftedCapacity length⟩, h)

def fromSlice (elementsRefcounted : Bool) (sys : Global) (slice : List T) (h : Heap) :
    Except Stop (RocListWith × Heap) := do
  if slice.isEmpty then pure (empty, h)
  else
    let (list, h) ← allocate e elementsRefcounted sys slice.length h
    let h ← writeBytes h list.elements.toNat (e.bytesOf slice)
    pure (list, h)

end

def decref (align : Nat) (elementsRefcounted : Bool) (sys : Global) (l : RocListWith) (h : Heap) :
    Except Stop Heap :=
  if l.elements = 0 then pure h
  else if l.getAllocationPtr = 0 then pure h
  else decrefAt sys (listShape align elementsRefcounted) pure l.getAllocationPtr h

def incref (l : RocListWith) (amount : Int) (h : Heap) : Except Stop Heap :=
  if l.elements = 0 then pure h
  else if l.getAllocationPtr = 0 then pure h
  else increfAt l.getAllocationPtr amount h

def isUnique (h : Heap) (l : RocListWith) : Except Stop Bool :=
  if l.getAllocationPtr = 0 then pure true
  else do
    let count ← readUsize h (l.getAllocationPtr - 8)
    pure (count == 0 || count == 1)

def hasOneRef (h : Heap) (l : RocListWith) : Except Stop Bool :=
  if l.getAllocationPtr = 0 then pure false
  else do
    let count ← readUsize h (l.getAllocationPtr - 8)
    pure (count == 1)

theorem headerBytes_isPowerOfTwo (h : align.isPowerOfTwo) (elementsRefcounted : Bool) :
    (headerBytes align elementsRefcounted).isPowerOfTwo := by
  have space : (if elementsRefcounted then 2 * 8 else 8 : Nat).isPowerOfTwo := by
    cases elementsRefcounted
    · exact ⟨3, rfl⟩
    · exact ⟨4, rfl⟩
  unfold headerBytes
  rcases Nat.le_total (if elementsRefcounted then 2 * 8 else 8) align with hle | hle
  · rwa [Nat.max_eq_right hle]
  · rwa [Nat.max_eq_left hle]

theorem eight_le_headerBytes (align : Nat) (elementsRefcounted : Bool) :
    8 ≤ headerBytes align elementsRefcounted := by
  unfold headerBytes
  cases elementsRefcounted <;> simp

theorem listShape_valid (h : align.isPowerOfTwo) (elementsRefcounted : Bool) :
    (listShape align elementsRefcounted).Valid where
  align := header_isPowerOfTwo h
  eight := pow_dvd_of_le ⟨3, rfl⟩ (headerBytes_isPowerOfTwo h elementsRefcounted)
    (eight_le_headerBytes align elementsRefcounted)
  room := eight_le_headerBytes align elementsRefcounted
  aligned := pow_dvd_of_le (header_isPowerOfTwo h)
    (headerBytes_isPowerOfTwo h elementsRefcounted)
    (Nat.max_le.mpr ⟨Nat.le_max_right _ _, eight_le_headerBytes align elementsRefcounted⟩)

/-- The number of elements stands in the header when they are counted themselves. -/
def CountsElements (elementsRefcounted : Bool) (o : Object) (length : Nat) : Prop :=
  elementsRefcounted = true → ∃ pre, o.front = pre ++ leBytes 8 length

def whole (data length : Nat) : RocListWith :=
  ⟨.ofNat data, .ofNat length, shiftedCapacity length⟩

section

variable {T : Type} (e : Elem T) {b : Books}

def Fits (elementsRefcounted : Bool) (length : Nat) : Prop :=
  length < addressSpace ∧
    Representable (headerBytes e.align elementsRefcounted + length * e.size) (max e.align 8)

def Refused (elementsRefcounted : Bool) (sys : Global) (length : Nat) (h : Heap) : Prop :=
  Refuses sys h (length * e.size + headerBytes e.align elementsRefcounted) (max e.align 8)

theorem storeElementCount_spec {st : State} {o : Object} (elementsRefcounted : Bool)
    (hb : Represents (b.allocated st p o [])) (length : Nat)
    (hshape : o.shape = listShape e.align elementsRefcounted) :
    ∃ st' o', storeElementCount elementsRefcounted (p + o.shape.header) length st.heap =
        .ok st'.heap ∧
      o'.shape = o.shape ∧ o'.data = o.data ∧ CountsElements elementsRefcounted o' length ∧
      Represents (b.allocated st' p o' []) ∧ Beside st st' := by
  cases elementsRefcounted with
  | false => exact ⟨st, o, rfl, rfl, rfl, nofun, hb, Beside.rfl⟩
  | true =>
    have room : 16 ≤ o.shape.header := by
      rw [hshape]
      exact Nat.le_max_left _ _
    obtain ⟨st', pre, hwrite, hrep, hbeside⟩ := hb.fillFront room length
    exact ⟨st', { o with front := pre ++ leBytes 8 length }, hwrite, rfl, rfl,
      fun _ => ⟨pre, rfl⟩, hrep, hbeside⟩

theorem allocate_spec (hb : Represents b) (sys : Global) (elementsRefcounted : Bool)
    {length : Nat} (hpos : length ≠ 0) (hfits : Fits e elementsRefcounted length) :
    (Refused e elementsRefcounted sys length b.state.heap ∧ ∃ line,
      allocate e elementsRefcounted sys length b.state.heap = .error (.exit 1 line)) ∨
    ∃ p st o, allocate e elementsRefcounted sys length b.state.heap =
        .ok (whole (p + headerBytes e.align elementsRefcounted) length, st.heap) ∧
      p ∉ b.refs.live ∧ o.shape = listShape e.align elementsRefcounted ∧
      o.data.length = length * e.size ∧ CountsElements elementsRefcounted o length ∧
      Represents (b.allocated st p o []) ∧ Beside b.state st := by
  have lt := hfits.2.lt
  have bytes : checkedMulUsize length e.size "RocList allocation element bytes overflow" =
      .ok (length * e.size) := by
    rw [checkedMulUsize, expect_of (by omega), ok_bind]
    rfl
  have room : length * e.size + headerBytes e.align elementsRefcounted < addressSpace := by omega
  have total := checkedAddUsize_of_lt room "RocList allocation size overflow"
  have hfits' := hfits.2
  rw [Nat.add_comm] at hfits'
  rcases hb.allocate sys (listShape_valid e.align_pow elementsRefcounted) hfits'
      (Nat.le_add_left _ _) [] with
    ⟨hrefused, line, hexit⟩ | ⟨p, st, o, hok, fresh, hshape, hlen, hrep, hbeside⟩
  · refine .inl ⟨hrefused, line, ?_⟩
    rw [allocate, if_neg hpos, bytes, ok_bind, total, ok_bind, hexit]
    rfl
  · right
    obtain ⟨st', o', hwrite, hshape', hdata, hcounts, hrep', hbeside'⟩ :=
      storeElementCount_spec e elementsRefcounted hrep length hshape
    refine ⟨p, st', o', ?_, fresh, hshape'.trans hshape, ?_, hcounts, hrep',
      hbeside.trans hbeside'⟩
    · rw [allocate, if_neg hpos, bytes, ok_bind, total, ok_bind, hok, ok_bind]
      rw [hshape] at hwrite
      exact congrArg (· >>= fun h =>
        pure (whole (p + headerBytes e.align elementsRefcounted) length, h)) hwrite
    · rw [hdata]
      simp only [listShape] at hlen
      omega

theorem toNat_whole {data length size : Nat} (hlt : data + size < addressSpace)
    (hlen : length < addressSpace) :
    (whole data length).elements.toNat = data ∧ (whole data length).length.toNat = length := by
  have size : UInt64.size = addressSpace := rfl
  exact ⟨UInt64.toNat_ofNat_of_lt' (by omega), UInt64.toNat_ofNat_of_lt' (by omega)⟩

theorem fromSlice_spec (hb : Represents b) (sys : Global) (elementsRefcounted : Bool)
    {slice : List T} (hne : slice ≠ []) (hfits : Fits e elementsRefcounted slice.length) :
    (Refused e elementsRefcounted sys slice.length b.state.heap ∧ ∃ line,
      fromSlice e elementsRefcounted sys slice b.state.heap = .error (.exit 1 line)) ∨
    ∃ p st o, fromSlice e elementsRefcounted sys slice b.state.heap =
        .ok (whole (p + headerBytes e.align elementsRefcounted) slice.length, st.heap) ∧
      p ∉ b.refs.live ∧ o.shape = listShape e.align elementsRefcounted ∧
      o.data = e.bytesOf slice ∧ CountsElements elementsRefcounted o slice.length ∧
      Represents (b.allocated st p o []) ∧ Beside b.state st := by
  have empty : slice.isEmpty = false := by simpa using hne
  have pos : slice.length ≠ 0 := by simpa using hne
  rcases allocate_spec e hb sys elementsRefcounted pos hfits with
    ⟨hrefused, line, hexit⟩ | ⟨p, st, o, hok, fresh, hshape, hlen, hcounts, hrep, hbeside⟩
  · refine .inl ⟨hrefused, line, ?_⟩
    rw [fromSlice, empty, if_neg Bool.false_ne_true, hexit]
    rfl
  · right
    have same : (e.bytesOf slice).length = o.data.length := by rw [e.length_bytesOf, hlen]
    obtain ⟨st', hwrite, hrep', hbeside'⟩ := hrep.fillData same
    have object : (b.allocated st p o []).object p = o := Function.update_self _ _ _
    have lt := hrep.data_lt (Finset.mem_insert_self _ _)
    rw [object, hshape] at lt
    refine ⟨p, st', { o with data := e.bytesOf slice }, ?_, fresh, hshape, rfl, hcounts, hrep',
      hbeside.trans hbeside'⟩
    rw [fromSlice, empty, if_neg Bool.false_ne_true, hok, ok_bind]
    have ptr : (whole (p + headerBytes e.align elementsRefcounted) slice.length).elements.toNat =
        p + headerBytes e.align elementsRefcounted := (toNat_whole lt hfits.1).1
    have hwrite' : writeBytes st.heap
        (whole (p + headerBytes e.align elementsRefcounted) slice.length).elements.toNat
        (e.bytesOf slice) = .ok st'.heap := by
      rw [ptr, ← hwrite, hshape]
      rfl
    exact congrArg (· >>= fun h =>
      pure (whole (p + headerBytes e.align elementsRefcounted) slice.length, h)) hwrite'

structure HoldsList (b : Books) (elementsRefcounted : Bool) (p : Nat) (xs : List T) : Prop where
  live : p ∈ b.refs.live
  shape : (b.object p).shape = listShape e.align elementsRefcounted
  data : (b.object p).data = e.bytesOf xs
  counts : CountsElements elementsRefcounted (b.object p) xs.length
  length : xs.length < addressSpace

variable {e} {elementsRefcounted : Bool} {p : Nat} {xs : List T}

namespace HoldsList

theorem dataPtr_lt (hl : HoldsList e b elementsRefcounted p xs) (hb : Represents b) :
    p + headerBytes e.align elementsRefcounted + xs.length * e.size < addressSpace := by
  have lt := hb.data_lt hl.live
  rwa [hl.data, hl.shape, e.length_bytesOf] at lt

theorem aligned (hl : HoldsList e b elementsRefcounted p xs) (hb : Represents b) :
    8 ∣ p + headerBytes e.align elementsRefcounted ∧
      e.align ∣ p + headerBytes e.align elementsRefcounted := by
  have dvd := hb.header_dvd hl.live
  rw [hl.shape] at dvd
  exact ⟨dvd.1, Nat.dvd_trans (dvd_header e.align_pow) dvd.2⟩

theorem fromRawParts_eq (hl : HoldsList e b elementsRefcounted p xs) (hb : Represents b)
    {i n : Nat} (hi : i + n ≤ xs.length) :
    fromRawParts e b.state.heap (p + headerBytes e.align elementsRefcounted + i * e.size) n =
      .ok ((xs.drop i).take n) := by
  have aligned : e.align ∣ p + headerBytes e.align elementsRefcounted + i * e.size :=
    Nat.dvd_add (hl.aligned hb).2 (Nat.dvd_trans e.align_dvd (Nat.dvd_mul_left _ _))
  have inside : i * e.size + n * e.size ≤ (b.object p).data.length := by
    rw [hl.data, e.length_bytesOf, ← Nat.add_mul]
    exact Nat.mul_le_mul_right _ hi
  have loaded := hb.load_data hl.live inside
  rw [hl.shape, hl.data] at loaded
  have loaded' : b.state.heap.load
      (p + headerBytes e.align elementsRefcounted + i * e.size) (n * e.size) = _ := loaded
  rw [fromRawParts, expect_of aligned, ok_bind, loaded', expectSome_some, ok_bind,
    e.items_slice xs i n hi]
  rfl

theorem count_eq (hl : HoldsList e b true p xs) (hb : Represents b) :
    readUsize b.state.heap (p + headerBytes e.align true - 16) = .ok xs.length := by
  obtain ⟨pre, hfront⟩ := hl.counts rfl
  have word := hb.read_front hl.live hfront hl.length
  rwa [hl.shape] at word

end HoldsList

/-- A seamless slice of a list: the elements it starts with, how many, and the tagged pointer to
the allocation. -/
def sliceOf (e : Elem T) (l : RocListWith) (i n : Nat) : RocListWith :=
  ⟨.ofNat (l.elements.toNat + i * e.size), .ofNat n, .ofNat (l.getAllocationPtr + 1)⟩

structure Shows (e : Elem T) (l : RocListWith) (data i n : Nat) : Prop where
  elements : l.elements.toNat = data + i * e.size
  length : l.length.toNat = n
  allocation : l.getAllocationPtr = data

theorem Shows.whole (hl : HoldsList e b elementsRefcounted p xs) (hb : Represents b) :
    Shows e (whole (p + headerBytes e.align elementsRefcounted) xs.length)
      (p + headerBytes e.align elementsRefcounted) 0 xs.length := by
  obtain ⟨elements, length⟩ := toNat_whole (hl.dataPtr_lt hb) hl.length
  refine ⟨by rw [elements, Nat.zero_mul, Nat.add_zero], length, ?_⟩
  rw [getAllocationPtr, isSeamlessSlice, RocListWith.whole, tagged_shiftedCapacity]
  exact elements

theorem isSeamlessSlice_sliceOf (hl : HoldsList e b elementsRefcounted p xs) (hb : Represents b)
    {l : RocListWith} (hs : Shows e l (p + headerBytes e.align elementsRefcounted) j m)
    (i n : Nat) :
    (sliceOf e l i n).isSeamlessSlice = true ∧
      (sliceOf e l i n).getAllocationPtr = p + headerBytes e.align elementsRefcounted := by
  have lt := hl.dataPtr_lt hb
  have dvd := (hl.aligned hb).1
  have tag := untagged_succ dvd (by omega)
  have slice : (sliceOf e l i n).isSeamlessSlice = true := by
    rw [isSeamlessSlice, sliceOf, hs.allocation, tag.1]
  refine ⟨slice, ?_⟩
  rw [getAllocationPtr, slice, if_pos rfl, sliceOf, hs.allocation, tag.2]

theorem Shows.slice (hl : HoldsList e b elementsRefcounted p xs) (hb : Represents b)
    {l : RocListWith} (hs : Shows e l (p + headerBytes e.align elementsRefcounted) j m)
    (hj : j + m ≤ xs.length) (hi : i + n ≤ m) :
    Shows e (sliceOf e l i n) (p + headerBytes e.align elementsRefcounted) (j + i) n := by
  have size : UInt64.size = addressSpace := rfl
  have lt := hl.dataPtr_lt hb
  have le : (j + i) * e.size ≤ xs.length * e.size := Nat.mul_le_mul_right _ (by omega)
  have length := hl.length
  refine ⟨?_, UInt64.toNat_ofNat_of_lt' (by omega), (isSeamlessSlice_sliceOf hl hb hs i n).2⟩
  rw [sliceOf, hs.elements, Nat.add_assoc, ← Nat.add_mul]
  exact UInt64.toNat_ofNat_of_lt' (by omega)

theorem Shows.elements_ne (hs : Shows e l (p + headerBytes e.align elementsRefcounted) i n) :
    l.elements ≠ 0 := by
  intro heq
  have pos := eight_le_headerBytes e.align elementsRefcounted
  have elements := hs.elements
  rw [heq] at elements
  change 0 = _ at elements
  omega

theorem Shows.asSlice_eq (hl : HoldsList e b elementsRefcounted p xs) (hb : Represents b)
    {l : RocListWith} (hs : Shows e l (p + headerBytes e.align elementsRefcounted) i n)
    (hi : i + n ≤ xs.length) : l.asSlice e b.state.heap = .ok ((xs.drop i).take n) := by
  rw [asSlice, if_neg hs.elements_ne, hs.elements, hs.length, hl.fromRawParts_eq hb hi]

/-- All items of the allocation, where their number is kept; otherwise as many as the list
shows, counted from the start of the allocation. -/
theorem Shows.allocationItems_eq (hl : HoldsList e b elementsRefcounted p xs)
    (hb : Represents b) {l : RocListWith}
    (hs : Shows e l (p + headerBytes e.align elementsRefcounted) i n)
    (hwhole : l.isSeamlessSlice = true ∨ n = xs.length) (hi : i + n ≤ xs.length) :
    l.allocationItems e elementsRefcounted b.state.heap =
      .ok (if elementsRefcounted then xs else xs.take n) := by
  have pos := eight_le_headerBytes e.align elementsRefcounted
  have all {k : Nat} (hk : k ≤ xs.length) :
      fromRawParts e b.state.heap (p + headerBytes e.align elementsRefcounted) k =
        .ok (xs.take k) := by
    have parts := hl.fromRawParts_eq hb (i := 0) (n := k) (by omega)
    rwa [Nat.zero_mul, Nat.add_zero, List.drop_zero] at parts
  rw [allocationItems, if_neg hs.elements_ne, allocationElementCount, hs.allocation, hs.length]
  cases elementsRefcounted with
  | false =>
    rw [Bool.and_false, if_neg Bool.false_ne_true, if_neg Bool.false_ne_true]
    exact all (by omega)
  | true =>
    rw [Bool.and_true, if_pos rfl]
    have items := all (Nat.le_refl xs.length)
    rw [List.take_length] at items
    by_cases hslice : l.isSeamlessSlice = true
    · rw [if_pos hslice, if_neg (by omega), hl.count_eq hb, ok_bind, items]
    · obtain rfl : n = xs.length := hwhole.resolve_left hslice
      rw [if_neg hslice]
      exact items

/-- The items go in and come out again, through the list and through every slice of it, if there
is memory for them. -/
theorem fromSlice_items (e : Elem T) (hb : Represents b) (sys : Global)
    (elementsRefcounted : Bool) {slice : List T} (hne : slice ≠ [])
    (hfits : Fits e elementsRefcounted slice.length) :
    (Refused e elementsRefcounted sys slice.length b.state.heap ∧ ∃ line,
      fromSlice e elementsRefcounted sys slice b.state.heap = .error (.exit 1 line)) ∨
    ∃ l h, fromSlice e elementsRefcounted sys slice b.state.heap = .ok (l, h) ∧
      l.asSlice e h = .ok slice ∧
      l.allocationItems e elementsRefcounted h = .ok slice ∧
      l.isUnique h = .ok true ∧ l.hasOneRef h = .ok true ∧
      ∀ i n, i + n ≤ slice.length →
        (sliceOf e l i n).asSlice e h = .ok ((slice.drop i).take n) ∧
        (sliceOf e l i n).allocationItems e elementsRefcounted h =
          .ok (if elementsRefcounted then slice else slice.take n) := by
  rcases fromSlice_spec e hb sys elementsRefcounted hne hfits with
    hexit | ⟨p, st, o, hok, -, hshape, hdata, hcounts, hrep, -⟩
  · exact .inl hexit
  · right
    have hp : p ∈ (b.allocated st p o []).refs.live := Finset.mem_insert_self _ _
    have object : (b.allocated st p o []).object p = o := Function.update_self _ _ _
    have one : (b.allocated st p o []).refs.count p = 1 := Function.update_self _ _ _
    have hl : HoldsList e (b.allocated st p o []) elementsRefcounted p slice :=
      ⟨hp, by rw [object, hshape], by rw [object, hdata], by rwa [object], hfits.1⟩
    have shows := Shows.whole hl hrep
    have pos := eight_le_headerBytes e.align elementsRefcounted
    have all := shows.asSlice_eq hl hrep (by omega)
    rw [List.drop_zero, List.take_length] at all
    have count := hrep.read_count hp
    rw [object, hshape, one] at count
    have count' : readUsize st.heap (p + headerBytes e.align elementsRefcounted - 8) = .ok 1 :=
      count
    have unique : (whole (p + headerBytes e.align elementsRefcounted) slice.length).isUnique
        st.heap = .ok true := by
      rw [isUnique, shows.allocation, if_neg (by omega), count']
      rfl
    have oneRef : (whole (p + headerBytes e.align elementsRefcounted) slice.length).hasOneRef
        st.heap = .ok true := by
      rw [hasOneRef, shows.allocation, if_neg (by omega), count']
      rfl
    have items := shows.allocationItems_eq hl hrep (.inr rfl) (by omega)
    rw [List.take_length, ite_self] at items
    have heap : (b.allocated st p o []).state.heap = st.heap := rfl
    rw [heap] at all items
    refine ⟨_, st.heap, hok, all, items, unique, oneRef, fun i n hi => ?_⟩
    have slice := shows.slice hl hrep (by omega) hi
    rw [Nat.zero_add] at slice
    have some := slice.asSlice_eq hl hrep hi
    have items := slice.allocationItems_eq hl hrep
      (.inl (isSeamlessSlice_sliceOf hl hrep shows i n).1) hi
    rw [heap] at some items
    exact ⟨some, items⟩

end

theorem fromSlice_items_bytes : ∃ l h,
    fromSlice byteElem false bump [104, 105, 106] ⟨fun _ => 0, ∅⟩ = .ok (l, h) ∧
      (sliceOf byteElem l 1 2).asSlice byteElem h = .ok [105, 106] ∧
      (sliceOf byteElem l 1 2).allocationItems byteElem false h = .ok [104, 105] := by
  have hw := Heap.WellFormed.empty addressSpace fun _ => 0
  have hb : Represents (Books.initial ⟨fun _ => 0, ∅⟩ ∅) :=
    Represents.initial hw fun data hd => absurd hd (Finset.notMem_empty data)
  have fits : Fits byteElem false [(104 : UInt8), 105, 106].length := by
    change 3 < addressSpace ∧ Representable 11 8
    decide
  rcases fromSlice_items byteElem hb bump false (List.cons_ne_nil _ _) fits with
    ⟨hrefused, -⟩ | ⟨l, h, hok, -, -, -, -, slices⟩
  · exact absurd hrefused (not_refuses_bump (fun _ => 0) (by decide))
  · exact ⟨l, h, hok, slices 1 2 (by decide)⟩

end RocListWith

end RocTui.Values
