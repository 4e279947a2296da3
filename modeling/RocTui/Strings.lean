import RocTui.Counts

namespace RocTui.Values

open RocTui.Lib RocTui.Lib.Blocks RocTui.Lib.Script RocTui.Lib.Words
open RocTui.Allocators RocTui.Counts

def fromUtf8 (bytes : List UInt8) : Option String := String.fromUTF8? ⟨bytes.toArray⟩

def asBytes (s : String) : List UInt8 := s.toByteArray.data.toList

theorem fromUtf8_asBytes (s : String) : fromUtf8 (asBytes s) = some s := by
  have same : (⟨(asBytes s).toArray⟩ : ByteArray) = s.toByteArray := rfl
  rw [fromUtf8, same, String.fromUTF8?, dif_pos s.isValidUTF8]
  rfl

/-- `checked_shl` only fails for a shift of 64 or more. -/
def shiftedCapacity (capacity : Nat) : UInt64 := UInt64.ofNat (capacity * 2)

def untagged (word : UInt64) : Nat := word.toNat - word.toNat % 2

def tagged (word : UInt64) : Bool := word.toNat % 2 == 1

theorem tagged_shiftedCapacity (capacity : Nat) :
    tagged (shiftedCapacity capacity) = false := by
  rw [tagged, shiftedCapacity, UInt64.toNat_ofNat', beq_eq_false_iff_ne]
  omega

theorem untagged_succ {word : Nat} (heven : 8 ∣ word) (hlt : word < addressSpace) :
    tagged (.ofNat (word + 1)) = true ∧ untagged (.ofNat (word + 1)) = word := by
  have size : UInt64.size = addressSpace := rfl
  have space : 8 ∣ addressSpace := ⟨2 ^ 61, rfl⟩
  have toNat : (UInt64.ofNat (word + 1)).toNat = word + 1 :=
    UInt64.toNat_ofNat_of_lt' (by omega)
  constructor
  · rw [tagged, toNat, beq_iff_eq]
    omega
  · rw [untagged, toNat]
    omega

def word (bytes : List UInt8) : UInt64 := UInt64.ofNat (ofLe bytes)

theorem toNat_word (h : bytes.length ≤ 8) : (word bytes).toNat = ofLe bytes := by
  have lt := ofLe_lt bytes
  have le : 256 ^ bytes.length ≤ 256 ^ 8 := Nat.pow_le_pow_right (by decide) h
  rw [word, UInt64.toNat_ofNat', Nat.mod_eq_of_lt (by omega)]

theorem word_leBytes (w : UInt64) : word (leBytes 8 w.toNat) = w := by
  rw [word, ofLe_leBytes_of_lt w.toNat_lt, UInt64.ofNat_toNat]

theorem leBytes_word (h : bytes.length = 8) : leBytes 8 (word bytes).toNat = bytes := by
  rw [toNat_word (Nat.le_of_eq h), ← h, leBytes_ofLe]

def overwrite (bytes : List UInt8) (off : Nat) (new : List UInt8) : List UInt8 :=
  bytes.take off ++ new ++ bytes.drop (off + new.length)

structure RocStr where
  bytes : UInt64
  capacityOrAllocPtr : UInt64
  length : UInt64
  deriving DecidableEq, Repr

namespace RocStr

def toBytes (s : RocStr) : List UInt8 :=
  leBytes 8 s.bytes.toNat ++ leBytes 8 s.capacityOrAllocPtr.toNat ++ leBytes 8 s.length.toNat

def ofBytes (bytes : List UInt8) : RocStr where
  bytes := word (bytes.take 8)
  capacityOrAllocPtr := word ((bytes.drop 8).take 8)
  length := word ((bytes.drop 16).take 8)

def rocSmallStrBit : UInt64 := 0x8000000000000000

def empty : RocStr := ⟨0, 0, rocSmallStrBit⟩

def isSmallStr (s : RocStr) : Bool := 2 ^ 63 ≤ s.length.toNat

def isSeamlessSlice (s : RocStr) : Bool := !s.isSmallStr && tagged s.capacityOrAllocPtr

def len (s : RocStr) : Nat :=
  if s.isSmallStr then ((s.toBytes.getD 23 0) ^^^ 0b10000000).toNat else s.length.toNat

def asSlice (h : Heap) (s : RocStr) : Except Stop (List UInt8) :=
  if s.isSmallStr then do
    expect (s.len ≤ 24) .undefined
    pure (s.toBytes.take s.len)
  else expectSome (h.load s.bytes.toNat s.len) .undefined

def asStr (h : Heap) (s : RocStr) : Except Stop String := do
  let bytes ← s.asSlice h
  expectSome (fromUtf8 bytes) (.panic "RocStr contained invalid UTF-8")

def strShape : Shape := ⟨8, 8⟩

def fromSlice (sys : Global) (slice : List UInt8) (h : Heap) : Except Stop (RocStr × Heap) := do
  let _ ← expectSome (fromUtf8 slice) (.panic "RocStr::from_slice requires valid UTF-8")
  if slice.length < 24 then
    let result := overwrite empty.toBytes 0 slice
    let result := overwrite result 23 [UInt8.ofNat slice.length ||| 0b10000000]
    pure (ofBytes result, h)
  else
    let total ← checkedAddUsize 8 slice.length "RocStr allocation size overflow"
    let (dataPtr, h) ← allocateCounted sys strShape total h
    let h ← writeBytes h dataPtr slice
    pure (⟨.ofNat dataPtr, shiftedCapacity slice.length, .ofNat slice.length⟩, h)

def getAllocationPtr (s : RocStr) : Nat :=
  if s.isSeamlessSlice then untagged s.capacityOrAllocPtr else s.bytes.toNat

def decref (sys : Global) (s : RocStr) (h : Heap) : Except Stop Heap :=
  if s.isSmallStr then pure h
  else if s.getAllocationPtr = 0 then pure h
  else decrefAt sys strShape pure s.getAllocationPtr h

def incref (s : RocStr) (amount : Int) (h : Heap) : Except Stop Heap :=
  if s.isSmallStr then pure h
  else if s.getAllocationPtr = 0 then pure h
  else increfAt s.getAllocationPtr amount h

def isUnique (h : Heap) (s : RocStr) : Except Stop Bool :=
  if s.isSmallStr then pure true
  else if s.getAllocationPtr = 0 then pure true
  else do
    let count ← readUsize h (s.getAllocationPtr - 8)
    pure (count == 0 || count == 1)

def small (slice : List UInt8) : RocStr :=
  ofBytes (slice ++ List.replicate (23 - slice.length) 0 ++
    [UInt8.ofNat slice.length ||| 0b10000000])

theorem toBytes_ofBytes {bytes : List UInt8} (h : bytes.length = 24) :
    (ofBytes bytes).toBytes = bytes := by
  have first : leBytes 8 (word (bytes.take 8)).toNat = bytes.take 8 :=
    leBytes_word (List.length_take_of_le (by omega))
  have second : leBytes 8 (word ((bytes.drop 8).take 8)).toNat = (bytes.drop 8).take 8 :=
    leBytes_word (List.length_take_of_le (by rw [List.length_drop]; omega))
  have third : leBytes 8 (word ((bytes.drop 16).take 8)).toNat = bytes.drop 16 := by
    rw [List.take_of_length_le (by rw [List.length_drop]; omega)]
    exact leBytes_word (by rw [List.length_drop, h])
  have halves : bytes.drop 16 = (bytes.drop 8).drop 8 := by rw [List.drop_drop]
  rw [toBytes, ofBytes, first, second, third, List.append_assoc, halves, List.take_append_drop,
    List.take_append_drop]

theorem ofBytes_toBytes (s : RocStr) : ofBytes s.toBytes = s := by
  simp only [ofBytes, toBytes, List.append_assoc]
  rw [List.take_left' (length_leBytes _ _), List.drop_left' (length_leBytes _ _),
    List.take_left' (length_leBytes _ _), ← List.append_assoc, List.drop_left' (by simp),
    List.take_of_length_le (by simp), word_leBytes, word_leBytes, word_leBytes]

theorem length_toBytes (s : RocStr) : s.toBytes.length = 24 := by simp [toBytes]

theorem empty_toBytes : empty.toBytes = List.replicate 23 0 ++ [0b10000000] := by
  simp [empty, rocSmallStrBit, toBytes, leBytes]

theorem small_last {n : Nat} (h : n < 24) :
    128 ≤ (UInt8.ofNat n ||| 0b10000000).toNat ∧
      ((UInt8.ofNat n ||| 0b10000000) ^^^ 0b10000000).toNat = n := by
  have all : ∀ n < 24, 128 ≤ (UInt8.ofNat n ||| 0b10000000).toNat ∧
      ((UInt8.ofNat n ||| 0b10000000) ^^^ 0b10000000).toNat = n := by decide
  exact all n h

theorem small_toBytes (h : slice.length < 24) : (small slice).toBytes =
    slice ++ List.replicate (23 - slice.length) 0 ++
      [UInt8.ofNat slice.length ||| 0b10000000] :=
  toBytes_ofBytes (by simp; omega)

theorem length_small (h : slice.length < 24) : 2 ^ 63 ≤ (small slice).length.toNat := by
  let front := slice ++ List.replicate (23 - slice.length) 0
  have front_length : front.length = 23 := by simp [front]; omega
  have tail : ((front ++ [UInt8.ofNat slice.length ||| 0b10000000]).drop 16).take 8 =
      front.drop 16 ++ [UInt8.ofNat slice.length ||| 0b10000000] := by
    rw [List.drop_append_of_le_length (by omega),
      List.take_of_length_le (by simp [front_length])]
  change 2 ^ 63 ≤
    (word (((front ++ [UInt8.ofNat slice.length ||| 0b10000000]).drop 16).take 8)).toNat
  rw [tail, toNat_word (by simp [front_length]), ofLe_append, List.length_drop, front_length]
  have last := (small_last h).1
  simp only [ofLe]
  omega

theorem isSmallStr_small (h : slice.length < 24) : (small slice).isSmallStr = true := by
  rw [isSmallStr, decide_eq_true_eq]
  exact length_small h

theorem len_small (h : slice.length < 24) : (small slice).len = slice.length := by
  have front : (slice ++ List.replicate (23 - slice.length) (0 : UInt8)).length = 23 := by
    simp
    omega
  rw [len, isSmallStr_small h, if_pos rfl, small_toBytes h, List.getD_eq_getElem?_getD,
    List.getElem?_append_right (by omega), front]
  exact (small_last h).2

theorem asSlice_small (h : Heap) (hlt : slice.length < 24) :
    (small slice).asSlice h = .ok slice := by
  have le : (small slice).len ≤ 24 := by
    rw [len_small hlt]
    omega
  rw [asSlice, isSmallStr_small hlt, if_pos rfl, expect_of le, ok_bind, len_small hlt,
    small_toBytes hlt, List.append_assoc, List.take_left' rfl]
  rfl

theorem overwrite_empty (h : slice.length < 24) :
    overwrite (overwrite empty.toBytes 0 slice) 23 [UInt8.ofNat slice.length ||| 0b10000000] =
      slice ++ List.replicate (23 - slice.length) 0 ++
        [UInt8.ofNat slice.length ||| 0b10000000] := by
  have copied : overwrite empty.toBytes 0 slice =
      slice ++ List.replicate (23 - slice.length) 0 ++ [0b10000000] := by
    rw [overwrite, List.take_zero, List.nil_append, Nat.zero_add, empty_toBytes,
      List.drop_append_of_le_length (by simp; omega), List.drop_replicate, List.append_assoc]
  have front : (slice ++ List.replicate (23 - slice.length) (0 : UInt8)).length = 23 := by
    simp
    omega
  rw [copied, overwrite, List.take_left' front,
    List.drop_eq_nil_of_le (by simp; omega), List.append_nil]

theorem fromSlice_small (sys : Global) (h : Heap) (hutf : (fromUtf8 slice).isSome)
    (hlt : slice.length < 24) : fromSlice sys slice h = .ok (small slice, h) := by
  obtain ⟨s, hs⟩ := Option.isSome_iff_exists.mp hutf
  rw [fromSlice, hs, expectSome_some, ok_bind, if_pos hlt]
  exact congrArg (fun bytes => Except.ok (ofBytes bytes, h)) (overwrite_empty hlt)

def big (dataPtr length : Nat) : RocStr :=
  ⟨.ofNat dataPtr, shiftedCapacity length, .ofNat length⟩

theorem strShape_valid : strShape.Valid := ⟨⟨3, rfl⟩, ⟨1, rfl⟩, Nat.le_refl 8, ⟨1, rfl⟩⟩

theorem fromSlice_big {b : Books} (hb : Represents b) (sys : Global)
    (hutf : (fromUtf8 slice).isSome) (hge : ¬slice.length < 24)
    (hrep : Representable (8 + slice.length) 8) :
    (Refuses sys b.state.heap (8 + slice.length) 8 ∧
      ∃ line, fromSlice sys slice b.state.heap = .error (.exit 1 line)) ∨
    ∃ p st o, fromSlice sys slice b.state.heap = .ok (big (p + 8) slice.length, st.heap) ∧
      p ∉ b.refs.live ∧ o.shape = strShape ∧ o.data = slice ∧
      Represents (b.allocated st p o []) ∧ Beside b.state st := by
  obtain ⟨s, hs⟩ := Option.isSome_iff_exists.mp hutf
  have lt : 8 + slice.length < addressSpace := by
    have total := hrep.lt
    omega
  have total := checkedAddUsize_of_lt lt "RocStr allocation size overflow"
  rcases hb.allocate sys strShape_valid hrep (Nat.le_add_right _ _) [] with
    ⟨hrefused, line, hexit⟩ | ⟨p, st, o, hok, fresh, hshape, hlen, hrep', hbeside⟩
  · refine .inl ⟨hrefused, line, ?_⟩
    rw [fromSlice, hs, expectSome_some, ok_bind, if_neg hge, total, ok_bind, hexit]
    rfl
  · right
    have length : slice.length = o.data.length := by
      simp only [strShape] at hlen
      omega
    obtain ⟨st', hwrite, hrep'', hbeside'⟩ := hrep'.fillData length
    rw [hshape] at hwrite
    refine ⟨p, st', { o with data := slice }, ?_, fresh, hshape, rfl, hrep'',
      hbeside.trans hbeside'⟩
    rw [fromSlice, hs, expectSome_some, ok_bind, if_neg hge, total, ok_bind]
    have hok' : allocateCounted sys strShape (8 + slice.length) b.state.heap =
        .ok (p + 8, st.heap) := hok
    rw [hok', ok_bind]
    exact congrArg (· >>= fun h => pure (big (p + 8) slice.length, h)) hwrite

theorem toNat_big {dataPtr length : Nat} (hlt : dataPtr + length < addressSpace) :
    (big dataPtr length).bytes.toNat = dataPtr ∧
      (big dataPtr length).length.toNat = length := by
  have size : UInt64.size = addressSpace := rfl
  exact ⟨UInt64.toNat_ofNat_of_lt' (by omega), UInt64.toNat_ofNat_of_lt' (by omega)⟩

theorem big_isSmallStr {dataPtr length : Nat} (hlt : dataPtr + length < addressSpace)
    (hsmall : length < 2 ^ 63) : (big dataPtr length).isSmallStr = false := by
  rw [isSmallStr, (toNat_big hlt).2, decide_eq_false_iff_not]
  omega

theorem big_isSeamlessSlice (dataPtr length : Nat) :
    (big dataPtr length).isSeamlessSlice = false := by
  rw [isSeamlessSlice, big, tagged_shiftedCapacity, Bool.and_false]

theorem getAllocationPtr_big {dataPtr length : Nat} (hlt : dataPtr + length < addressSpace) :
    (big dataPtr length).getAllocationPtr = dataPtr := by
  rw [getAllocationPtr, big_isSeamlessSlice]
  exact (toNat_big hlt).1

/-- A seamless slice of a string: where it starts, the tagged pointer to the allocation, and its
length. -/
def sliceOf (s : RocStr) (i n : Nat) : RocStr :=
  ⟨.ofNat (s.bytes.toNat + i), .ofNat (s.getAllocationPtr + 1), .ofNat n⟩

theorem isSmallStr_sliceOf {s : RocStr} (hs : s.isSmallStr = false) {i n : Nat}
    (hn : n ≤ s.length.toNat) :
    (s.sliceOf i n).isSmallStr = false ∧ (s.sliceOf i n).length.toNat = n := by
  have length : (UInt64.ofNat n).toNat = n :=
    UInt64.toNat_ofNat_of_lt' (Nat.lt_of_le_of_lt hn s.length.toNat_lt)
  rw [isSmallStr, decide_eq_false_iff_not] at hs ⊢
  rw [sliceOf, length]
  exact ⟨by omega, rfl⟩

theorem getAllocationPtr_sliceOf {s : RocStr} (hs : s.isSmallStr = false) (heven : 8 ∣ p)
    (hlt : p < addressSpace) (hp : s.getAllocationPtr = p) {i n : Nat}
    (hn : n ≤ s.length.toNat) : (s.sliceOf i n).getAllocationPtr = p := by
  have tag := untagged_succ heven hlt
  have word : (s.sliceOf i n).capacityOrAllocPtr = .ofNat (p + 1) := by rw [sliceOf, hp]
  rw [getAllocationPtr, isSeamlessSlice, (isSmallStr_sliceOf hs hn).1, word, tag.1, tag.2]
  rfl

/-- What was put in a string is read back, wherever it was put.  Only a string that needs an
allocation can find no memory. -/
theorem fromSlice_reads {b : Books} (hb : Represents b) (sys : Global)
    (hutf : fromUtf8 slice = some text) (hrep : Representable (8 + slice.length) 8) :
    (24 ≤ slice.length ∧ Refuses sys b.state.heap (8 + slice.length) 8 ∧
      ∃ line, fromSlice sys slice b.state.heap = .error (.exit 1 line)) ∨
    ∃ s h, fromSlice sys slice b.state.heap = .ok (s, h) ∧
      s.asSlice h = .ok slice ∧ s.asStr h = .ok text ∧ s.len = slice.length ∧
      s.isSeamlessSlice = false ∧ s.isUnique h = .ok true ∧
      (s.isSmallStr = true ↔ slice.length < 24) ∧
      (s.isSmallStr = true → h = b.state.heap) := by
  have isSome : (fromUtf8 slice).isSome := by rw [hutf]; rfl
  have asStr {h : Heap} {s : RocStr} (hs : s.asSlice h = .ok slice) : s.asStr h = .ok text := by
    rw [RocStr.asStr, hs, ok_bind, hutf, expectSome_some]
  by_cases hlt : slice.length < 24
  · have reads := asSlice_small b.state.heap hlt
    refine .inr ⟨small slice, b.state.heap, fromSlice_small sys _ isSome hlt, reads, asStr reads,
      len_small hlt, ?_, ?_, ?_, fun _ => rfl⟩
    · rw [isSeamlessSlice, isSmallStr_small hlt]
      rfl
    · rw [isUnique, isSmallStr_small hlt]
      rfl
    · simp [isSmallStr_small hlt, hlt]
  · rcases fromSlice_big hb sys isSome hlt hrep with
      hexit | ⟨p, st, o, hok, fresh, hshape, hdata, hrep', -⟩
    · exact .inl ⟨Nat.le_of_not_lt hlt, hexit⟩
    · right
      have hp : p ∈ (b.allocated st p o []).refs.live := Finset.mem_insert_self _ _
      have object : (b.allocated st p o []).object p = o := Function.update_self _ _ _
      have header : o.shape.header = 8 := by rw [hshape]; rfl
      have lt := hrep'.data_lt hp
      rw [object, header, hdata] at lt
      have small : slice.length < 2 ^ 63 := by
        have fits := hrep.2.2
        simp only [userLayout, isizeMax] at fits
        omega
      have notSmall := big_isSmallStr lt small
      have inside : 0 + slice.length ≤ ((b.allocated st p o []).object p).data.length := by
        rw [object, hdata, Nat.zero_add]
      have loaded := hrep'.load_data hp inside
      rw [object, header, hdata, Nat.add_zero, List.drop_zero, List.take_length] at loaded
      have length : (big (p + 8) slice.length).len = slice.length := by
        rw [len, notSmall]
        exact (toNat_big lt).2
      have reads : (big (p + 8) slice.length).asSlice st.heap = .ok slice := by
        rw [asSlice, notSmall, length, (toNat_big lt).1]
        exact congrArg (expectSome · Stop.undefined) loaded
      refine ⟨_, st.heap, hok, reads, asStr reads, length, big_isSeamlessSlice _ _, ?_, ?_, ?_⟩
      · have count := hrep'.read_count hp
        have one : (b.allocated st p o []).refs.count p = 1 := Function.update_self _ _ _
        rw [object, header, one] at count
        rw [isUnique, notSmall, getAllocationPtr_big lt, if_neg (by decide),
          if_neg (Nat.succ_ne_zero _)]
        exact congrArg (· >>= fun count => pure (count == 0 || count == 1)) count
      · simp [notSmall, hlt]
      · simp [notSmall]

theorem fromSlice_reads_new : ∃ s h,
    fromSlice bump (asBytes "the terminal has no room") ⟨fun _ => 0, ∅⟩ = .ok (s, h) ∧
      s.asStr h = .ok "the terminal has no room" ∧ s.isSmallStr = false := by
  have hw := Heap.WellFormed.empty addressSpace fun _ => 0
  have hb : Represents (Books.initial ⟨fun _ => 0, ∅⟩ ∅) :=
    Represents.initial hw fun data hd => absurd hd (Finset.notMem_empty data)
  have length : (asBytes "the terminal has no room").length = 24 := by decide
  have fits : Representable (8 + (asBytes "the terminal has no room").length) 8 := by
    rw [length]
    decide
  rcases fromSlice_reads hb bump (fromUtf8_asBytes "the terminal has no room") fits with
    ⟨-, hrefused, -⟩ | ⟨s, h, hok, -, text, -, -, -, small, -⟩
  · rw [length] at hrefused
    exact absurd hrefused (not_refuses_bump (fun _ => 0) (by decide))
  · refine ⟨s, h, hok, text, ?_⟩
    rw [length] at small
    simpa using small

end RocStr

end RocTui.Values
