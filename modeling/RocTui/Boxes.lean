import RocTui.Lists

namespace RocTui.Values

open RocTui.Lib RocTui.Lib.Blocks RocTui.Lib.Script RocTui.Lib.Words
open RocTui.Allocators RocTui.Counts

abbrev RocBox := UInt64

def boxShape (payloadAlignment : Nat) (payloadContainsRefcounted : Bool) : Shape :=
  ⟨max (if payloadContainsRefcounted then 2 * 8 else 8) payloadAlignment,
    max 8 payloadAlignment⟩

def allocateBox (sys : Global) (payloadSize payloadAlignment : Nat)
    (payloadContainsRefcounted : Bool) (h : Heap) : Except Stop (RocBox × Heap) := do
  let shape := boxShape payloadAlignment payloadContainsRefcounted
  let total ← checkedAddUsize shape.header payloadSize "Roc box allocation size overflow"
  let (data, h) ← allocateCounted sys shape total h
  pure (.ofNat data, h)

def increfBox (dataPtr : RocBox) (amount : Int) (h : Heap) : Except Stop Heap :=
  if dataPtr = 0 then pure h else increfAt dataPtr.toNat amount h

def decrefBoxWith (sys : Global) (dataPtr : RocBox) (payloadAlignment : Nat)
    (payloadContainsRefcounted : Bool) (payloadDecref : Option (Nat → Heap → Except Stop Heap))
    (h : Heap) : Except Stop Heap :=
  if dataPtr = 0 then pure h
  else decrefAt sys (boxShape payloadAlignment payloadContainsRefcounted)
    (payloadDecref.elim pure (· dataPtr.toNat)) dataPtr.toNat h

abbrev RocErasedCallable := UInt64

/-- The payload of a closure: its code, what runs when it is dropped (0 for nothing), and its
captures. -/
def rocErasedCallableAllocate (sys : Global) (callableFnPtr onDrop : UInt64) (captureSize : Nat)
    (h : Heap) : Except Stop (RocErasedCallable × Heap) := do
  let payloadSize ← checkedAddUsize 16 captureSize "Roc erased-callable payload size overflow"
  let total ← checkedAddUsize 16 payloadSize "Roc erased-callable allocation size overflow"
  let (data, h) ← allocateCounted sys ⟨16, 16⟩ total h
  let h ← writeBytes h data (leBytes 8 callableFnPtr.toNat ++ leBytes 8 onDrop.toNat)
  pure (.ofNat data, h)

/-- `call` is what calling `on_drop` does to the heap. -/
def dropErasedCallablePayload (call : Nat → Nat → Heap → Except Stop Heap) (data : Nat)
    (h : Heap) : Except Stop Heap :=
  if data = 0 then pure h
  else do
    let onDrop ← readUsize h (data + 8)
    if onDrop = 0 then pure h else call onDrop (data + 16) h

def increfErasedCallable (callable : RocErasedCallable) (amount : Int) (h : Heap) :
    Except Stop Heap :=
  increfBox callable amount h

def decrefErasedCallable (call : Nat → Nat → Heap → Except Stop Heap) (sys : Global)
    (callable : RocErasedCallable) (h : Heap) : Except Stop Heap :=
  decrefBoxWith sys callable 16 false (some (dropErasedCallablePayload call)) h

theorem boxShape_valid (h : payloadAlignment.isPowerOfTwo) (payloadContainsRefcounted : Bool) :
    (boxShape payloadAlignment payloadContainsRefcounted).Valid := by
  have list := RocListWith.listShape_valid h payloadContainsRefcounted
  have same : boxShape payloadAlignment payloadContainsRefcounted =
      RocListWith.listShape payloadAlignment payloadContainsRefcounted := by
    rw [boxShape, RocListWith.listShape, RocListWith.headerBytes, Nat.max_comm 8]
  rwa [same]

theorem toNat_dataPtr {b : Books} {st : State} {o : Object}
    (hb : Represents (b.allocated st p o ps)) :
    (UInt64.ofNat (p + o.shape.header)).toNat = p + o.shape.header := by
  have size : UInt64.size = addressSpace := rfl
  have lt := hb.data_lt (Finset.mem_insert_self _ _)
  rw [show (b.allocated st p o ps).object p = o from Function.update_self _ _ _] at lt
  exact UInt64.toNat_ofNat_of_lt' (by omega)

def BoxFits (payloadSize payloadAlignment : Nat) (payloadContainsRefcounted : Bool) : Prop :=
  payloadAlignment.isPowerOfTwo ∧
    Representable ((boxShape payloadAlignment payloadContainsRefcounted).header + payloadSize)
      (max 8 payloadAlignment)

theorem allocateBox_spec {b : Books} (hb : Represents b) (sys : Global)
    (hfits : BoxFits payloadSize payloadAlignment payloadContainsRefcounted) :
    (Refuses sys b.state.heap
        ((boxShape payloadAlignment payloadContainsRefcounted).header + payloadSize)
        (max 8 payloadAlignment) ∧
      ∃ line, allocateBox sys payloadSize payloadAlignment payloadContainsRefcounted
        b.state.heap = .error (.exit 1 line)) ∨
    ∃ p st o, allocateBox sys payloadSize payloadAlignment payloadContainsRefcounted
        b.state.heap = .ok (.ofNat (p + o.shape.header), st.heap) ∧
      p ∉ b.refs.live ∧ o.shape = boxShape payloadAlignment payloadContainsRefcounted ∧
      Represents (b.allocated st p o []) ∧ Beside b.state st := by
  have lt := hfits.2.lt
  have room : (boxShape payloadAlignment payloadContainsRefcounted).header + payloadSize <
      addressSpace := by omega
  have total := checkedAddUsize_of_lt room "Roc box allocation size overflow"
  rcases hb.allocate sys (boxShape_valid hfits.1 payloadContainsRefcounted) hfits.2
      (Nat.le_add_right _ _) [] with
    ⟨hrefused, line, hexit⟩ | ⟨p, st, o, hok, fresh, hshape, -, hrep, hbeside⟩
  · refine .inl ⟨hrefused, line, ?_⟩
    simp only [allocateBox]
    rw [total, ok_bind, hexit]
    rfl
  · right
    refine ⟨p, st, o, ?_, fresh, hshape, hrep, hbeside⟩
    simp only [allocateBox]
    rw [total, ok_bind, hok, hshape]
    rfl

def callableShape : Shape := ⟨16, 16⟩

theorem callableShape_valid : callableShape.Valid :=
  ⟨⟨4, rfl⟩, ⟨2, rfl⟩, by decide, ⟨1, rfl⟩⟩

def HoldsCallable (o : Object) (callableFnPtr onDrop : UInt64) : Prop :=
  o.shape = callableShape ∧ ∃ captures,
    o.data = leBytes 8 callableFnPtr.toNat ++ leBytes 8 onDrop.toNat ++ captures

theorem rocErasedCallableAllocate_spec {b : Books} (hb : Represents b) (sys : Global)
    (callableFnPtr onDrop : UInt64) (hfits : Representable (16 + (16 + captureSize)) 16) :
    (Refuses sys b.state.heap (16 + (16 + captureSize)) 16 ∧
      ∃ line, rocErasedCallableAllocate sys callableFnPtr onDrop captureSize b.state.heap =
        .error (.exit 1 line)) ∨
    ∃ p st o, rocErasedCallableAllocate sys callableFnPtr onDrop captureSize b.state.heap =
        .ok (.ofNat (p + 16), st.heap) ∧
      p ∉ b.refs.live ∧ HoldsCallable o callableFnPtr onDrop ∧
      Represents (b.allocated st p o []) ∧ Beside b.state st := by
  have lt := hfits.lt
  have room : 16 + captureSize < addressSpace := by omega
  have room' : 16 + (16 + captureSize) < addressSpace := by omega
  have size := checkedAddUsize_of_lt room "Roc erased-callable payload size overflow"
  have total := checkedAddUsize_of_lt room' "Roc erased-callable allocation size overflow"
  rcases hb.allocate sys callableShape_valid hfits (Nat.le_add_right _ _) [] with
    ⟨hrefused, line, hexit⟩ | ⟨p, st, o, hok, fresh, hshape, hlen, hrep, hbeside⟩
  · refine .inl ⟨hrefused, line, ?_⟩
    rw [rocErasedCallableAllocate, size, ok_bind, total, ok_bind]
    exact congrArg (· >>= _) hexit
  · right
    have room : (leBytes 8 callableFnPtr.toNat ++ leBytes 8 onDrop.toNat).length ≤
        o.data.length := by
      simp only [callableShape] at hlen
      simp only [List.length_append, length_leBytes]
      omega
    obtain ⟨st', hwrite, hrep', hbeside'⟩ := hrep.fillPrefix room
    let payload := leBytes 8 callableFnPtr.toNat ++ leBytes 8 onDrop.toNat
    refine ⟨p, st', { o with data := payload ++ o.data.drop payload.length }, ?_, fresh,
      ⟨hshape, _, rfl⟩, hrep', hbeside.trans hbeside'⟩
    rw [hshape] at hwrite
    have hok' : allocateCounted sys ⟨16, 16⟩ (16 + (16 + captureSize)) b.state.heap =
        .ok (p + 16, st.heap) := hok
    rw [rocErasedCallableAllocate, size, ok_bind, total, ok_bind, hok', ok_bind]
    exact congrArg (· >>= fun h => pure (UInt64.ofNat (p + 16), h)) hwrite

end RocTui.Values
