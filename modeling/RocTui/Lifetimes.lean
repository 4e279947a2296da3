import RocTui.Owners

namespace RocTui.Owners

open RocTui.Lib RocTui.Lib.Blocks RocTui.Lib.Script RocTui.Lib.Words
open RocTui.Allocators RocTui.Counts RocTui.Values

theorem slice_slice {α : Type} (xs : List α) {i n j m : Nat} (h : i + n ≤ m) :
    (((xs.drop j).take m).drop i).take n = (xs.drop (j + i)).take n := by
  rw [List.drop_take, List.take_take, List.drop_drop, Nat.min_eq_left (by omega)]

/-- What an owner asks of the helpers: a new value, or a count changed.  The items of a new list
are taken from the values of the owner. -/
inductive Op (T : Type)
  | str (slice : List UInt8)
  | bytes (slice : List UInt8)
  | items (slice : List T) (moved : List Entry)
  | box (payloadSize payloadAlignment : Nat) (payloadContainsRefcounted : Bool)
  | callable (callableFnPtr : UInt64) (captureSize : Nat)
  | incref (entry : Entry) (amount : Nat)
  | decref (entry : Entry)

/-- The owners of values, and the heap they share with the rest of the process. -/
structure Holders where
  heap : Heap
  owned : List Entry
  others : Finset Block
  statics : Finset Nat

section

variable {T : Type} (e : Elem T) (leaves : T → List Leaf) (call : OnDrop) (sys : Global)

def Value.length : Value → Nat
  | .leaf (.str s) => s.length.toNat
  | .leaf (.bytes l) => l.length.toNat
  | .items l => l.length.toNat
  | _ => 0

def Value.stride : Value → Nat
  | .items _ => e.size
  | _ => 1

def Value.slice (i n : Nat) : Value → Value
  | .leaf (.str s) => .leaf (.str (s.sliceOf i n))
  | .leaf (.bytes l) => .leaf (.bytes (RocListWith.sliceOf byteElem l i n))
  | .items l => .items (RocListWith.sliceOf e l i n)
  | v => v

def sliceEntry (i n : Nat) (entry : Entry) : Entry :=
  (entry.1.slice e i n,
    (entry.2.drop (i * entry.1.stride e)).take (n * entry.1.stride e))

def Op.perform (h : Heap) : Op T → Except Stop (Option Value × Heap)
  | .str slice => do
    let (s, h) ← RocStr.fromSlice sys slice h
    pure (some (.leaf (.str s)), h)
  | .bytes slice => do
    let (l, h) ← RocListWith.fromSlice byteElem false sys slice h
    pure (some (.leaf (.bytes l)), h)
  | .items slice _ => do
    let (l, h) ← RocListWith.fromSlice e true sys slice h
    pure (some (.items l), h)
  | .box payloadSize payloadAlignment payloadContainsRefcounted => do
    let (ptr, h) ← allocateBox sys payloadSize payloadAlignment payloadContainsRefcounted h
    pure (some (.leaf (.box payloadAlignment payloadContainsRefcounted ptr)), h)
  | .callable callableFnPtr captureSize => do
    let (ptr, h) ← rocErasedCallableAllocate sys callableFnPtr 0 captureSize h
    pure (some (.leaf (.callable ptr)), h)
  | .incref entry amount => do
    let h ← entry.1.incref amount h
    pure (none, h)
  | .decref entry => do
    let h ← entry.1.decref e leaves call sys h
    pure (none, h)

def Op.shows : Op T → List UInt8
  | .str slice => slice
  | .bytes slice => slice
  | .items slice _ => e.bytesOf slice
  | _ => []

def Op.gains : Op T → List Entry
  | .incref entry amount => List.replicate amount entry
  | _ => []

def Op.spends : Op T → List Entry
  | .items _ moved => moved
  | .decref entry => [entry]
  | _ => []

def Op.settle (op : Op T) (made : Option Value) (owned : List Entry) : List Entry :=
  (made.map fun v => (v, op.shows e)).toList ++ op.gains ++ owned.diff op.spends

def Op.Permitted (o : Holders) : Op T → Prop
  | .str slice => (fromUtf8 slice).isSome ∧ Representable (8 + slice.length) 8
  | .bytes slice => RocListWith.Fits byteElem false slice.length
  | .items slice moved => RocListWith.Fits e true slice.length ∧
    moved.map Prod.fst = (slice.flatMap leaves).map .leaf ∧ moved.Subperm o.owned
  | .box payloadSize payloadAlignment payloadContainsRefcounted =>
    BoxFits payloadSize payloadAlignment payloadContainsRefcounted
  | .callable _ captureSize => Representable (16 + (16 + captureSize)) 16
  | .incref entry amount => entry ∈ o.owned ∧
    ∀ data shape count, entry.1.target e = some (data, shape) →
      readUsize o.heap (data - 8) = .ok count → count + amount < 2 ^ 63
  | .decref entry => entry ∈ o.owned

/-- The system allocator has no memory for the operation.  Counts change in place, and there is
always room to give memory back. -/
def Op.Refused (h : Heap) : Op T → Prop
  | .str slice => 24 ≤ slice.length ∧ Refuses sys h (8 + slice.length) 8
  | .bytes slice => slice ≠ [] ∧ RocListWith.Refused byteElem false sys slice.length h
  | .items slice _ => slice ≠ [] ∧ RocListWith.Refused e true sys slice.length h
  | .box payloadSize payloadAlignment payloadContainsRefcounted => Refuses sys h
    ((boxShape payloadAlignment payloadContainsRefcounted).header + payloadSize)
    (max 8 payloadAlignment)
  | .callable _ captureSize => Refuses sys h (16 + (16 + captureSize)) 16
  | .incref _ _ => False
  | .decref _ => False

variable {e leaves} {b : Books} {kids : Nat → List Leaf} {owned : List Entry}

theorem Leaf.target_str {s : RocStr} (hs : s.isSmallStr = false)
    (hp : s.getAllocationPtr = data) (hpos : data ≠ 0) :
    Leaf.target (.str s) = some (data, RocStr.strShape) := by
  rw [Leaf.target, hs, hp]
  exact if_neg (by simpa using hpos)

theorem View.reads {v : Value} {bytes : List UInt8} (hv : View e leaves b kids p v bytes)
    (hb : Represents b) (ht : v.target e = some (data, shape)) (hp : Points b data shape p) :
    Reads e b.state.heap v bytes := by
  match v, hv with
  | .leaf (.str s), ⟨notSmall, off, start, length, inside, shown⟩ =>
    have shape_eq : (b.object p).shape = RocStr.strShape := by
      rw [hp.shape_eq]
      simp only [Value.target, Leaf.target, Option.ite_none_left_eq_some, Option.some.injEq,
        Prod.mk.injEq] at ht
      exact ht.2.2.symm
    have loaded := hb.load_data hp.live inside
    rw [shape_eq, shown] at loaded
    have loaded' : b.state.heap.load (p + 8 + off) bytes.length = some bytes := loaded
    have len : s.len = bytes.length := by
      rw [RocStr.len, notSmall]
      exact length
    rw [Reads, RocStr.asSlice, notSmall, if_neg Bool.false_ne_true, len, start, loaded']
    rfl
  | .leaf (.bytes l), ⟨xs, i, n, hl, hs, hi, shown⟩ =>
    rw [Reads, hs.asSlice_eq hl hb hi, shown]
  | .leaf (.box _ _ _), _ => trivial
  | .leaf (.callable _), _ => trivial
  | .items l, ⟨xs, i, n, hl, hs, _, hi, shown, _⟩ =>
    exact ⟨_, hs.asSlice_eq hl hb hi, shown⟩

theorem View.slice {v : Value} {bytes : List UInt8} (hv : View e leaves b kids p v bytes)
    (hb : Represents b) (ht : v.target e = some (data, shape)) (hp : Points b data shape p)
    (hin : i + n ≤ v.length) :
    (v.slice e i n).target e = some (data, shape) ∧
      View e leaves b kids p (v.slice e i n)
        ((bytes.drop (i * v.stride e)).take (n * v.stride e)) := by
  match v, hv with
  | .leaf (.str s), ⟨notSmall, off, start, length, inside, shown⟩ =>
    obtain ⟨-, ptr, shape_eq⟩ : _ ∧ s.getAllocationPtr = data ∧ RocStr.strShape = shape := by
      simpa only [Value.target, Leaf.target, Option.ite_none_left_eq_some, Option.some.injEq,
        Prod.mk.injEq] using ht
    have header : (b.object p).shape.header = 8 := by rw [hp.shape_eq, ← shape_eq]; rfl
    have data_eq : data = p + 8 := by rw [hp.data_eq, ← shape_eq]; rfl
    have lt := hb.data_lt hp.live
    have dvd := (hb.header_dvd hp.live).1
    rw [header] at lt dvd
    have hin' : i + n ≤ s.length.toNat := hin
    have hn : n ≤ s.length.toNat := by omega
    have small := RocStr.isSmallStr_sliceOf (i := i) notSmall hn
    have alloc := RocStr.getAllocationPtr_sliceOf (i := i) notSmall (data_eq ▸ dvd) (by omega)
      ptr hn
    have size : UInt64.size = addressSpace := rfl
    have taken : ((bytes.drop (i * 1)).take (n * 1)).length = n := by
      rw [Nat.mul_one, Nat.mul_one, List.length_take_of_le]
      rw [List.length_drop]
      omega
    refine ⟨?_, small.1, off + i, ?_, ?_, ?_, ?_⟩
    · rw [← shape_eq]
      exact Leaf.target_str small.1 alloc (by omega)
    · rw [RocStr.sliceOf, start, ← Nat.add_assoc]
      exact UInt64.toNat_ofNat_of_lt' (by omega)
    · exact small.2.trans taken.symm
    · change _ + ((bytes.drop (i * 1)).take (n * 1)).length ≤ _
      omega
    · change List.take ((bytes.drop (i * 1)).take (n * 1)).length _ =
        (bytes.drop (i * 1)).take (n * 1)
      rw [taken, Nat.mul_one, Nat.mul_one,
        ← slice_slice (b.object p).data (m := bytes.length) (by omega), shown]
  | .leaf (.bytes l), ⟨xs, j, m, hl, hs, hj, shown⟩ =>
    have hin' : i + n ≤ m := hs.length ▸ hin
    have part := hs.slice hl hb hj hin'
    obtain ⟨-, ptr, shape_eq⟩ : _ ∧ l.getAllocationPtr = data ∧
        RocListWith.listShape 1 false = shape := by
      simpa only [Value.target, Leaf.target, Option.ite_none_left_eq_some, Option.some.injEq,
        Prod.mk.injEq] using ht
    have pos := RocListWith.eight_le_headerBytes byteElem.align false
    refine ⟨?_, xs, j + i, n, hl, part, by omega, ?_⟩
    · rw [← shape_eq, ← ptr, hs.allocation, ← part.allocation]
      refine if_neg (not_or.mpr ⟨part.elements_ne, ?_⟩)
      rw [part.allocation]
      omega
    · change _ = (bytes.drop (i * 1)).take (n * 1)
      rw [Nat.mul_one, Nat.mul_one, ← shown, slice_slice xs hin']
  | .leaf (.box _ _ _), _ => exact ⟨ht, trivial⟩
  | .leaf (.callable _), hv => exact ⟨ht, hv⟩
  | .items l, ⟨xs, j, m, hl, hs, hwhole, hj, shown, hkids⟩ =>
    have hin' : i + n ≤ m := hs.length ▸ hin
    have part := hs.slice hl hb hj hin'
    obtain ⟨-, ptr, shape_eq⟩ : _ ∧ l.getAllocationPtr = data ∧
        RocListWith.listShape e.align true = shape := by
      simpa only [Value.target, Option.ite_none_left_eq_some, Option.some.injEq,
        Prod.mk.injEq] using ht
    have pos := RocListWith.eight_le_headerBytes e.align true
    refine ⟨?_, xs, j + i, n, hl, part,
      .inl (RocListWith.isSeamlessSlice_sliceOf hl hb hs i n).1, by omega, ?_, hkids⟩
    · rw [← shape_eq, ← ptr, hs.allocation, ← part.allocation]
      refine if_neg (not_or.mpr ⟨part.elements_ne, ?_⟩)
      rw [part.allocation]
      omega
    · change _ = (bytes.drop (i * e.size)).take (n * e.size)
      rw [← shown, e.drop_bytesOf, e.take_bytesOf, slice_slice xs hin']

theorem Keeps.made {st : State} {o : Object} {l : Leaf} {bytes : List UInt8}
    (hk : Keeps e leaves b kids owned) (hrep : Represents (b.allocated st p o []))
    (fresh : p ∉ b.refs.live) (htarget : l.target = some (p + o.shape.header, o.shape))
    (hview : View e leaves (b.allocated st p o []) (Function.update kids p []) p (.leaf l)
      bytes) :
    Keeps e leaves (b.allocated st p o []) (Function.update kids p [])
      ((.leaf l, bytes) :: owned) := by
  have none : ∀ k ∈ ([] : List Leaf), LeafFits b k ∧ ∀ q ∈ address b.statics k.target,
      q ∈ b.refs.live ∧ kids q = [] := nofun
  exact hk.allocated hrep fresh (List.Perm.refl _) (fun _ he => he) none htarget hview fun _ => rfl

variable (e leaves) in
def Answered (op : Op T) (b : Books) (owned : List Entry) : Prop :=
  (op.Refused e sys b.state.heap ∧
    ∃ line, op.perform e leaves call sys b.state.heap = .error (.exit 1 line)) ∨
  ∃ made b' kids', op.perform e leaves call sys b.state.heap = .ok (made, b'.state.heap) ∧
    Keeps e leaves b' kids' (op.settle e made owned) ∧ b'.statics = b.statics ∧
    Beside b.state b'.state

theorem answered_str (hk : Keeps e leaves b kids owned) {slice : List UInt8}
    (hutf : (fromUtf8 slice).isSome) (hrep : Representable (8 + slice.length) 8) :
    Answered e leaves call sys (.str slice) b owned := by
  by_cases hlt : slice.length < 24
  · right
    have hok := RocStr.fromSlice_small sys b.state.heap hutf hlt
    refine ⟨some (.leaf (.str (RocStr.small slice))), b, kids, ?_, ?_, rfl, Beside.rfl⟩
    · rw [Op.perform, hok, ok_bind]
      rfl
    · have target : Value.target e (.leaf (.str (RocStr.small slice))) = none :=
        if_pos (.inl (RocStr.isSmallStr_small hlt))
      refine hk.extend ?_ (by rw [target]; rfl)
      unfold ValueFits
      rw [target]
      exact ⟨fun h => RocStr.asSlice_small h hlt, nofun⟩
  · rcases RocStr.fromSlice_big hk.represents sys hutf hlt hrep with
      ⟨hrefused, line, hexit⟩ | ⟨p, st, o, hok, fresh, hshape, hdata, hrep', hbeside⟩
    · refine .inl ⟨⟨Nat.le_of_not_lt hlt, hrefused⟩, line, ?_⟩
      rw [Op.perform, hexit]
      rfl
    · right
      have object : (b.allocated st p o []).object p = o := Function.update_self _ _ _
      have lt : p + 8 + slice.length < addressSpace := by
        have lt := hrep'.data_lt (Finset.mem_insert_self _ _)
        rwa [object, hshape, hdata] at lt
      have small : slice.length < 2 ^ 63 := by
        have fits := hrep.2.2
        simp only [userLayout, isizeMax] at fits
        omega
      have notSmall := RocStr.big_isSmallStr lt small
      have made : Keeps e leaves (b.allocated st p o []) (Function.update kids p [])
          ((.leaf (.str (RocStr.big (p + 8) slice.length)), slice) :: owned) := by
        refine hk.made hrep' fresh ?_ ⟨notSmall, 0, ?_⟩
        · rw [Leaf.target, notSmall, RocStr.getAllocationPtr_big lt, hshape]
          exact if_neg (by simp)
        · rw [object, hdata]
          refine ⟨(RocStr.toNat_big lt).1, (RocStr.toNat_big lt).2, by omega, ?_⟩
          rw [List.drop_zero, List.take_length]
      refine ⟨some (.leaf (.str (RocStr.big (p + 8) slice.length))), b.allocated st p o [],
        Function.update kids p [], ?_, made, rfl, hbeside⟩
      rw [Op.perform, hok, ok_bind]
      rfl

theorem answered_bytes (hk : Keeps e leaves b kids owned) {slice : List UInt8}
    (hfits : RocListWith.Fits byteElem false slice.length) :
    Answered e leaves call sys (.bytes slice) b owned := by
  by_cases hempty : slice = []
  · right
    subst hempty
    refine ⟨some (.leaf (.bytes RocListWith.empty)), b, kids, rfl, ?_, rfl, Beside.rfl⟩
    have target : Value.target e (.leaf (.bytes RocListWith.empty)) = none := rfl
    refine hk.extend ?_ (by rw [target]; rfl)
    unfold ValueFits
    rw [target]
    exact ⟨fun h => rfl, nofun⟩
  · rcases RocListWith.fromSlice_spec byteElem hk.represents sys false hempty hfits with
      ⟨hrefused, line, hexit⟩ | ⟨p, st, o, hok, fresh, hshape, hdata, hcounts, hrep, hbeside⟩
    · refine .inl ⟨⟨hempty, hrefused⟩, line, ?_⟩
      rw [Op.perform, hexit]
      rfl
    · right
      have object : (b.allocated st p o []).object p = o := Function.update_self _ _ _
      have hl : RocListWith.HoldsList byteElem (b.allocated st p o []) false p slice :=
        ⟨Finset.mem_insert_self _ _, by rw [object, hshape], by rw [object, hdata],
          by rwa [object], hfits.1⟩
      have shows := RocListWith.Shows.whole hl hrep
      have pos := RocListWith.eight_le_headerBytes byteElem.align false
      let l := RocListWith.whole (p + RocListWith.headerBytes byteElem.align false) slice.length
      have made : Keeps e leaves (b.allocated st p o []) (Function.update kids p [])
          ((.leaf (.bytes l), slice) :: owned) := by
        refine hk.made hrep fresh ?_ ⟨slice, 0, slice.length, hl, shows, by omega, ?_⟩
        · rw [Leaf.target, shows.allocation, hshape]
          exact if_neg (not_or.mpr ⟨shows.elements_ne, by omega⟩)
        · rw [List.drop_zero, List.take_length]
      refine ⟨some (.leaf (.bytes l)), b.allocated st p o [], Function.update kids p [], ?_, made,
        rfl, hbeside⟩
      rw [Op.perform, hok, ok_bind]
      rfl

theorem answered_box (hk : Keeps e leaves b kids owned)
    (hfits : BoxFits payloadSize payloadAlignment payloadContainsRefcounted) :
    Answered e leaves call sys
      (.box payloadSize payloadAlignment payloadContainsRefcounted) b owned := by
  rcases allocateBox_spec hk.represents sys hfits with
    ⟨hrefused, line, hexit⟩ | ⟨p, st, o, hok, fresh, hshape, hrep, hbeside⟩
  · refine .inl ⟨hrefused, line, ?_⟩
    rw [Op.perform, hexit]
    rfl
  · right
    have ptr := toNat_dataPtr hrep
    have room := (Represents.valid_allocated hrep).shape.room
    have ne : UInt64.ofNat (p + o.shape.header) ≠ 0 := by
      intro heq
      rw [heq] at ptr
      change 0 = _ at ptr
      omega
    refine ⟨some (.leaf (.box payloadAlignment payloadContainsRefcounted
      (.ofNat (p + o.shape.header)))), b.allocated st p o [], Function.update kids p [], ?_, ?_,
      rfl, hbeside⟩
    · rw [Op.perform, hok, ok_bind]
      rfl
    · refine hk.made hrep fresh ?_ trivial
      rw [Leaf.target, ptr, ← hshape]
      exact if_neg ne

theorem answered_callable (hk : Keeps e leaves b kids owned) (callableFnPtr : UInt64)
    (hfits : Representable (16 + (16 + captureSize)) 16) :
    Answered e leaves call sys (.callable callableFnPtr captureSize) b
      owned := by
  rcases rocErasedCallableAllocate_spec hk.represents sys callableFnPtr 0 hfits with
    ⟨hrefused, line, hexit⟩ | ⟨p, st, o, hok, fresh, hholds, hrep, hbeside⟩
  · refine .inl ⟨hrefused, line, ?_⟩
    rw [Op.perform, hexit]
    rfl
  · right
    have ptr := toNat_dataPtr hrep
    rw [hholds.1] at ptr
    have ptr' : (UInt64.ofNat (p + 16)).toNat = p + 16 := ptr
    have ne : UInt64.ofNat (p + 16) ≠ 0 := by
      intro heq
      rw [heq] at ptr'
      change 0 = _ at ptr'
      omega
    refine ⟨some (.leaf (.callable (.ofNat (p + 16)))), b.allocated st p o [],
      Function.update kids p [], ?_, ?_, rfl, hbeside⟩
    · rw [Op.perform, hok, ok_bind]
      rfl
    · refine hk.made hrep fresh ?_ ⟨callableFnPtr, ?_⟩
      · rw [Leaf.target, ptr', hholds.1]
        exact if_neg ne
      · rw [show (b.allocated st p o []).object p = o from Function.update_self _ _ _]
        exact hholds

theorem roots_moved {ks : List Leaf} {moved : List Entry} (statics : Finset Nat)
    (hmoved : moved.map Prod.fst = ks.map .leaf) (hsub : moved.Subperm owned) :
    (roots e statics owned).Perm
      (addresses statics ks ++ roots e statics (owned.diff moved)) := by
  have split : (moved ++ owned.diff moved).Perm owned :=
    List.subperm_append_diff_self_of_count_le fun entry _ => hsub.count_le entry
  have same : roots e statics moved = addresses statics ks := by
    have values := congrArg (List.flatMap fun v => address statics (Value.target e v)) hmoved
    rwa [List.flatMap_map, List.flatMap_map] at values
  have all := (split.symm.flatMap_right fun entry => address statics (entry.1.target e))
  rw [List.flatMap_append] at all
  rw [← same]
  exact all

theorem answered_items (hk : Keeps e leaves b kids owned) {slice : List T} {moved : List Entry}
    (hfits : RocListWith.Fits e true slice.length)
    (hmoved : moved.map Prod.fst = (slice.flatMap leaves).map .leaf)
    (hsub : moved.Subperm owned) :
    Answered e leaves call sys (.items slice moved) b owned := by
  by_cases hempty : slice = []
  · right
    subst hempty
    obtain rfl : moved = [] := by simpa using hmoved
    refine ⟨some (.items RocListWith.empty), b, kids, rfl, ?_, rfl, Beside.rfl⟩
    have target : Value.target e (.items RocListWith.empty) = none := rfl
    refine hk.extend ?_ (by rw [target]; rfl)
    unfold ValueFits
    rw [target]
    refine ⟨fun h => ⟨[], rfl, rfl⟩, fun l hl => ?_⟩
    cases hl
    rfl
  · rcases RocListWith.fromSlice_spec e hk.represents sys true hempty hfits with
      ⟨hrefused, line, hexit⟩ | ⟨p, st, o, hok, fresh, hshape, hdata, hcounts, hrep, hbeside⟩
    · refine .inl ⟨⟨hempty, hrefused⟩, line, ?_⟩
      rw [Op.perform, hexit]
      rfl
    · right
      let ks := slice.flatMap leaves
      have stored := hrep.storing (addresses b.statics ks)
      have object : (b.allocated st p o (addresses b.statics ks)).object p = o :=
        Function.update_self _ _ _
      have hl : RocListWith.HoldsList e (b.allocated st p o (addresses b.statics ks)) true p
          slice :=
        ⟨Finset.mem_insert_self _ _, by rw [object, hshape], by rw [object, hdata],
          by rwa [object], hfits.1⟩
      have shows := RocListWith.Shows.whole hl stored
      have pos := RocListWith.eight_le_headerBytes e.align true
      let l := RocListWith.whole (p + RocListWith.headerBytes e.align true) slice.length
      have fits : ∀ k ∈ ks, LeafFits b k ∧ ∀ q ∈ address b.statics k.target,
          q ∈ b.refs.live ∧ kids q = [] := by
        intro k hk'
        have mem : Value.leaf k ∈ moved.map Prod.fst := by
          rw [hmoved]
          exact List.mem_map_of_mem hk'
        obtain ⟨⟨v, bytes⟩, he, rfl⟩ := List.mem_map.mp mem
        have own := hsub.subset he
        obtain ⟨hfit, none⟩ := (hk.fits _ own).leaf hk.represents
        exact ⟨hfit, fun q hq => ⟨hk.live_of_owned own hq, none q hq⟩⟩
      have made : Keeps e leaves (b.allocated st p o (addresses b.statics ks))
          (Function.update kids p ks)
          ((.items l, e.bytesOf slice) :: owned.diff moved) := by
        refine hk.allocated stored fresh (roots_moved b.statics hmoved hsub)
          (fun entry he => List.diff_subset _ _ he) fits ?_
          ⟨slice, 0, slice.length, hl, shows, .inr rfl, by omega, ?_, ?_⟩ nofun
        · rw [Value.target, shows.allocation, hshape]
          exact if_neg (not_or.mpr ⟨shows.elements_ne, by omega⟩)
        · rw [List.drop_zero, List.take_length]
        · exact Function.update_self _ _ _
      refine ⟨some (.items l), b.allocated st p o (addresses b.statics ks),
        Function.update kids p ks, ?_, made, rfl, hbeside⟩
      rw [Op.perform, hok, ok_bind]
      rfl

theorem answered_incref (hk : Keeps e leaves b kids owned) {entry : Entry} {amount : Nat}
    (he : entry ∈ owned) (hn : ∀ data shape count, entry.1.target e = some (data, shape) →
      readUsize b.state.heap (data - 8) = .ok count → count + amount < 2 ^ 63) :
    Answered e leaves call sys (.incref entry amount) b owned := by
  have fits : ∀ p ∈ address b.statics (entry.1.target e),
      b.refs.count p + amount < 2 ^ 63 := by
    intro p hp
    have hfit := hk.fits entry he
    unfold ValueFits at hfit
    cases ht : entry.1.target e with
    | none =>
      rw [ht] at hp
      cases hp
    | some t =>
      obtain ⟨data, shape⟩ := t
      rw [ht] at hp hfit
      rcases hfit with hstatic | ⟨q, hq, -, -⟩
      · rw [address, if_pos hstatic] at hp
        cases hp
      · rw [hq.address_eq hk.represents, List.mem_singleton] at hp
        subst hp
        have count := hk.represents.read_count hq.live
        rw [hq.shape_eq, ← hq.data_eq] at count
        exact hn data shape _ ht count
  obtain ⟨b', hok, hk', statics, hbeside⟩ := hk.incref he fits
  refine .inr ⟨none, b', kids, ?_, hk', statics, hbeside⟩
  rw [Op.perform, hok]
  rfl

theorem answered_decref (hk : Keeps e leaves b kids owned) {entry : Entry} (he : entry ∈ owned) :
    Answered e leaves call sys (.decref entry) b owned := by
  obtain ⟨b', hok, hk', statics, hbeside⟩ :=
    (hk.perm (List.perm_cons_erase he)).decref call sys
  refine .inr ⟨none, b', kids, ?_, ?_, statics, hbeside⟩
  · rw [Op.perform, hok]
    rfl
  · rw [Op.settle, Op.spends, List.diff_cons, List.diff_nil]
    exact hk'

theorem answered (hk : Keeps e leaves b kids owned) {op : Op T}
    (hp : op.Permitted e leaves ⟨b.state.heap, owned, b.state.others, b.statics⟩) :
    Answered e leaves call sys op b owned := by
  cases op with
  | str slice => exact answered_str call sys hk hp.1 hp.2
  | bytes slice => exact answered_bytes call sys hk hp
  | items slice moved => exact answered_items call sys hk hp.1 hp.2.1 hp.2.2
  | box size align refcounted => exact answered_box call sys hk hp
  | callable callableFnPtr captureSize => exact answered_callable call sys hk callableFnPtr hp
  | incref entry amount => exact answered_incref call sys hk hp.1 hp.2
  | decref entry => exact answered_decref call sys hk hp

variable (e leaves) in
/-- The owners go on in any order.  Compiled code also takes parts of values and hands over values
in static data, and the rest of the process keeps to blocks of its own. -/
inductive Step : Holders → List (Op T) → Holders → Prop
  | call (hp : op.Permitted e leaves o)
    (hcall : op.perform e leaves call sys o.heap = .ok (made, h)) :
    Step o [op] { o with heap := h, owned := op.settle e made o.owned }
  | slice (howned : entry ∈ o.owned) (htarget : entry.1.target e = some (data, shape))
    (hcounted : data ∉ o.statics) (hin : i + n ≤ entry.1.length) :
    Step o [] { o with owned := sliceEntry e i n entry :: o.owned.erase entry }
  | static (htarget : entry.1.target e = some (data, shape)) (hstatic : data ∈ o.statics) :
    Step o [] { o with owned := entry :: o.owned }
  | other (hw : h.WellFormed addressSpace) (live : h.live = o.heap.live \ o.others ∪ others)
    (apart : Disjoint (o.heap.live \ o.others) others)
    (agree : ∀ b ∈ o.heap.live \ o.others, b.Agree o.heap.mem h.mem)
    (statics : ∀ data ∈ o.statics, IsStatic ⟨h, fun _ => none, others⟩ data) :
    Step o [] { o with heap := h, others := others }

def Holders.initial (h : Heap) (statics : Finset Nat) : Holders := ⟨h, [], h.live, statics⟩

variable (e leaves) in
def Kept (o : Holders) : Prop :=
  ∃ b kids, Keeps e leaves b kids o.owned ∧ b.state.heap = o.heap ∧
    b.state.others = o.others ∧ b.statics = o.statics

theorem Kept.answered {o : Holders} (hk : Kept e leaves o) {op : Op T}
    (hp : op.Permitted e leaves o) :
    (op.Refused e sys o.heap ∧
      ∃ line, op.perform e leaves call sys o.heap = .error (.exit 1 line)) ∨
    ∃ made h, op.perform e leaves call sys o.heap = .ok (made, h) ∧
      Kept e leaves { o with heap := h, owned := op.settle e made o.owned } ∧
      ∀ block ∈ o.others, block ∈ h.live ∧ block.Agree o.heap.mem h.mem := by
  obtain ⟨heap, owned, others, statics⟩ := o
  obtain ⟨b, kids, hk, rfl, rfl, rfl⟩ := hk
  rcases RocTui.Owners.answered call sys hk hp with
    hexit | ⟨made, b', kids', hok, hk', statics, hbeside⟩
  · exact .inl hexit
  · refine .inr ⟨made, b'.state.heap, hok, ⟨b', kids', hk', rfl, hbeside.others, statics⟩,
      fun block hblock => ⟨?_, hbeside.agree block hblock⟩⟩
    exact hk'.represents.refines.others (hbeside.others ▸ hblock)

theorem Kept.slice {o : Holders} {entry : Entry} (hk : Kept e leaves o)
    (howned : entry ∈ o.owned) (htarget : entry.1.target e = some (data, shape))
    (hcounted : data ∉ o.statics) (hin : i + n ≤ entry.1.length) :
    Kept e leaves { o with owned := sliceEntry e i n entry :: o.owned.erase entry } := by
  obtain ⟨heap, owned, others, statics⟩ := o
  obtain ⟨b, kids, hk, rfl, rfl, rfl⟩ := hk
  have fits := hk.fits entry howned
  unfold ValueFits at fits
  rw [htarget] at fits
  obtain ⟨p, hp, hview, hleaf⟩ := fits.resolve_left hcounted
  obtain ⟨target, view⟩ := hview.slice hk.represents htarget hp hin
  have isLeaf : (entry.1.slice e i n).isLeaf = entry.1.isLeaf := by
    match entry.1 with
    | .leaf (.str _) | .leaf (.bytes _) | .leaf (.box _ _ _) | .leaf (.callable _) => rfl
    | .items _ => rfl
  refine ⟨b, kids, (hk.perm (List.perm_cons_erase howned)).replace ?_ ?_, rfl, rfl, rfl⟩
  · unfold ValueFits
    rw [show Value.target e (sliceEntry e i n entry).1 = some (data, shape) from target]
    refine .inr ⟨p, hp, view, fun hl => hleaf ?_⟩
    rw [← isLeaf]
    exact hl
  · rw [show Value.target e (sliceEntry e i n entry).1 = some (data, shape) from target, htarget]

theorem Kept.static {o : Holders} {entry : Entry} (hk : Kept e leaves o)
    (htarget : entry.1.target e = some (data, shape)) (hstatic : data ∈ o.statics) :
    Kept e leaves { o with owned := entry :: o.owned } := by
  obtain ⟨heap, owned, others, statics⟩ := o
  obtain ⟨b, kids, hk, rfl, rfl, rfl⟩ := hk
  refine ⟨b, kids, hk.extend ?_ ?_, rfl, rfl, rfl⟩
  · unfold ValueFits
    rw [htarget]
    exact .inl hstatic
  · rw [htarget]
    exact if_pos hstatic

theorem Kept.other {o : Holders} {others : Finset Block} (hk : Kept e leaves o)
    (hw : h.WellFormed addressSpace) (live : h.live = o.heap.live \ o.others ∪ others)
    (apart : Disjoint (o.heap.live \ o.others) others)
    (agree : ∀ b ∈ o.heap.live \ o.others, b.Agree o.heap.mem h.mem)
    (hstatics : ∀ data ∈ o.statics, IsStatic ⟨h, fun _ => none, others⟩ data) :
    Kept e leaves { o with heap := h, others := others } := by
  obtain ⟨heap, owned, others', statics⟩ := o
  obtain ⟨b, kids, hk, rfl, rfl, rfl⟩ := hk
  have refines := hk.represents.refines.other hw live apart agree
  have represents : Represents { b with state := ⟨h, b.state.store, others⟩ } :=
    ⟨refines, hk.represents.counted, hk.represents.complete, fun data hdata =>
      let static := hstatics data hdata
      ⟨static.aligned, static.past, static.covered, static.zero⟩⟩
  exact ⟨{ b with state := ⟨h, b.state.store, others⟩ }, kids,
    hk.change (fun _ he => he) represents rfl rfl rfl (Finset.Subset.refl _) hk.balanced, rfl, rfl,
    rfl⟩

theorem Kept.initial (hw : h.WellFormed addressSpace)
    (hstatics : ∀ data ∈ statics, IsStatic (State.initial h) data) :
    Kept e leaves (Holders.initial h statics) := by
  refine ⟨Books.initial h statics, fun _ => [], ⟨Represents.initial hw hstatics,
    ⟨fun p hp => absurd rfl hp, fun p hp => ?_⟩, fun p hp => absurd hp (Finset.notMem_empty p),
    fun p hp => absurd hp (Finset.notMem_empty p),
    fun entry he => absurd he List.not_mem_nil⟩, rfl, rfl, rfl⟩
  simp [Books.initial, RefHeap.references, roots, Holders.initial] at hp

theorem Kept.step {o o' : Holders} {es : List (Op T)} (hk : Kept e leaves o)
    (hs : Step e leaves call sys o es o') : Kept e leaves o' := by
  cases hs with
  | call hp hcall =>
    rcases hk.answered call sys hp with ⟨-, line, hexit⟩ | ⟨made', h', hok, hk', -⟩
    · rw [hexit] at hcall
      cases hcall
    · rw [hok] at hcall
      cases hcall
      exact hk'
  | slice howned htarget hcounted hin => exact hk.slice howned htarget hcounted hin
  | static htarget hstatic => exact hk.static htarget hstatic
  | other hw live apart agree statics => exact hk.other hw live apart agree statics

theorem kept (hw : h.WellFormed addressSpace)
    (hstatics : ∀ data ∈ statics, IsStatic (State.initial h) data)
    (hrun : Run (Step e leaves call sys) (Holders.initial h statics) log o) : Kept e leaves o :=
  Run.invariant (I := fun _ o => Kept e leaves o) (Kept.initial hw hstatics)
    (fun hk hs => hk.step call sys hs) hrun

theorem Keeps.none_live (hk : Keeps e leaves b kids []) : b.refs.live = ∅ := by
  have parent {p : Nat} (hp : p ∈ b.refs.live) :
      ∃ q ∈ b.refs.live, p ∈ b.refs.children q := by
    have count := (hk.represents.counted p hp).1
    have pos : 0 < ∑ q ∈ b.refs.live, (b.refs.children q).count p := by
      have refs := hk.balanced.count_pos count
      rwa [RefHeap.references, roots, List.flatMap_nil, List.count_nil, Nat.zero_add] at refs
    obtain ⟨q, hq, hne⟩ := Finset.exists_ne_zero_of_sum_ne_zero (Nat.ne_of_gt pos)
    exact ⟨q, hq, List.count_pos_iff.mp (Nat.pos_of_ne_zero hne)⟩
  refine Finset.eq_empty_of_forall_notMem fun p hp => ?_
  obtain ⟨q, hq, hpq⟩ := parent hp
  obtain ⟨r, hr, hqr⟩ := parent hq
  rw [hk.children q hq] at hpq
  rw [hk.children r hr] at hqr
  obtain ⟨l, hl, hlq⟩ := List.mem_flatMap.mp hqr
  rw [(hk.stored r hr l hl).2 q hlq] at hpq
  cases hpq

variable (e leaves) in
/-- What owners can rely on, whatever the others do. -/
structure Sound (o : Holders) : Prop where
  reads : ∀ entry ∈ o.owned,
    (∀ data shape, entry.1.target e = some (data, shape) → data ∉ o.statics) →
    Reads e o.heap entry.1 entry.2
  counted : ∀ entry ∈ o.owned, ∀ data shape, entry.1.target e = some (data, shape) →
    data ∉ o.statics → ∃ count, readUsize o.heap (data - 8) = .ok count ∧
      o.owned.countP (fun entry' => (entry'.1.target e).map Prod.fst = some data) ≤ count
  answered : ∀ op : Op T, op.Permitted e leaves o →
    (op.Refused e sys o.heap ∧
      ∃ line, op.perform e leaves call sys o.heap = .error (.exit 1 line)) ∨
    ∃ made h, op.perform e leaves call sys o.heap = .ok (made, h) ∧
      ∀ block ∈ o.others, block ∈ h.live ∧ block.Agree o.heap.mem h.mem
  returned : o.owned = [] → o.heap.live = o.others

theorem Kept.reads {o : Holders} (hk : Kept e leaves o) {entry : Entry} (he : entry ∈ o.owned)
    (hcounted : ∀ data shape, entry.1.target e = some (data, shape) → data ∉ o.statics) :
    Reads e o.heap entry.1 entry.2 := by
  obtain ⟨heap, owned, others, statics⟩ := o
  obtain ⟨b, kids, hk, rfl, rfl, rfl⟩ := hk
  have fits := hk.fits entry he
  unfold ValueFits at fits
  cases ht : entry.1.target e with
  | none =>
    rw [ht] at fits
    exact fits.1 _
  | some t =>
    obtain ⟨data, shape⟩ := t
    rw [ht] at fits
    obtain ⟨p, hp, hview, -⟩ := fits.resolve_left (hcounted data shape ht)
    exact hview.reads hk.represents ht hp

theorem Points.unique (hb : Represents b) (hp : Points b data shape p)
    (hq : Points b data shape' q) : p = q := by
  obtain ⟨-, -, hv, hcell⟩ := hb.counted p hp.live
  obtain ⟨-, -, hv', hcell'⟩ := hb.counted q hq.live
  have held := hb.refines.holds p _ hcell
  have held' := hb.refines.holds q _ hcell'
  by_contra hne
  have apart := hb.refines.wellFormed.apart _ held.live _ held'.live
    fun heq => hne (held.block_inj held' heq)
  have inside : (b.object p).front.length + 8 ≤
      ((b.object p).cell (b.refs.count p)).bytes.length := by
    rw [Object.length_cell]
    omega
  have inside' : (b.object q).front.length + 8 ≤
      ((b.object q).cell (b.refs.count q)).bytes.length := by
    rw [Object.length_cell]
    omega
  -- Both would have their count in the word before the data.
  have ranges := apart.ranges (held.covers_bytes inside) (held'.covers_bytes inside')
  have front := hv.front
  have front' := hv'.front
  have start := hp.data_eq
  have start' := hq.data_eq
  rw [hp.shape_eq] at front
  rw [hq.shape_eq] at front'
  omega

theorem Keeps.countP_le (hk : Keeps e leaves b kids owned) (hp : Points b data shape p)
    (hcounted : data ∉ b.statics) {some : List Entry} (hsub : ∀ entry ∈ some, entry ∈ owned) :
    some.countP (fun entry => (entry.1.target e).map Prod.fst = .some data) ≤
      (roots e b.statics some).count p := by
  induction some with
  | nil => exact Nat.zero_le _
  | cons entry some ih =>
    have rest := ih fun entry' he => hsub entry' (List.mem_cons_of_mem entry he)
    rw [roots, List.flatMap_cons, List.count_append, ← roots, List.countP_cons, Nat.add_comm]
    refine Nat.add_le_add ?_ rest
    split
    · rename_i heq
      obtain ⟨⟨data', shape'⟩, ht, rfl⟩ := Option.map_eq_some_iff.mp (of_decide_eq_true heq)
      have fits := hk.fits entry (hsub entry List.mem_cons_self)
      unfold ValueFits at fits
      rw [ht] at fits
      obtain ⟨q, hq, -, -⟩ := fits.resolve_left hcounted
      rw [ht, hq.address_eq hk.represents, hp.unique hk.represents hq, List.count_singleton_self]
    · exact Nat.zero_le _

theorem Kept.counted {o : Holders} (hk : Kept e leaves o) {entry : Entry} (he : entry ∈ o.owned)
    (ht : entry.1.target e = some (data, shape)) (hcounted : data ∉ o.statics) :
    ∃ count, readUsize o.heap (data - 8) = .ok count ∧
      o.owned.countP (fun entry' => (entry'.1.target e).map Prod.fst = some data) ≤ count := by
  obtain ⟨heap, owned, others, statics⟩ := o
  obtain ⟨b, kids, hk, rfl, rfl, rfl⟩ := hk
  have fits := hk.fits entry he
  unfold ValueFits at fits
  rw [ht] at fits
  obtain ⟨p, hp, -, -⟩ := fits.resolve_left hcounted
  have count := hk.represents.read_count hp.live
  rw [hp.shape_eq, ← hp.data_eq] at count
  refine ⟨b.refs.count p, count, ?_⟩
  rw [hk.balanced.exact p (hk.represents.counted p hp.live).1]
  exact (hk.countP_le hp hcounted fun _ he => he).trans (Nat.le_add_right _ _)

theorem Kept.returned {o : Holders} (hk : Kept e leaves o) (hnone : o.owned = []) :
    o.heap.live = o.others := by
  obtain ⟨heap, owned, others, statics⟩ := o
  obtain ⟨b, kids, hk, rfl, rfl, rfl⟩ := hk
  obtain rfl : owned = [] := hnone
  refine Finset.Subset.antisymm (fun block hblock => ?_) hk.represents.refines.others
  by_contra hno
  obtain ⟨p, c, hp, -⟩ := hk.represents.refines.known block hblock hno
  have live := hk.represents.complete p c hp
  rw [hk.none_live] at live
  exact absurd live (Finset.notMem_empty p)

theorem values_sound (hw : h.WellFormed addressSpace)
    (hstatics : ∀ data ∈ statics, IsStatic (State.initial h) data)
    (hrun : Run (Step e leaves call sys) (Holders.initial h statics) log o) :
    Sound e leaves call sys o := by
  have hk := kept call sys hw hstatics hrun
  refine ⟨fun entry he => hk.reads he, fun entry he data shape => hk.counted he,
    fun op hp => ?_, hk.returned⟩
  rcases hk.answered call sys hp with hexit | ⟨made, h', hok, -, hothers⟩
  · exact .inl hexit
  · exact .inr ⟨made, h', hok, hothers⟩

end

theorem values_sound_slice : ∃ (log : List (Op RocStr)) (o : Holders),
    Run (Step RocStr.elem (fun s => [.str s]) (fun _ _ h => .ok h) bump)
      (Holders.initial ⟨fun _ => 0, ∅⟩ ∅) log o ∧ log = [.bytes [104, 105]] ∧
    o.owned.map Prod.snd = [[105]] ∧
    Sound RocStr.elem (fun s => [.str s]) (fun _ _ h => .ok h) bump o := by
  let onDrop : OnDrop := fun _ _ h => .ok h
  let leaves : RocStr → List Leaf := fun s => [.str s]
  let step := Step RocStr.elem leaves onDrop bump
  have hw := Heap.WellFormed.empty addressSpace fun _ => 0
  have hstatics : ∀ data ∈ (∅ : Finset Nat), IsStatic (State.initial ⟨fun _ => 0, ∅⟩) data :=
    fun data hd => absurd hd (Finset.notMem_empty data)
  let bytes : Entry := (.leaf (.bytes ⟨24, 2, 4⟩), [104, 105])
  have fits : (Op.bytes [104, 105]).Permitted RocStr.elem leaves
      (Holders.initial ⟨fun _ => 0, ∅⟩ ∅) := by
    change 2 < addressSpace ∧ Representable 10 8
    decide
  obtain ⟨h, hok⟩ : ∃ h, Op.perform RocStr.elem leaves onDrop bump ⟨fun _ => 0, ∅⟩
      (.bytes [104, 105]) = .ok (some bytes.1, h) := ⟨_, rfl⟩
  have made : Run step (Holders.initial ⟨fun _ => 0, ∅⟩ ∅) [.bytes [104, 105]]
      ⟨h, [bytes], ∅, ∅⟩ := Run.nil.snoc_one (Step.call fits hok)
  have target : bytes.1.target RocStr.elem = some (24, RocListWith.listShape 1 false) := rfl
  have sliced : Run step (Holders.initial ⟨fun _ => 0, ∅⟩ ∅) [.bytes [104, 105]]
      ⟨h, [sliceEntry RocStr.elem 1 1 bytes], ∅, ∅⟩ :=
    made.snoc_silent (Step.slice (List.mem_singleton_self bytes) target (Finset.notMem_empty 24)
      (by decide))
  exact ⟨_, _, sliced, rfl, rfl, values_sound onDrop bump hw hstatics sliced⟩

end RocTui.Owners
