import RocTui.Boxes

namespace RocTui.Owners

open RocTui.Lib RocTui.Lib.Blocks RocTui.Lib.Script RocTui.Lib.Words
open RocTui.Allocators RocTui.Counts RocTui.Values

/-- Compiled code run when a closure is dropped: the function, the captures, the heap. -/
abbrev OnDrop := Nat → Nat → Heap → Except Stop Heap

/-- A value that is counted by itself and stores no counted values. -/
inductive Leaf
  | str (s : RocStr)
  | bytes (l : RocListWith)
  | box (payloadAlignment : Nat) (payloadContainsRefcounted : Bool) (ptr : RocBox)
  | callable (ptr : RocErasedCallable)
  deriving DecidableEq, Repr

namespace Leaf

def incref (amount : Int) (h : Heap) : Leaf → Except Stop Heap
  | .str s => s.incref amount h
  | .bytes l => l.incref amount h
  | .box _ _ ptr => increfBox ptr amount h
  | .callable ptr => increfErasedCallable ptr amount h

def decref (call : OnDrop) (sys : Global) (h : Heap) : Leaf → Except Stop Heap
  | .str s => s.decref sys h
  | .bytes l => l.decref 1 false sys h
  | .box payloadAlignment payloadContainsRefcounted ptr =>
    decrefBoxWith sys ptr payloadAlignment payloadContainsRefcounted none h
  | .callable ptr => decrefErasedCallable call sys ptr h

def target : Leaf → Option (Nat × Shape)
  | .str s =>
    if s.isSmallStr ∨ s.getAllocationPtr = 0 then none
    else some (s.getAllocationPtr, RocStr.strShape)
  | .bytes l =>
    if l.elements = 0 ∨ l.getAllocationPtr = 0 then none
    else some (l.getAllocationPtr, RocListWith.listShape 1 false)
  | .box payloadAlignment payloadContainsRefcounted ptr =>
    if ptr = 0 then none
    else some (ptr.toNat, boxShape payloadAlignment payloadContainsRefcounted)
  | .callable ptr => if ptr = 0 then none else some (ptr.toNat, callableShape)

def teardown (call : OnDrop) : Leaf → Heap → Except Stop Heap
  | .callable ptr => dropErasedCallablePayload call ptr.toNat
  | _ => pure

theorem elim_guard {α β : Type} (c : Prop) [Decidable c] (t : α) (x : β) (f : α → β) :
    (if c then none else some t).elim x f = if c then x else f t := by
  split <;> rfl

theorem elim_guards {α β : Type} (c d : Prop) [Decidable c] [Decidable d] (t : α) (x : β)
    (f : α → β) : (if c ∨ d then none else some t).elim x f =
      if c then x else if d then x else f t := by
  by_cases hc : c
  · rw [if_pos (.inl hc), if_pos hc]
    rfl
  · by_cases hd : d
    · rw [if_pos (.inr hd), if_neg hc, if_pos hd]
      rfl
    · rw [if_neg (not_or.mpr ⟨hc, hd⟩), if_neg hc, if_neg hd]
      rfl

theorem incref_eq (l : Leaf) (amount : Int) (h : Heap) : l.incref amount h =
    l.target.elim (.ok h) fun t => increfAt t.1 amount h := by
  cases l with
  | str s =>
    rw [target, elim_guards]
    rfl
  | bytes l =>
    rw [target, elim_guards]
    rfl
  | box a r ptr =>
    rw [target, elim_guard]
    rfl
  | callable ptr =>
    rw [target, elim_guard]
    rfl

theorem decref_eq (l : Leaf) (call : OnDrop) (sys : Global) (h : Heap) :
    l.decref call sys h =
      l.target.elim (.ok h) fun t => decrefAt sys t.2 (l.teardown call) t.1 h := by
  cases l with
  | str s =>
    rw [target, elim_guards]
    rfl
  | bytes l =>
    rw [target, elim_guards]
    rfl
  | box a r ptr =>
    rw [target, elim_guard]
    rfl
  | callable ptr =>
    rw [target, elim_guard]
    rfl

end Leaf

def address (statics : Finset Nat) : Option (Nat × Shape) → List Nat
  | none => []
  | some (data, shape) => if data ∈ statics then [] else [data - shape.header]

/-- The pointer is to the data of a live allocation of that layout. -/
structure Points (b : Books) (data : Nat) (shape : Shape) (p : Nat) : Prop where
  live : p ∈ b.refs.live
  data_eq : data = p + shape.header
  shape_eq : (b.object p).shape = shape

def Quiet (b : Books) (p : Nat) : Leaf → Prop
  | .callable _ => ∃ callableFnPtr, HoldsCallable (b.object p) callableFnPtr 0
  | _ => True

def LeafFits (b : Books) (l : Leaf) : Prop :=
  ∀ data shape, l.target = some (data, shape) →
    data ∈ b.statics ∨ ∃ p, Points b data shape p ∧ Quiet b p l

theorem Points.notStatic {b : Books} (hb : Represents b) (hp : Points b data shape p) :
    data ∉ b.statics := by
  intro hstatic
  obtain ⟨-, -, hv, hcell⟩ := hb.counted p hp.live
  obtain ⟨c, hc, hcover⟩ := (hb.statics data hstatic).covered
  have held := hb.refines.holds p _ hcell
  have inside : (b.object p).front.length + 8 ≤
      ((b.object p).cell (b.refs.count p)).bytes.length := by
    rw [Object.length_cell]
    omega
  have hne : c ≠ ((b.object p).cell (b.refs.count p)).block p := by
    rintro rfl
    exact hb.refines.own p _ hcell hc
  have apart := hb.refines.wellFormed.apart c (hb.refines.others hc) _ held.live hne
  have ranges := apart.ranges hcover (held.covers_bytes inside)
  have front := hv.front
  have header := hp.data_eq
  rw [hp.shape_eq] at front
  omega

theorem Points.address_eq {b : Books} (hb : Represents b) (hp : Points b data shape p) :
    address b.statics (some (data, shape)) = [p] := by
  rw [address, if_neg (hp.notStatic hb), hp.data_eq, Nat.add_sub_cancel]

theorem toNat_ne_zero {w : UInt64} (h : w ≠ 0) : w.toNat ≠ 0 :=
  fun heq => h (UInt64.toNat_inj.mp heq)

theorem Leaf.teardown_quiet {b : Books} {l : Leaf} (hb : Represents b)
    (ht : l.target = some (data, shape)) (hp : Points b data shape p) (hq : Quiet b p l)
    (call : OnDrop) :
    l.teardown call (b.recounted p 0).heap = .ok (b.recounted p 0).heap := by
  cases l with
  | str s => rfl
  | bytes l => rfl
  | box a r ptr => rfl
  | callable ptr =>
    obtain ⟨callableFnPtr, hshape, captures, hdata⟩ := hq
    have hne : ptr ≠ 0 := by
      rintro rfl
      simp [Leaf.target] at ht
    have ptr_eq : ptr.toNat = p + 16 := by
      simp only [Leaf.target, if_neg hne, Option.some.injEq, Prod.mk.injEq] at ht
      rw [ht.1, hp.data_eq, ← ht.2]
      rfl
    obtain ⟨hrefines, -⟩ := hb.recounted hp.live 0
    have hcell : (b.recounted p 0).store p = some ((b.object p).cell 0) :=
      Function.update_self _ _ _
    have held := hrefines.holds p _ hcell
    have hv := (hb.counted p hp.live).2.2.1
    have front : (b.object p).front.length + 8 = 16 := by rw [hv.front, hshape]; rfl
    have inside : 24 + 8 ≤ ((b.object p).cell 0).bytes.length := by
      rw [Object.length_cell, hdata]
      simp only [List.length_append, length_leBytes]
      omega
    have word : (((b.object p).cell 0).bytes.drop 24).take 8 = leBytes 8 0 := by
      have split : (24 : Nat) = (b.object p).front.length + 8 + 8 := by omega
      rw [split, ← List.drop_drop, Object.bytes_data, hdata, List.append_assoc,
        List.drop_left' (length_leBytes _ _), List.take_left' (length_leBytes _ _)]
      rfl
    have aligned : 8 ∣ ptr.toNat + 8 := by
      rw [ptr_eq]
      have dvd := held.eight_dvd hrefines.wellFormed
      omega
    have onDrop : readUsize (b.recounted p 0).heap (ptr.toNat + 8) = .ok 0 := by
      have slot : ptr.toNat + 8 = p + 24 := by omega
      rw [readUsize, expect_of aligned, ok_bind, slot,
        Heap.load_of_covers held.live (held.covers_bytes inside), Holds.read_within held inside,
        word]
      rfl
    rw [Leaf.teardown, dropErasedCallablePayload, if_neg (toNat_ne_zero hne), onDrop, ok_bind]
    rfl

theorem Leaf.decref_spec {b : Books} {l : Leaf} (hb : Represents b) (hl : LeafFits b l)
    (call : OnDrop) (sys : Global) :
    ∃ st, l.decref call sys b.state.heap = .ok st.heap ∧
      Represents
        { b with state := st, refs := b.refs.decrefAll (address b.statics l.target) } ∧
      Beside b.state st := by
  rw [l.decref_eq]
  cases ht : l.target with
  | none => exact ⟨b.state, rfl, hb, Beside.rfl⟩
  | some t =>
    obtain ⟨data, shape⟩ := t
    rcases hl data shape ht with hstatic | ⟨p, hp, hq⟩
    · refine ⟨b.state, (hb.statics data hstatic).decref hb.refines sys shape _, ?_, Beside.rfl⟩
      rw [address, if_pos hstatic]
      exact hb
    · obtain ⟨st, hok, hrep, hbeside⟩ := hb.decref hp.live sys
        (l.teardown call) fun _ => l.teardown_quiet hb ht hp hq call
      rw [hp.shape_eq, ← hp.data_eq] at hok
      refine ⟨st, hok, ?_, hbeside⟩
      rw [hp.address_eq hb]
      exact hrep

theorem LeafFits.decref {b : Books} {st : State} {l : Leaf} (hb : Represents b)
    (hl : LeafFits b l)
    (hleft : ∀ q ∈ address b.statics l.target, 0 < (b.refs.decrefAll ps).count q) :
    LeafFits { b with state := st, refs := b.refs.decrefAll ps } l := by
  intro data shape ht
  rcases hl data shape ht with hstatic | ⟨p, hp, hq⟩
  · exact .inl hstatic
  · have addr := hp.address_eq hb
    rw [← ht] at addr
    have live := b.refs.mem_live_decrefAll ps p hp.live
      (hleft p (addr ▸ List.mem_singleton_self p))
    exact .inr ⟨p, ⟨live, hp.data_eq, hp.shape_eq⟩, hq⟩

def decrefLeaves (call : OnDrop) (sys : Global) (ls : List Leaf) (h : Heap) : Except Stop Heap :=
  ls.foldlM (fun h l => l.decref call sys h) h

def addresses (statics : Finset Nat) (ls : List Leaf) : List Nat :=
  ls.flatMap fun l => address statics l.target

theorem decrefLeaves_spec {b : Books} (ls : List Leaf) (hb : Represents b)
    (hfit : ∀ l ∈ ls, LeafFits b l)
    (hcount : ∀ q, (addresses b.statics ls).count q ≤ b.refs.count q) (call : OnDrop)
    (sys : Global) :
    ∃ st, decrefLeaves call sys ls b.state.heap = .ok st.heap ∧
      Represents { b with state := st, refs := b.refs.decrefAll (addresses b.statics ls) } ∧
      Beside b.state st := by
  induction ls generalizing b with
  | nil => exact ⟨b.state, rfl, hb, Beside.rfl⟩
  | cons l ls ih =>
    obtain ⟨st, hok, hrep, hbeside⟩ := l.decref_spec hb (hfit l List.mem_cons_self) call sys
    have counts (q : Nat) : (addresses b.statics ls).count q ≤
        (b.refs.decrefAll (address b.statics l.target)).count q := by
      have all := hcount q
      rw [addresses, List.flatMap_cons, List.count_append] at all
      rw [RefHeap.count_decrefAll, addresses]
      omega
    have fits (l' : Leaf) (hl' : l' ∈ ls) : LeafFits
        { b with state := st, refs := b.refs.decrefAll (address b.statics l.target) } l' := by
      refine (hfit l' (List.mem_cons_of_mem l hl')).decref hb fun q hq => ?_
      have mem : q ∈ addresses b.statics ls := List.mem_flatMap.mpr ⟨l', hl', hq⟩
      exact (List.count_pos_iff.mpr mem).trans_le (counts q)
    obtain ⟨st', hok', hrep', hbeside'⟩ := ih hrep fits counts
    refine ⟨st', ?_, ?_, hbeside.trans hbeside'⟩
    · rw [decrefLeaves, List.foldlM_cons, hok, ok_bind]
      exact hok'
    · rw [addresses, List.flatMap_cons, RefHeap.decrefAll_append]
      exact hrep'

/-- A leaf, or a list whose items store leaves. -/
inductive Value
  | leaf (l : Leaf)
  | items (l : RocListWith)
  deriving DecidableEq, Repr

def Value.isLeaf : Value → Bool
  | .leaf _ => true
  | .items _ => false

def Value.incref (amount : Int) (h : Heap) : Value → Except Stop Heap
  | .leaf l => l.incref amount h
  | .items l => l.incref amount h

abbrev Entry := Value × List UInt8

section

variable {T : Type} (e : Elem T) (leaves : T → List Leaf)

def Value.target : Value → Option (Nat × Shape)
  | .leaf l => l.target
  | .items l =>
    if l.elements = 0 ∨ l.getAllocationPtr = 0 then none
    else some (l.getAllocationPtr, RocListWith.listShape e.align true)

def releaseItems (call : OnDrop) (sys : Global) (l : RocListWith) (hasOneRef : Bool) (h : Heap) :
    Except Stop Heap :=
  if hasOneRef then do
    let items ← l.allocationItems e true h
    decrefLeaves call sys (items.flatMap leaves) h
  else pure h

def Value.decref (call : OnDrop) (sys : Global) (h : Heap) : Value → Except Stop Heap
  | .leaf l => l.decref call sys h
  | .items l => do
    let hasOneRef ← l.hasOneRef h
    let h ← releaseItems e leaves call sys l hasOneRef h
    l.decref e.align true sys h

theorem Value.incref_eq (v : Value) (amount : Int) (h : Heap) : v.incref amount h =
    (v.target e).elim (.ok h) fun t => increfAt t.1 amount h := by
  cases v with
  | leaf l => exact l.incref_eq amount h
  | items l =>
    rw [target, Leaf.elim_guards]
    rfl

theorem listDecref_eq (l : RocListWith) (sys : Global) (h : Heap) :
    l.decref e.align true sys h =
      ((Value.items l).target e).elim (.ok h) fun t => decrefAt sys t.2 pure t.1 h := by
  rw [Value.target, Leaf.elim_guards]
  rfl

def Reads (h : Heap) : Value → List UInt8 → Prop
  | .leaf (.str s), bytes => s.asSlice h = .ok bytes
  | .leaf (.bytes l), bytes => l.asSlice byteElem h = .ok bytes
  | .leaf (.box _ _ _), _ => True
  | .leaf (.callable _), _ => True
  | .items l, bytes => ∃ xs, l.asSlice e h = .ok xs ∧ e.bytesOf xs = bytes

def View (b : Books) (kids : Nat → List Leaf) (p : Nat) : Value → List UInt8 → Prop
  | .leaf (.str s), bytes => s.isSmallStr = false ∧ ∃ off,
    s.bytes.toNat = p + 8 + off ∧ s.length.toNat = bytes.length ∧
    off + bytes.length ≤ (b.object p).data.length ∧
    ((b.object p).data.drop off).take bytes.length = bytes
  | .leaf (.bytes l), bytes => ∃ xs i n, RocListWith.HoldsList byteElem b false p xs ∧
    RocListWith.Shows byteElem l (p + RocListWith.headerBytes byteElem.align false) i n ∧
    i + n ≤ xs.length ∧ (xs.drop i).take n = bytes
  | .leaf (.box _ _ _), _ => True
  | .leaf (.callable _), _ => ∃ callableFnPtr, HoldsCallable (b.object p) callableFnPtr 0
  | .items l, bytes => ∃ xs i n, RocListWith.HoldsList e b true p xs ∧
    RocListWith.Shows e l (p + RocListWith.headerBytes e.align true) i n ∧
    (l.isSeamlessSlice = true ∨ n = xs.length) ∧ i + n ≤ xs.length ∧
    e.bytesOf ((xs.drop i).take n) = bytes ∧ kids p = xs.flatMap leaves

def ValueFits (b : Books) (kids : Nat → List Leaf) (entry : Entry) : Prop :=
  match entry.1.target e with
  | none => (∀ h, Reads e h entry.1 entry.2) ∧
    ∀ l, entry.1 = .items l → l.getAllocationPtr = 0
  | some (data, shape) => data ∈ b.statics ∨ ∃ p, Points b data shape p ∧
    View e leaves b kids p entry.1 entry.2 ∧ (entry.1.isLeaf = true → kids p = [])

def roots (statics : Finset Nat) (owned : List Entry) : List Nat :=
  owned.flatMap fun entry => address statics (entry.1.target e)

/-- The books account for every reference: those of the owners, and those that lists hold. -/
structure Keeps (b : Books) (kids : Nat → List Leaf) (owned : List Entry) : Prop where
  represents : Represents b
  balanced : b.refs.Balanced (roots e b.statics owned)
  children : ∀ p ∈ b.refs.live, b.refs.children p = addresses b.statics (kids p)
  stored : ∀ p ∈ b.refs.live, ∀ l ∈ kids p,
    LeafFits b l ∧ ∀ q ∈ address b.statics l.target, kids q = []
  fits : ∀ entry ∈ owned, ValueFits e leaves b kids entry

variable {e leaves} {b b' : Books} {kids kids' : Nat → List Leaf} {owned : List Entry}

theorem View.frame {v : Value} {bytes : List UInt8} (hv : View e leaves b kids p v bytes)
    (live : p ∈ b'.refs.live) (object : b'.object p = b.object p) (hkids : kids' p = kids p) :
    View e leaves b' kids' p v bytes := by
  match v, hv with
  | .leaf (.str s), hv =>
    rw [View, object]
    exact hv
  | .leaf (.bytes l), ⟨xs, i, n, hl, hv⟩ =>
    exact ⟨xs, i, n, ⟨live, object ▸ hl.shape, object ▸ hl.data, object ▸ hl.counts, hl.length⟩, hv⟩
  | .leaf (.box _ _ _), _ => trivial
  | .leaf (.callable _), hv =>
    rw [View, object]
    exact hv
  | .items l, ⟨xs, i, n, hl, hs, hw, hi, hbytes, hk⟩ =>
    exact ⟨xs, i, n, ⟨live, object ▸ hl.shape, object ▸ hl.data, object ▸ hl.counts, hl.length⟩,
      hs, hw, hi, hbytes, hkids.trans hk⟩

theorem ValueFits.frame {entry : Entry} (hb : Represents b)
    (hf : ValueFits e leaves b kids entry) (statics : b'.statics = b.statics)
    (same : ∀ q ∈ address b.statics (entry.1.target e),
      q ∈ b'.refs.live ∧ b'.object q = b.object q ∧ kids' q = kids q) :
    ValueFits e leaves b' kids' entry := by
  unfold ValueFits at hf ⊢
  cases ht : entry.1.target e with
  | none =>
    rw [ht] at hf
    exact hf
  | some t =>
    obtain ⟨data, shape⟩ := t
    rw [ht] at hf same
    rcases hf with hstatic | ⟨p, hp, hv, hleaf⟩
    · exact .inl (statics ▸ hstatic)
    · rw [hp.address_eq hb] at same
      obtain ⟨live, object, hkids⟩ := same p (List.mem_singleton_self p)
      exact .inr ⟨p, ⟨live, hp.data_eq, object ▸ hp.shape_eq⟩, hv.frame live object hkids,
        fun hl => hkids.trans (hleaf hl)⟩

theorem ValueFits.leaf {l : Leaf} {bytes : List UInt8} (hb : Represents b)
    (hf : ValueFits e leaves b kids (.leaf l, bytes)) :
    LeafFits b l ∧ ∀ q ∈ address b.statics l.target, kids q = [] := by
  unfold ValueFits at hf
  cases ht : l.target with
  | none =>
    refine ⟨fun data shape heq => ?_, fun q hq => ?_⟩
    · rw [ht] at heq
      cases heq
    · cases hq
  | some t =>
    obtain ⟨data, shape⟩ := t
    rw [show Value.target e ((Value.leaf l, bytes) : Entry).1 = some (data, shape) from ht] at hf
    rcases hf with hstatic | ⟨p, hp, hview, hleaf⟩
    · refine ⟨fun data' shape' heq => ?_, fun q hq => ?_⟩
      · rw [ht] at heq
        cases heq
        exact .inl hstatic
      · rw [address, if_pos hstatic] at hq
        cases hq
    · refine ⟨fun data' shape' heq => ?_, fun q hq => ?_⟩
      · rw [ht] at heq
        cases heq
        refine .inr ⟨p, hp, ?_⟩
        cases l with
        | callable ptr => exact hview
        | _ => trivial
      · rw [hp.address_eq hb, List.mem_singleton] at hq
        rw [hq]
        exact hleaf rfl

theorem LeafFits.frame {l : Leaf} (hb : Represents b) (hf : LeafFits b l)
    (statics : b'.statics = b.statics)
    (same : ∀ q ∈ address b.statics l.target, q ∈ b'.refs.live ∧ b'.object q = b.object q) :
    LeafFits b' l := by
  intro data shape ht
  rcases hf data shape ht with hstatic | ⟨p, hp, hq⟩
  · exact .inl (statics ▸ hstatic)
  · rw [ht, hp.address_eq hb] at same
    obtain ⟨live, object⟩ := same p (List.mem_singleton_self p)
    refine .inr ⟨p, ⟨live, hp.data_eq, object ▸ hp.shape_eq⟩, ?_⟩
    cases l with
    | callable ptr =>
      rw [Quiet, object]
      exact hq
    | _ => trivial

namespace Keeps

theorem live_of_owned (hk : Keeps e leaves b kids owned) {entry : Entry} (he : entry ∈ owned)
    {q : Nat} (hq : q ∈ address b.statics (entry.1.target e)) : q ∈ b.refs.live := by
  have mem : q ∈ roots e b.statics owned := List.mem_flatMap.mpr ⟨entry, he, hq⟩
  exact hk.balanced.closed q (Nat.add_pos_left (List.count_pos_iff.mpr mem) _)

theorem live_of_stored (hk : Keeps e leaves b kids owned) (hp : p ∈ b.refs.live) {l : Leaf}
    (hl : l ∈ kids p) {q : Nat} (hq : q ∈ address b.statics l.target) : q ∈ b.refs.live := by
  have mem : q ∈ b.refs.children p := by
    rw [hk.children p hp]
    exact List.mem_flatMap.mpr ⟨l, hl, hq⟩
  refine hk.balanced.closed q (Nat.add_pos_right _ ?_)
  exact (List.count_pos_iff.mpr mem).trans_le
    (Finset.single_le_sum (f := fun r => (b.refs.children r).count q) (fun _ _ => Nat.zero_le _) hp)

theorem change {owned' : List Entry} (hk : Keeps e leaves b kids owned)
    (hsub : ∀ entry ∈ owned', entry ∈ owned) (hrep : Represents b')
    (statics : b'.statics = b.statics) (object : b'.object = b.object)
    (children : b'.refs.children = b.refs.children) (live : b'.refs.live ⊆ b.refs.live)
    (balanced : b'.refs.Balanced (roots e b'.statics owned')) :
    Keeps e leaves b' kids owned' where
  represents := hrep
  balanced := balanced
  children p hp := by rw [children, hk.children p (live hp), statics]
  stored p hp l hl := by
    obtain ⟨hfit, hnone⟩ := hk.stored p (live hp) l hl
    refine ⟨hfit.frame hk.represents statics fun q hq => ⟨?_, congrFun object q⟩,
      fun q hq => hnone q (statics ▸ hq)⟩
    have mem : q ∈ b'.refs.children p := by
      rw [children, hk.children p (live hp)]
      exact List.mem_flatMap.mpr ⟨l, hl, hq⟩
    refine balanced.closed q (Nat.add_pos_right _ ?_)
    exact (List.count_pos_iff.mpr mem).trans_le
      (Finset.single_le_sum (f := fun r => (b'.refs.children r).count q)
        (fun _ _ => Nat.zero_le _) hp)
  fits entry he := by
    refine (hk.fits entry (hsub entry he)).frame hk.represents statics fun q hq =>
      ⟨?_, congrFun object q, rfl⟩
    have mem : q ∈ roots e b'.statics owned' :=
      List.mem_flatMap.mpr ⟨entry, he, statics ▸ hq⟩
    exact balanced.closed q (Nat.add_pos_left (List.count_pos_iff.mpr mem) _)

theorem perm {owned' : List Entry} (hk : Keeps e leaves b kids owned)
    (hp : owned.Perm owned') : Keeps e leaves b kids owned' :=
  hk.change (fun _ he => hp.mem_iff.mpr he) hk.represents rfl rfl rfl
    (Finset.Subset.refl _) (hk.balanced.perm (hp.flatMap_right _))

theorem extend (hk : Keeps e leaves b kids owned) {entry : Entry}
    (hf : ValueFits e leaves b kids entry)
    (hnone : address b.statics (entry.1.target e) = []) :
    Keeps e leaves b kids (entry :: owned) where
  represents := hk.represents
  balanced := by
    rw [roots, List.flatMap_cons, hnone, List.nil_append]
    exact hk.balanced
  children := hk.children
  stored := hk.stored
  fits entry' he := by
    rcases List.mem_cons.mp he with rfl | he
    · exact hf
    · exact hk.fits entry' he

theorem replace {entry entry' : Entry} (hk : Keeps e leaves b kids (entry :: owned))
    (hf : ValueFits e leaves b kids entry')
    (same : address b.statics (entry'.1.target e) = address b.statics (entry.1.target e)) :
    Keeps e leaves b kids (entry' :: owned) where
  represents := hk.represents
  balanced := by
    rw [roots, List.flatMap_cons, same]
    exact hk.balanced
  children := hk.children
  stored := hk.stored
  fits entry'' he := by
    rcases List.mem_cons.mp he with rfl | he
    · exact hf
    · exact hk.fits entry'' (List.mem_cons_of_mem entry he)

theorem allocated {st : State} {o : Object} {ks : List Leaf} {rest : List Entry} {entry : Entry}
    (hk : Keeps e leaves b kids owned)
    (hrep : Represents (b.allocated st p o (addresses b.statics ks)))
    (fresh : p ∉ b.refs.live)
    (hperm : (roots e b.statics owned).Perm
      (addresses b.statics ks ++ roots e b.statics rest))
    (hrest : ∀ entry ∈ rest, entry ∈ owned)
    (hks : ∀ l ∈ ks, LeafFits b l ∧ ∀ q ∈ address b.statics l.target,
      q ∈ b.refs.live ∧ kids q = [])
    (htarget : entry.1.target e = some (p + o.shape.header, o.shape))
    (hview : View e leaves (b.allocated st p o (addresses b.statics ks))
      (Function.update kids p ks) p entry.1 entry.2)
    (hleaf : entry.1.isLeaf = true → ks = []) :
    Keeps e leaves (b.allocated st p o (addresses b.statics ks)) (Function.update kids p ks)
      (entry :: rest) := by
  have live : p ∈ (b.allocated st p o (addresses b.statics ks)).refs.live :=
    Finset.mem_insert_self _ _
  have object : (b.allocated st p o (addresses b.statics ks)).object p = o :=
    Function.update_self _ _ _
  have points : Points (b.allocated st p o (addresses b.statics ks)) (p + o.shape.header)
      o.shape p := ⟨live, rfl, by rw [object]⟩
  have old {q : Nat} (hq : q ∈ b.refs.live) :
      q ∈ (b.allocated st p o (addresses b.statics ks)).refs.live ∧
      (b.allocated st p o (addresses b.statics ks)).object q = b.object q ∧
      Function.update kids p ks q = kids q := by
    have hne : q ≠ p := by
      rintro rfl
      exact fresh hq
    exact ⟨Finset.mem_insert_of_mem hq, Function.update_of_ne hne _ _,
      Function.update_of_ne hne _ _⟩
  have leaf {l : Leaf} (hfit : LeafFits b l)
      (hlive : ∀ q ∈ address b.statics l.target, q ∈ b.refs.live ∧ kids q = []) :
      LeafFits (b.allocated st p o (addresses b.statics ks)) l ∧
      ∀ q ∈ address b.statics l.target, Function.update kids p ks q = [] :=
    ⟨hfit.frame hk.represents rfl fun q hq =>
        ⟨(old (hlive q hq).1).1, (old (hlive q hq).1).2.1⟩,
      fun q hq => (old (hlive q hq).1).2.2.trans (hlive q hq).2⟩
  have addr : address b.statics (entry.1.target e) = [p] := by
    have one := points.address_eq hrep
    rw [htarget]
    exact one
  refine ⟨hrep, ?_, ?_, ?_, ?_⟩
  · change (b.refs.alloc p _).Balanced (roots e b.statics (entry :: rest))
    rw [roots, List.flatMap_cons, addr]
    exact (hk.balanced.perm hperm).alloc fresh
  · intro q hq
    by_cases hqp : q = p
    · subst hqp
      rw [Function.update_self]
      exact Function.update_self _ _ _
    · have before : q ∈ b.refs.live := by
        rcases Finset.mem_insert.mp hq with heq | hq
        · exact absurd heq hqp
        · exact hq
      rw [(old before).2.2]
      exact (Function.update_of_ne hqp _ _).trans (hk.children q before)
  · intro q hq l hl
    by_cases hqp : q = p
    · subst hqp
      rw [Function.update_self] at hl
      exact leaf (hks l hl).1 (hks l hl).2
    · have before : q ∈ b.refs.live := by
        rcases Finset.mem_insert.mp hq with heq | hq
        · exact absurd heq hqp
        · exact hq
      rw [(old before).2.2] at hl
      obtain ⟨hfit, hnone⟩ := hk.stored q before l hl
      exact leaf hfit fun r hr => ⟨hk.live_of_stored before hl hr, hnone r hr⟩
  · intro entry' he
    rcases List.mem_cons.mp he with rfl | he
    · unfold ValueFits
      rw [htarget]
      refine .inr ⟨p, points, hview, fun hl => ?_⟩
      rw [Function.update_self, hleaf hl]
    · exact (hk.fits entry' (hrest entry' he)).frame hk.represents rfl fun q hq =>
        old (hk.live_of_owned (hrest entry' he) hq)

theorem incref {entry : Entry} {n : Nat} (hk : Keeps e leaves b kids owned)
    (he : entry ∈ owned)
    (hn : ∀ p ∈ address b.statics (entry.1.target e), b.refs.count p + n < 2 ^ 63) :
    ∃ b', entry.1.incref n b.state.heap = .ok b'.state.heap ∧
      Keeps e leaves b' kids (List.replicate n entry ++ owned) ∧
      b'.statics = b.statics ∧ Beside b.state b'.state := by
  have sub : ∀ entry' ∈ List.replicate n entry ++ owned, entry' ∈ owned := by
    intro entry' he'
    rcases List.mem_append.mp he' with he' | he'
    · exact (List.eq_of_mem_replicate he') ▸ he
    · exact he'
  have more : roots e b.statics (List.replicate n entry ++ owned) =
      (List.replicate n (address b.statics (entry.1.target e))).flatten ++
        roots e b.statics owned := by
    rw [roots, List.flatMap_append, List.flatMap_def, List.map_replicate]
    rfl
  have quiet (hnone : address b.statics (entry.1.target e) = []) :
      Keeps e leaves b kids (List.replicate n entry ++ owned) := by
    refine hk.change sub hk.represents rfl rfl rfl (Finset.Subset.refl _) ?_
    rw [more, hnone, List.flatten_replicate_nil, List.nil_append]
    exact hk.balanced
  have hfit := hk.fits entry he
  unfold ValueFits at hfit
  rw [entry.1.incref_eq e]
  cases ht : entry.1.target e with
  | none => exact ⟨b, rfl, quiet (by rw [ht]; rfl), rfl, Beside.rfl⟩
  | some t =>
    obtain ⟨data, shape⟩ := t
    rw [ht] at hfit
    rcases hfit with hstatic | ⟨p, hp, -, -⟩
    · refine ⟨b, (hk.represents.statics data hstatic).incref hk.represents.refines n, ?_, rfl,
        Beside.rfl⟩
      exact quiet (by rw [ht, address, if_pos hstatic])
    · have addr := hp.address_eq hk.represents
      rw [ht, addr] at hn
      have fits := hn p (List.mem_singleton_self p)
      have pos := (hk.represents.counted p hp.live).1
      obtain ⟨st, hok, hrep, hbeside⟩ := hk.represents.incref hp.live fits
      rw [hp.shape_eq, ← hp.data_eq] at hok
      refine ⟨{ b with state := st, refs := b.refs.incref p n }, hok, ?_, rfl, hbeside⟩
      refine hk.change sub hrep rfl rfl (by simp) (by simp) ?_
      change (b.refs.incref p n).Balanced (roots e b.statics (List.replicate n entry ++ owned))
      rw [more, ht, addr]
      have flat : (List.replicate n [p]).flatten = List.replicate n p := by
        rw [List.flatten_replicate_singleton]
      rw [flat]
      exact hk.balanced.incref pos n

theorem decref_leaf {l : Leaf} {bytes : List UInt8}
    (hk : Keeps e leaves b kids ((.leaf l, bytes) :: owned)) (call : OnDrop) (sys : Global) :
    ∃ b', l.decref call sys b.state.heap = .ok b'.state.heap ∧
      Keeps e leaves b' kids owned ∧ b'.statics = b.statics ∧ Beside b.state b'.state := by
  obtain ⟨leafFits, none⟩ := (hk.fits _ List.mem_cons_self).leaf hk.represents
  obtain ⟨st, hok, hrep, hbeside⟩ := l.decref_spec hk.represents leafFits call sys
  refine ⟨{ b with state := st, refs := b.refs.decrefAll (address b.statics l.target) }, hok, ?_,
    rfl, hbeside⟩
  refine hk.change (fun entry he => List.mem_cons_of_mem _ he) hrep rfl rfl (by simp)
    (RefHeap.live_decrefAll_subset _ _) ?_
  change (b.refs.decrefAll (address b.statics l.target)).Balanced (roots e b.statics owned)
  have balanced := hk.balanced
  rw [roots, List.flatMap_cons] at balanced
  refine balanced.decrefAll fun q (hq : q ∈ address b.statics l.target) => ?_
  have live := hk.live_of_owned List.mem_cons_self hq
  refine ⟨(hk.represents.counted q live).1, ?_⟩
  rw [hk.children q live, none q hq]
  rfl

/-- The items of a list that is about to go are released while the list still holds them. -/
theorem releaseItems_spec {l : RocListWith} {bytes : List UInt8}
    (hk : Keeps e leaves b kids ((.items l, bytes) :: owned))
    (hp : Points b data (RocListWith.listShape e.align true) p)
    (hview : View e leaves b kids p (.items l) bytes) (call : OnDrop) (sys : Global) :
    ∃ st, (do
        let hasOneRef ← l.hasOneRef b.state.heap
        releaseItems e leaves call sys l hasOneRef b.state.heap) = .ok st.heap ∧
      Represents { b with
        state := st
        refs := b.refs.decrefAll (b.refs.freed p) } ∧ Beside b.state st := by
  obtain ⟨xs, i, n, hl, hs, hwhole, hi, -, hkids⟩ := hview
  have children := hk.children p hp.live
  have pos := RocListWith.eight_le_headerBytes e.align true
  have count := hk.represents.read_count hp.live
  rw [hl.shape] at count
  have count' : readUsize b.state.heap (p + RocListWith.headerBytes e.align true - 8) =
      .ok (b.refs.count p) := count
  have hasOne : l.hasOneRef b.state.heap = .ok (b.refs.count p == 1) := by
    rw [RocListWith.hasOneRef, hs.allocation, if_neg (by omega), count', ok_bind]
    rfl
  rw [hasOne, ok_bind, releaseItems, RefHeap.freed]
  by_cases hone : b.refs.count p = 1
  · rw [if_pos (beq_iff_eq.mpr hone), if_pos hone, children]
    have items := hs.allocationItems_eq hl hk.represents hwhole hi
    rw [if_pos rfl] at items
    rw [items, ok_bind, ← hkids]
    refine decrefLeaves_spec _ hk.represents (fun l hl => (hk.stored p hp.live l hl).1) ?_
      call sys
    intro q
    by_cases hq : q ∈ addresses b.statics (kids p)
    · obtain ⟨l, hl, hql⟩ := List.mem_flatMap.mp hq
      have live := hk.live_of_stored hp.live hl hql
      rw [hk.balanced.exact q (hk.represents.counted q live).1, ← children]
      exact (Finset.single_le_sum (f := fun r => (b.refs.children r).count q)
        (fun _ _ => Nat.zero_le _) hp.live).trans (Nat.le_add_left _ _)
    · rw [List.count_eq_zero_of_not_mem hq]
      exact Nat.zero_le _
  · rw [if_neg (fun heq => hone (beq_iff_eq.mp heq)), if_neg hone]
    exact ⟨b.state, rfl, hk.represents, Beside.rfl⟩

theorem decref_counted {l : RocListWith} {bytes : List UInt8}
    (hk : Keeps e leaves b kids ((.items l, bytes) :: owned))
    (ht : (Value.items l).target e = some (data, shape)) (hp : Points b data shape p)
    (hview : View e leaves b kids p (.items l) bytes) (call : OnDrop) (sys : Global) :
    ∃ b', (Value.items l).decref e leaves call sys b.state.heap = .ok b'.state.heap ∧
      Keeps e leaves b' kids owned ∧ b'.statics = b.statics ∧ Beside b.state b'.state := by
  obtain ⟨xs, -, -, hl, -⟩ := id hview
  have shape_eq : shape = RocListWith.listShape e.align true := hp.shape_eq.symm.trans hl.shape
  subst shape_eq
  obtain ⟨st, hok, hrep, hbeside⟩ := hk.releaseItems_spec hp hview call sys
  have hc := (hk.represents.counted p hp.live).1
  have addr := hp.address_eq hk.represents
  have balanced := hk.balanced
  rw [roots, List.flatMap_cons, ht, addr, List.singleton_append] at balanced
  have children := hk.children p hp.live
  -- A stored value has no items of its own, so the list is not among its items.
  have apart : ∀ q ∈ b.refs.freed p, q ≠ p ∧ q ∈ b.refs.live ∧ kids q = [] := by
    intro q hq
    have stored : q ∈ addresses b.statics (kids p) := by
      rw [← children]
      unfold RefHeap.freed at hq
      split at hq
      · exact hq
      · cases hq
    obtain ⟨k, hk', hqk⟩ := List.mem_flatMap.mp stored
    have none := (hk.stored p hp.live k hk').2 q hqk
    refine ⟨?_, hk.live_of_stored hp.live hk' hqk, none⟩
    rintro rfl
    rw [none] at hk'
    cases hk'
  have live : p ∈ (b.refs.decrefAll (b.refs.freed p)).live := by
    refine RefHeap.mem_live_decrefAll _ _ _ hp.live ?_
    rw [RefHeap.count_decrefAll_of_notMem fun hmem => (apart p hmem).1 rfl]
    exact Nat.pos_of_ne_zero hc
  obtain ⟨st', hok', hrep', hbeside'⟩ := hrep.decref live sys pure fun _ => rfl
  refine ⟨{ b with
    state := st'
    refs := (b.refs.decrefAll (b.refs.freed p)).decref p }, ?_, ?_, rfl,
    hbeside.trans hbeside'⟩
  · rw [hp.shape_eq, ← hp.data_eq] at hok'
    rw [Value.decref, ← bind_assoc, hok, ok_bind, listDecref_eq, ht]
    exact hok'
  · refine hk.change (fun entry he => List.mem_cons_of_mem _ he) hrep' rfl rfl (by simp)
      ((RefHeap.live_decref_subset _ _).trans (RefHeap.live_decrefAll_subset _ _)) ?_
    change ((b.refs.decrefAll (b.refs.freed p)).decref p).Balanced (roots e b.statics owned)
    rw [RefHeap.decrefAll_decref]
    refine (balanced.decref hc).decrefAll fun q hq => ?_
    obtain ⟨hne, hlive, none⟩ := apart q hq
    refine ⟨?_, ?_⟩
    · rw [RefHeap.count_decref, List.count_singleton, if_neg (by simpa using Ne.symm hne)]
      exact (hk.represents.counted q hlive).1
    · rw [RefHeap.children_decref, hk.children q hlive, none]
      rfl

theorem forget {entry : Entry} (hk : Keeps e leaves b kids (entry :: owned))
    (hnone : address b.statics (entry.1.target e) = []) : Keeps e leaves b kids owned := by
  refine hk.change (fun entry' he => List.mem_cons_of_mem _ he) hk.represents rfl rfl rfl
    (Finset.Subset.refl _) ?_
  have balanced := hk.balanced
  rwa [roots, List.flatMap_cons, hnone, List.nil_append] at balanced

theorem decref_uncounted {l : RocListWith} {h : Heap} (call : OnDrop) (sys : Global)
    (hasOne : l.hasOneRef h = .ok false) (hok : l.decref e.align true sys h = .ok h) :
    (Value.items l).decref e leaves call sys h = .ok h := by
  rw [Value.decref, hasOne, ok_bind, releaseItems, if_neg Bool.false_ne_true]
  exact hok

theorem decref {entry : Entry} (hk : Keeps e leaves b kids (entry :: owned)) (call : OnDrop)
    (sys : Global) :
    ∃ b', entry.1.decref e leaves call sys b.state.heap = .ok b'.state.heap ∧
      Keeps e leaves b' kids owned ∧ b'.statics = b.statics ∧ Beside b.state b'.state := by
  obtain ⟨v, bytes⟩ := entry
  cases v with
  | leaf l => exact hk.decref_leaf call sys
  | items l =>
    have hfit := hk.fits _ List.mem_cons_self
    unfold ValueFits at hfit
    cases ht : (Value.items l).target e with
    | none =>
      rw [show Value.target e ((Value.items l, bytes) : Entry).1 = none from ht] at hfit
      have null := hfit.2 l rfl
      have hasOne : l.hasOneRef b.state.heap = .ok false := by
        rw [RocListWith.hasOneRef, if_pos null]
        rfl
      have hok : l.decref e.align true sys b.state.heap = .ok b.state.heap := by
        rw [listDecref_eq, ht]
        rfl
      exact ⟨b, decref_uncounted call sys hasOne hok, hk.forget (by rw [ht]; rfl), rfl,
        Beside.rfl⟩
    | some t =>
      obtain ⟨data, shape⟩ := t
      rw [show Value.target e ((Value.items l, bytes) : Entry).1 = some (data, shape) from ht]
        at hfit
      rcases hfit with hstatic | ⟨p, hp, hview, -⟩
      · have static := hk.represents.statics data hstatic
        have ptr : l.getAllocationPtr = data := by
          simp only [Value.target, Option.ite_none_left_eq_some, Option.some.injEq,
            Prod.mk.injEq] at ht
          exact ht.2.1
        have hasOne : l.hasOneRef b.state.heap = .ok false := by
          have past := static.past
          rw [RocListWith.hasOneRef, ptr, if_neg (by omega),
            static.readUsize_eq hk.represents.refines]
          rfl
        have hok : l.decref e.align true sys b.state.heap = .ok b.state.heap := by
          rw [listDecref_eq, ht]
          exact static.decref hk.represents.refines sys shape pure
        refine ⟨b, decref_uncounted call sys hasOne hok, hk.forget ?_, rfl, Beside.rfl⟩
        rw [ht, address, if_pos hstatic]
      · exact hk.decref_counted ht hp hview call sys

end Keeps

end

end RocTui.Owners
