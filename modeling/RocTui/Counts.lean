import RocTui.Allocators
import RocTui.Lib.RefHeap

namespace RocTui.Counts

open RocTui.Lib RocTui.Lib.Blocks RocTui.Lib.Script RocTui.Lib.Words
open RocTui.Allocators

/-- How an allocation of a counted value is laid out: the bytes in front of the data, the
refcount the last word of them, and the alignment asked for. -/
structure Shape where
  header : Nat
  align : Nat
  deriving DecidableEq, Repr

def allocateCounted (sys : Global) (shape : Shape) (total : Nat) (h : Heap) :
    Except Stop (Nat × Heap) := do
  let (base, h) ← rocAlloc sys total shape.align h
  let h ← writeUsize h (base + shape.header - 8) 1
  pure (base + shape.header, h)

/-- `load`, and `fetch_add` unless the count marks static data. -/
def increfAt (data : Nat) (amount : Int) (h : Heap) : Except Stop Heap := do
  let count ← readUsize h (data - 8)
  if count = 0 then pure h
  else writeUsize h (data - 8) ((count + amount) % addressSpace).toNat

/-- `load`, and `fetch_sub` unless the count marks static data; what held the last reference is
torn down and freed. -/
def decrefAt (sys : Global) (shape : Shape) (teardown : Heap → Except Stop Heap) (data : Nat)
    (h : Heap) : Except Stop Heap := do
  let prev ← readUsize h (data - 8)
  if prev = 0 then pure h
  else
    let h ← writeUsize h (data - 8) (prev - 1)
    if prev = 1 then
      let h ← teardown h
      rocDealloc sys (data - shape.header) shape.align h
    else pure h

structure Shape.Valid (s : Shape) : Prop where
  align : s.align.isPowerOfTwo
  eight : 8 ∣ s.header
  room : 8 ≤ s.header
  aligned : s.align ∣ s.header

/-- A counted value in memory: what its header holds in front of the refcount, and its data. -/
structure Object where
  shape : Shape
  front : List UInt8
  data : List UInt8

def Object.cell (o : Object) (count : Nat) : Cell :=
  ⟨o.shape.align, o.front ++ leBytes 8 count ++ o.data⟩

structure Object.Valid (o : Object) : Prop where
  shape : o.shape.Valid
  front : o.front.length + 8 = o.shape.header

/-- The counted values in memory, keyed by the pointer the allocator gave, with the references
to them; and static data, which carries the refcount 0. -/
structure Books where
  state : State
  refs : RefHeap Nat
  object : Nat → Object
  statics : Finset Nat

structure IsStatic (st : State) (data : Nat) : Prop where
  aligned : 8 ∣ data
  past : 8 ≤ data
  covered : ∃ b ∈ st.others, b.Covers (data - 8) 8
  zero : st.heap.mem.read (data - 8) 8 = leBytes 8 0

structure Represents (b : Books) : Prop where
  refines : Refines b.state
  counted : ∀ p ∈ b.refs.live, b.refs.count p ≠ 0 ∧ b.refs.count p < 2 ^ 63 ∧
    (b.object p).Valid ∧ b.state.store p = some ((b.object p).cell (b.refs.count p))
  complete : ∀ p c, b.state.store p = some c → p ∈ b.refs.live
  statics : ∀ data ∈ b.statics, IsStatic b.state data

structure Beside (st st' : State) : Prop where
  others : st'.others = st.others
  agree : ∀ b ∈ st.others, b.Agree st.heap.mem st'.heap.mem

theorem Beside.rfl {st : State} : Beside st st := ⟨Eq.refl _, fun _ _ => Block.Agree.rfl⟩

theorem Beside.trans {st st' st'' : State} (h : Beside st st') (h' : Beside st' st'') :
    Beside st st'' where
  others := h'.others.trans h.others
  agree b hb := (h.agree b hb).trans (h'.agree b (h.others ▸ hb))

theorem IsStatic.frame {st st' : State} (hs : IsStatic st data) (hbeside : Beside st st') :
    IsStatic st' data := by
  obtain ⟨b, hb, hc⟩ := hs.covered
  refine ⟨hs.aligned, hs.past, ⟨b, hbeside.others ▸ hb, hc⟩, ?_⟩
  rw [(hbeside.agree b hb).read hc, hs.zero]

theorem IsStatic.readUsize_eq {st : State} (hs : IsStatic st data) (hr : Refines st) :
    readUsize st.heap (data - 8) = .ok 0 := by
  obtain ⟨b, hb, hc⟩ := hs.covered
  have dvd : 8 ∣ data - 8 := Nat.dvd_sub hs.aligned (Nat.dvd_refl 8)
  rw [readUsize, expect_of dvd, ok_bind, Heap.load_of_covers (hr.others hb) hc, hs.zero]
  rfl

theorem IsStatic.incref {st : State} (hs : IsStatic st data) (hr : Refines st) (amount : Int) :
    increfAt data amount st.heap = .ok st.heap := by
  rw [increfAt, hs.readUsize_eq hr, ok_bind]
  rfl

theorem IsStatic.decref {st : State} (hs : IsStatic st data) (hr : Refines st) (sys : Global)
    (shape : Shape) (teardown : Heap → Except Stop Heap) :
    decrefAt sys shape teardown data st.heap = .ok st.heap := by
  rw [decrefAt, hs.readUsize_eq hr, ok_bind]
  rfl

theorem Holds.read_within {h : Heap} (hh : Holds h ptr c) (hle : off + n ≤ c.bytes.length) :
    h.mem.read (ptr + off) n = (c.bytes.drop off).take n := by
  rw [← hh.bytes, Mem.drop_read _ _ (by omega), Mem.take_read _ _ (by omega)]

namespace Object

variable {o : Object} {count count' : Nat}

theorem length_cell (o : Object) (count : Nat) :
    (o.cell count).bytes.length = o.front.length + 8 + o.data.length := by
  simp [cell, Nat.add_assoc]

theorem overwrite_count (o : Object) (count count' : Nat) :
    (o.cell count).overwrite o.front.length (leBytes 8 count') = o.cell count' := by
  have rest : (o.front ++ leBytes 8 count ++ o.data).drop (o.front.length + 8) = o.data :=
    List.drop_left' (by simp)
  have front : (o.front ++ leBytes 8 count ++ o.data).take o.front.length = o.front := by
    rw [List.append_assoc, List.take_left' rfl]
  simp only [Cell.overwrite, cell, length_leBytes, rest, front]

theorem bytes_count (o : Object) (count : Nat) :
    ((o.cell count).bytes.drop o.front.length).take 8 = leBytes 8 count := by
  rw [cell, List.append_assoc, List.drop_left' rfl, List.take_left' (length_leBytes 8 count)]

theorem bytes_data (o : Object) (count : Nat) :
    (o.cell count).bytes.drop (o.front.length + 8) = o.data :=
  List.drop_left' (by simp)

end Object

theorem Valid.count_slot {st : State} {o : Object} (hr : Refines st) (hv : o.Valid)
    (hp : st.store p = some (o.cell count)) (hlt : count < 2 ^ 63) :
    readUsize st.heap (p + o.shape.header - 8) = .ok count ∧
    ∀ word, writeUsize st.heap (p + o.shape.header - 8) word =
      .ok ⟨st.heap.mem.write (p + o.front.length) (leBytes 8 word), st.heap.live⟩ := by
  have held := hr.holds p _ hp
  have slot : p + o.shape.header - 8 = p + o.front.length := by
    have front := hv.front
    omega
  have dvd : 8 ∣ p + o.front.length := by
    rw [← slot]
    exact Nat.dvd_sub (Nat.dvd_add (held.eight_dvd hr.wellFormed) hv.shape.eight) (Nat.dvd_refl 8)
  have inside : o.front.length + 8 ≤ (o.cell count).bytes.length := by
    rw [Object.length_cell]
    omega
  rw [slot]
  constructor
  · rw [readUsize, expect_of dvd, ok_bind,
      Heap.load_of_covers held.live (held.covers_bytes inside), Holds.read_within held inside,
      o.bytes_count]
    exact congrArg Except.ok (ofLe_leBytes_of_lt (by omega))
  · intro word
    rw [writeUsize, expect_of dvd, ok_bind, writeBytes_spec hr hp (by rwa [length_leBytes])]

def Books.initial (h : Heap) (statics : Finset Nat) : Books where
  state := State.initial h
  refs := ⟨fun _ => 0, fun _ => [], ∅⟩
  object _ := ⟨⟨0, 0⟩, [], []⟩
  statics := statics

def Books.recounted (b : Books) (p word : Nat) : State where
  heap := ⟨b.state.heap.mem.write (p + (b.object p).front.length) (leBytes 8 word),
    b.state.heap.live⟩
  store := Function.update b.state.store p (some ((b.object p).cell word))
  others := b.state.others

def Books.rewritten (b : Books) (p off : Nat) (bytes : List UInt8) (o : Object) : Books where
  state :=
    { b.state with
      heap := ⟨b.state.heap.mem.write (p + off) bytes, b.state.heap.live⟩
      store := Function.update b.state.store p (some (o.cell (b.refs.count p))) }
  refs := b.refs
  object := Function.update b.object p o
  statics := b.statics

def Books.allocated (b : Books) (st : State) (p : Nat) (o : Object) (ps : List Nat) : Books where
  state := st
  refs := b.refs.alloc p ps
  object := Function.update b.object p o
  statics := b.statics

namespace Represents

variable {b : Books} {p : Nat}

theorem initial {statics : Finset Nat} (hw : h.WellFormed addressSpace)
    (hstatics : ∀ data ∈ statics, IsStatic (State.initial h) data) :
    Represents (Books.initial h statics) where
  refines := Refines.initial hw
  counted p hp := absurd hp (Finset.notMem_empty p)
  complete p c hp := by simp [Books.initial, State.initial] at hp
  statics := hstatics

theorem recounted (hb : Represents b) (hp : p ∈ b.refs.live) (word : Nat) :
    Refines (b.recounted p word) ∧ Beside b.state (b.recounted p word) := by
  obtain ⟨-, -, hv, hcell⟩ := hb.counted p hp
  have inside : (b.object p).front.length + (leBytes 8 word).length ≤
      ((b.object p).cell (b.refs.count p)).bytes.length := by
    rw [Object.length_cell, length_leBytes]
    omega
  have held := hb.refines.holds p _ hcell
  constructor
  · have written := Refines.write hb.refines hcell inside
    rwa [Object.overwrite_count] at written
  · refine ⟨rfl, fun c hc => ?_⟩
    have hne : c ≠ ((b.object p).cell (b.refs.count p)).block p := by
      rintro rfl
      exact hb.refines.own p _ hcell hc
    exact hb.refines.wellFormed.agree_write (hb.refines.others hc) held.live hne
      (held.covers_bytes inside)

theorem recount (hb : Represents b) (hp : p ∈ b.refs.live) {refs : RefHeap Nat} {word : Nat}
    (live : refs.live = b.refs.live) (count : refs.count = Function.update b.refs.count p word)
    (pos : word ≠ 0) (fits : word < 2 ^ 63) :
    Represents { b with state := b.recounted p word, refs := refs } where
  refines := (hb.recounted hp word).1
  counted q hq := by
    obtain ⟨hpos, hfits, hv, hcell⟩ := hb.counted q (live ▸ hq)
    by_cases hqp : q = p
    · subst hqp
      have word_eq : refs.count q = word := by rw [count, Function.update_self]
      refine ⟨word_eq ▸ pos, word_eq ▸ fits, hv, ?_⟩
      rw [word_eq]
      exact Function.update_self _ _ _
    · have same : refs.count q = b.refs.count q := by rw [count, Function.update_of_ne hqp]
      refine ⟨same ▸ hpos, same ▸ hfits, hv, ?_⟩
      rw [same]
      exact (Function.update_of_ne hqp _ _).trans hcell
  complete q c hq := by
    change q ∈ refs.live
    rw [live]
    by_cases hqp : q = p
    · exact hqp ▸ hp
    · exact hb.complete q c (by simpa [Books.recounted, hqp] using hq)
  statics data hdata := (hb.statics data hdata).frame (hb.recounted hp word).2

theorem incref (hb : Represents b) (hp : p ∈ b.refs.live) {n : Nat}
    (hn : b.refs.count p + n < 2 ^ 63) :
    ∃ st, increfAt (p + (b.object p).shape.header) n b.state.heap = .ok st.heap ∧
      Represents { b with state := st, refs := b.refs.incref p n } ∧ Beside b.state st := by
  obtain ⟨hpos, hfits, hv, hcell⟩ := hb.counted p hp
  obtain ⟨hread, hwrite⟩ := Valid.count_slot hb.refines hv hcell hfits
  have word : (((b.refs.count p : Int) + n) % addressSpace).toNat = b.refs.count p + n := by
    simp only [addressSpace]
    omega
  refine ⟨b.recounted p (b.refs.count p + n), ?_, ?_, (hb.recounted hp _).2⟩
  · rw [increfAt, hread, ok_bind, if_neg hpos, word, hwrite]
    rfl
  · refine hb.recount hp ?_ ?_ (by omega) hn
    · simp only [RefHeap.incref, if_neg hpos]
    · simp only [RefHeap.incref, if_neg hpos]

theorem free (hb : Represents b) (hp : p ∈ b.refs.live) (hone : b.refs.count p = 1)
    (sys : Global) :
    ∃ st, rocDealloc sys p (b.object p).shape.align (b.recounted p 0).heap = .ok st.heap ∧
      Represents { b with state := st, refs := b.refs.decref p } ∧ Beside b.state st := by
  obtain ⟨hrefines, hbeside⟩ := hb.recounted hp 0
  have hcell : (b.recounted p 0).store p = some ((b.object p).cell 0) := by
    simp [Books.recounted]
  obtain ⟨mem, hok, hagree⟩ := rocDealloc_spec sys hrefines.wellFormed (hrefines.holds p _ hcell)
  have removed := Refines.remove hrefines hcell hagree
  let st : State := ⟨⟨mem, b.state.heap.live.erase (((b.object p).cell 0).block p)⟩,
    Function.update (b.recounted p 0).store p none, b.state.others⟩
  have kept : Beside b.state st :=
    ⟨rfl, fun c hc => (hbeside.agree c hc).trans (hagree c (removed.others hc))⟩
  have refs : b.refs.decref p =
      { b.refs with
        count := Function.update b.refs.count p 0
        live := b.refs.live.erase p } := by
    simp [RefHeap.decref, hone]
  refine ⟨st, hok, ?_, kept⟩
  rw [refs]
  refine ⟨removed, ?_, ?_, fun data hdata => (hb.statics data hdata).frame kept⟩
  · intro q hq
    obtain ⟨hqp, hq⟩ := Finset.mem_erase.mp hq
    simpa [st, hqp, Books.recounted] using hb.counted q hq
  · intro q c hq
    by_cases hqp : q = p
    · subst hqp
      simp [st] at hq
    · have hq' : b.state.store q = some c := by simpa [st, hqp, Books.recounted] using hq
      exact Finset.mem_erase.mpr ⟨hqp, hb.complete q c hq'⟩

theorem decref (hb : Represents b) (hp : p ∈ b.refs.live) (sys : Global)
    (teardown : Heap → Except Stop Heap)
    (quiet : b.refs.count p = 1 →
      teardown (b.recounted p 0).heap = .ok (b.recounted p 0).heap) :
    ∃ st, decrefAt sys (b.object p).shape teardown (p + (b.object p).shape.header)
        b.state.heap = .ok st.heap ∧
      Represents { b with state := st, refs := b.refs.decref p } ∧ Beside b.state st := by
  obtain ⟨hpos, hfits, hv, hcell⟩ := hb.counted p hp
  obtain ⟨hread, hwrite⟩ := Valid.count_slot hb.refines hv hcell hfits
  by_cases hone : b.refs.count p = 1
  · obtain ⟨st, hok, hrep, hbeside⟩ := hb.free hp hone sys
    refine ⟨st, ?_, hrep, hbeside⟩
    rw [decrefAt, hread, ok_bind, if_neg hpos, hwrite, ok_bind, if_pos hone, hone]
    rw [Nat.add_sub_cancel]
    exact (congrArg (· >>= rocDealloc sys p (b.object p).shape.align) (quiet hone)).trans hok
  · refine ⟨b.recounted p (b.refs.count p - 1), ?_, ?_, (hb.recounted hp _).2⟩
    · rw [decrefAt, hread, ok_bind, if_neg hpos, hwrite, ok_bind, if_neg hone]
      rfl
    · refine hb.recount hp ?_ ?_ (by omega) (by omega)
      · simp only [RefHeap.decref, if_neg hpos, if_neg hone]
      · simp only [RefHeap.decref, if_neg hpos]

theorem rewrite (hb : Represents b) (hp : p ∈ b.refs.live) {bytes : List UInt8} {o : Object}
    (hlen : off + bytes.length ≤ ((b.object p).cell (b.refs.count p)).bytes.length)
    (ho : ((b.object p).cell (b.refs.count p)).overwrite off bytes = o.cell (b.refs.count p))
    (hv : o.Valid) :
    writeBytes b.state.heap (p + off) bytes = .ok (b.rewritten p off bytes o).state.heap ∧
      Represents (b.rewritten p off bytes o) ∧
      Beside b.state (b.rewritten p off bytes o).state := by
  obtain ⟨hpos, hfits, -, hcell⟩ := hb.counted p hp
  have held := hb.refines.holds p _ hcell
  have written := Refines.write hb.refines hcell hlen
  rw [ho] at written
  have kept : Beside b.state (b.rewritten p off bytes o).state := by
    refine ⟨rfl, fun c hc => ?_⟩
    have hne : c ≠ ((b.object p).cell (b.refs.count p)).block p := by
      rintro rfl
      exact hb.refines.own p _ hcell hc
    exact hb.refines.wellFormed.agree_write (hb.refines.others hc) held.live hne
      (held.covers_bytes hlen)
  refine ⟨writeBytes_spec hb.refines hcell hlen, ?_, kept⟩
  refine ⟨written, fun q hq => ?_, fun q c hq => ?_, fun data hdata =>
    (hb.statics data hdata).frame kept⟩
  · by_cases hqp : q = p
    · subst hqp
      refine ⟨hpos, hfits, ?_, ?_⟩ <;> simp [Books.rewritten, hv]
    · simpa [Books.rewritten, hqp] using hb.counted q hq
  · by_cases hqp : q = p
    · exact hqp ▸ hp
    · exact hb.complete q c (by simpa [Books.rewritten, hqp] using hq)

theorem allocate (hb : Represents b) (sys : Global) {shape : Shape} (hv : shape.Valid)
    (hrep : Representable total shape.align) (hle : shape.header ≤ total) (ps : List Nat) :
    (Refuses sys b.state.heap total shape.align ∧
      ∃ line, allocateCounted sys shape total b.state.heap = .error (.exit 1 line)) ∨
    ∃ p st o, allocateCounted sys shape total b.state.heap =
        .ok (p + shape.header, st.heap) ∧
      p ∉ b.refs.live ∧ o.shape = shape ∧ o.data.length + shape.header = total ∧
      Represents (b.allocated st p o ps) ∧ Beside b.state st := by
  rcases rocAlloc_spec sys hb.refines.wellFormed hrep with
    ⟨hrefused, hexit⟩ | ⟨p, h, hok, hgrown⟩
  · refine .inl ⟨hrefused, "roc_alloc: out of memory", ?_⟩
    rw [allocateCounted, hexit]
    rfl
  · right
    have fresh : p ∉ b.refs.live := by
      intro hp
      obtain ⟨-, -, -, hcell⟩ := hb.counted p hp
      exact (hb.refines.holds p _ hcell).not_free hgrown.holds.past hgrown.free
    have added := Refines.add hb.refines hgrown
    have room := hv.room
    let bytes := h.mem.read p total
    let o : Object := ⟨shape, bytes.take (shape.header - 8), bytes.drop shape.header⟩
    have front_length : o.front.length = shape.header - 8 := by
      rw [List.length_take, Mem.length_read]
      omega
    have cell_eq : (⟨shape.align, bytes⟩ : Cell).overwrite (shape.header - 8) (leBytes 8 1) =
        o.cell 1 := by
      simp only [Cell.overwrite, Object.cell, length_leBytes, o]
      rw [Nat.sub_add_cancel room]
    have inside : shape.header - 8 + (leBytes 8 1).length ≤ bytes.length := by
      rw [length_leBytes, Mem.length_read]
      omega
    have cell : Function.update b.state.store p (some (⟨shape.align, bytes⟩ : Cell)) p =
        some ⟨shape.align, bytes⟩ := Function.update_self _ _ _
    have held := added.holds p _ cell
    have written := Refines.write added cell inside
    rw [cell_eq, Function.update_idem] at written
    have dvd : 8 ∣ p + (shape.header - 8) :=
      Nat.dvd_add (held.eight_dvd added.wellFormed) (Nat.dvd_sub hv.eight (Nat.dvd_refl 8))
    let st : State := ⟨⟨h.mem.write (p + (shape.header - 8)) (leBytes 8 1), h.live⟩,
      Function.update b.state.store p (some (o.cell 1)), b.state.others⟩
    have kept : Beside b.state st := by
      refine ⟨rfl, fun c hc => ?_⟩
      have hlive := hb.refines.others hc
      refine (hgrown.agree c hlive).trans ?_
      exact Block.Agree.write (hgrown.free.2 c hlive) (held.covers_bytes inside)
    have write : writeUsize h (p + shape.header - 8) 1 = .ok st.heap := by
      rw [Nat.add_sub_assoc room, writeUsize, expect_of dvd, ok_bind,
        writeBytes_spec added cell inside]
    refine ⟨p, st, o, ?_, fresh, rfl, ?_, ?_, kept⟩
    · rw [allocateCounted, hok, ok_bind]
      exact congrArg (· >>= fun h => pure (p + shape.header, h)) write
    · simp only [o, bytes, List.length_drop, Mem.length_read]
      omega
    · refine ⟨written, fun q hq => ?_, fun q c hq => ?_, fun data hdata =>
        (hb.statics data hdata).frame kept⟩
      · by_cases hqp : q = p
        · subst hqp
          have one : (b.refs.alloc q ps).count q = 1 := Function.update_self _ _ _
          simp only [Books.allocated, one]
          refine ⟨by decide, by decide, ?_, ?_⟩
          · rw [Function.update_self]
            exact ⟨hv, by rw [front_length]; exact Nat.sub_add_cancel room⟩
          · simp [st]
        · have old : q ∈ b.refs.live := by
            rcases Finset.mem_insert.mp hq with heq | old
            · exact absurd heq hqp
            · exact old
          simpa [Books.allocated, RefHeap.alloc, hqp, st] using hb.counted q old
      · by_cases hqp : q = p
        · exact hqp ▸ Finset.mem_insert_self _ _
        · have old : b.state.store q = some c := by simpa [Books.allocated, st, hqp] using hq
          exact Finset.mem_insert_of_mem (hb.complete q c old)

theorem storing {st : State} {o : Object} (hb : Represents (b.allocated st p o []))
    (ps : List Nat) : Represents (b.allocated st p o ps) :=
  ⟨hb.refines, hb.counted, hb.complete, hb.statics⟩

theorem fill {st : State} {o o' : Object} {ps : List Nat} {bytes : List UInt8}
    (hb : Represents (b.allocated st p o ps))
    (hlen : off + bytes.length ≤ (o.cell 1).bytes.length)
    (ho : (o.cell 1).overwrite off bytes = o'.cell 1) (hv : o'.Valid) :
    ∃ st', writeBytes st.heap (p + off) bytes = .ok st'.heap ∧
      Represents (b.allocated st' p o' ps) ∧ Beside st st' := by
  have hp : p ∈ (b.allocated st p o ps).refs.live := Finset.mem_insert_self _ _
  have object : (b.allocated st p o ps).object p = o := Function.update_self _ _ _
  have count : (b.allocated st p o ps).refs.count p = 1 := Function.update_self _ _ _
  have inside : off + bytes.length ≤ (((b.allocated st p o ps).object p).cell
      ((b.allocated st p o ps).refs.count p)).bytes.length := by rwa [object, count]
  obtain ⟨hwrite, hrep, hbeside⟩ := hb.rewrite hp inside (by rwa [object, count]) hv
  refine ⟨_, hwrite, ?_, hbeside⟩
  have same : (b.allocated st p o ps).rewritten p off bytes o' =
      b.allocated ((b.allocated st p o ps).rewritten p off bytes o').state p o' ps := by
    simp only [Books.rewritten, Books.allocated, Function.update_idem]
  rwa [← same]

theorem valid_allocated {st : State} {o : Object} {ps : List Nat}
    (hb : Represents (b.allocated st p o ps)) : o.Valid := by
  have valid := (hb.counted p (Finset.mem_insert_self _ _)).2.2.1
  rwa [show (b.allocated st p o ps).object p = o from Function.update_self _ _ _] at valid

theorem fillPrefix {st : State} {o : Object} {ps : List Nat} {bytes : List UInt8}
    (hb : Represents (b.allocated st p o ps)) (hlen : bytes.length ≤ o.data.length) :
    ∃ st', writeBytes st.heap (p + o.shape.header) bytes = .ok st'.heap ∧
      Represents (b.allocated st' p { o with data := bytes ++ o.data.drop bytes.length } ps) ∧
      Beside st st' := by
  have hv := valid_allocated hb
  have front := hv.front
  have inside : o.shape.header + bytes.length ≤ (o.cell 1).bytes.length := by
    rw [Object.length_cell]
    omega
  refine hb.fill inside ?_ ⟨hv.shape, hv.front⟩
  have head : (o.front ++ leBytes 8 1).length = o.shape.header := by simp [front]
  simp only [Cell.overwrite, Object.cell]
  rw [List.take_left' head, ← List.drop_drop, List.drop_left' head, List.append_assoc]

theorem fillData {st : State} {o : Object} {ps : List Nat} {bytes : List UInt8}
    (hb : Represents (b.allocated st p o ps)) (hlen : bytes.length = o.data.length) :
    ∃ st', writeBytes st.heap (p + o.shape.header) bytes = .ok st'.heap ∧
      Represents (b.allocated st' p { o with data := bytes } ps) ∧ Beside st st' := by
  have filled := hb.fillPrefix (Nat.le_of_eq hlen)
  rwa [hlen, List.drop_length, List.append_nil] at filled

theorem load_data (hb : Represents b) (hp : p ∈ b.refs.live)
    (hle : off + n ≤ (b.object p).data.length) :
    b.state.heap.load (p + (b.object p).shape.header + off) n =
      some (((b.object p).data.drop off).take n) := by
  obtain ⟨-, -, hv, hcell⟩ := hb.counted p hp
  have held := hb.refines.holds p _ hcell
  have front := hv.front
  have inside : (b.object p).shape.header + off + n ≤
      ((b.object p).cell (b.refs.count p)).bytes.length := by
    rw [Object.length_cell]
    omega
  rw [Nat.add_assoc, Heap.load_of_covers held.live (held.covers_bytes inside),
    Holds.read_within held inside, ← front, ← List.drop_drop, Object.bytes_data]

theorem data_lt (hb : Represents b) (hp : p ∈ b.refs.live) :
    p + (b.object p).shape.header + (b.object p).data.length < addressSpace := by
  obtain ⟨-, -, hv, hcell⟩ := hb.counted p hp
  have lt := (hb.refines.holds p _ hcell).end_lt hb.refines.wellFormed
  have front := hv.front
  rw [Object.length_cell] at lt
  omega

theorem read_count (hb : Represents b) (hp : p ∈ b.refs.live) :
    readUsize b.state.heap (p + (b.object p).shape.header - 8) = .ok (b.refs.count p) := by
  obtain ⟨-, hfits, hv, hcell⟩ := hb.counted p hp
  exact (Valid.count_slot hb.refines hv hcell hfits).1

theorem header_dvd (hb : Represents b) (hp : p ∈ b.refs.live) :
    8 ∣ p + (b.object p).shape.header ∧
      (b.object p).shape.align ∣ p + (b.object p).shape.header := by
  obtain ⟨-, -, hv, hcell⟩ := hb.counted p hp
  have held := hb.refines.holds p _ hcell
  exact ⟨Nat.dvd_add (held.eight_dvd hb.refines.wellFormed) hv.shape.eight,
    Nat.dvd_add (held.align_dvd hb.refines.wellFormed) hv.shape.aligned⟩

theorem fillFront {st : State} {o : Object} {ps : List Nat}
    (hb : Represents (b.allocated st p o ps)) (hroom : 16 ≤ o.shape.header) (word : Nat) :
    ∃ st' pre, writeUsize st.heap (p + o.shape.header - 16) word = .ok st'.heap ∧
      Represents (b.allocated st' p { o with front := pre ++ leBytes 8 word } ps) ∧
      Beside st st' := by
  have hv := valid_allocated hb
  have front := hv.front
  have hp : p ∈ (b.allocated st p o ps).refs.live := Finset.mem_insert_self _ _
  have dvd := (hb.header_dvd hp).1
  rw [show (b.allocated st p o ps).object p = o from Function.update_self _ _ _] at dvd
  have slot : p + o.shape.header - 16 = p + (o.front.length - 8) := by omega
  have aligned : 8 ∣ p + o.shape.header - 16 := Nat.dvd_sub dvd ⟨2, rfl⟩
  have inside : o.front.length - 8 + (leBytes 8 word).length ≤ (o.cell 1).bytes.length := by
    rw [Object.length_cell, length_leBytes]
    omega
  have pre_length : (o.front.take (o.front.length - 8)).length = o.front.length - 8 :=
    List.length_take_of_le (by omega)
  have written : (o.cell 1).overwrite (o.front.length - 8) (leBytes 8 word) =
      Object.cell { o with front := o.front.take (o.front.length - 8) ++ leBytes 8 word } 1 := by
    have past : o.front.length - 8 + 8 = o.front.length := by omega
    simp only [Cell.overwrite, Object.cell, length_leBytes, past, List.append_assoc]
    rw [List.take_append_of_le_length (by omega), List.drop_left' rfl]
  obtain ⟨st', hwrite, hrep, hbeside⟩ := hb.fill inside written
    ⟨hv.shape, by simp only [List.length_append, pre_length, length_leBytes]; omega⟩
  refine ⟨st', _, ?_, hrep, hbeside⟩
  rw [writeUsize, expect_of aligned, ok_bind, slot, hwrite]

theorem read_front (hb : Represents b) (hp : p ∈ b.refs.live) {word : Nat}
    (hfront : (b.object p).front = pre ++ leBytes 8 word) (hlt : word < addressSpace) :
    readUsize b.state.heap (p + (b.object p).shape.header - 16) = .ok word := by
  obtain ⟨-, -, hv, hcell⟩ := hb.counted p hp
  have held := hb.refines.holds p _ hcell
  have front := hv.front
  have length : (b.object p).front.length = pre.length + 8 := by rw [hfront]; simp
  have slot : p + (b.object p).shape.header - 16 = p + pre.length := by omega
  have aligned : 8 ∣ p + (b.object p).shape.header - 16 :=
    Nat.dvd_sub (hb.header_dvd hp).1 ⟨2, rfl⟩
  have inside : pre.length + 8 ≤ ((b.object p).cell (b.refs.count p)).bytes.length := by
    rw [Object.length_cell]
    omega
  have bytes : (((b.object p).cell (b.refs.count p)).bytes.drop pre.length).take 8 =
      leBytes 8 word := by
    simp only [Object.cell, hfront, List.append_assoc]
    rw [List.drop_left' rfl, List.take_left' (length_leBytes 8 word)]
  rw [readUsize, expect_of aligned, ok_bind, slot,
    Heap.load_of_covers held.live (held.covers_bytes inside), Holds.read_within held inside, bytes]
  exact congrArg Except.ok (ofLe_leBytes_of_lt hlt)

end Represents

end RocTui.Counts
