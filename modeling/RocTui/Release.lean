import RocTui.Execution

namespace RocTui.Release

open RocTui.Lib RocTui.Abi RocTui.Tcp RocTui.Dispatch RocTui.Effects RocTui.Host
  RocTui.Execution

def afterEffects (w : World) (next : Option UpdateForHost) : Option Nat × HostIo → World
  | (some code, io) => { w with pc := .exited code, io := io.cleanupTerminal }
  | (none, io) => { w with pc := .effects [] next, io := io }

theorem handleEffects_steps (outcome : Nat → WriteOutcome) (effects : List Effect) {w : World}
    (hpc : w.pc = .effects effects next) :
    ∃ es, Run (Step cap) w es (afterEffects w next (handleEffects outcome effects w.io)) := by
  induction effects generalizing w with
  | nil =>
    have same : afterEffects w next (handleEffects outcome [] w.io) = w := by
      simp only [handleEffects, afterEffects, ← hpc]
    rw [same]
    exact ⟨[], .nil⟩
  | cons e rest ih =>
    rcases hcode : handleEffect (outcome rest.length) w.io e with ⟨code, io', sent⟩
    simp only [handleEffects, hcode]
    cases code with
    | some code => exact ⟨_, Run.nil.snoc (.exit hpc hcode)⟩
    | none =>
      have first : Run (Step cap) w [.effect e sent]
          { w with pc := .effects rest next, io := io' } := Run.nil.snoc (.effect hpc hcode)
      obtain ⟨es, hrun⟩ := ih (w := { w with pc := .effects rest next, io := io' }) rfl
      exact ⟨_, first.trans hrun⟩

def dataRefs : Effect → List Alloc
  | .TcpSend _ data => reference .bytes data.addr
  | _ => []

def released (effects : List Effect) : List Alloc := (untilExit effects).flatMap dataRefs

def Static (h : Heap) : Prop := ∀ kind n, h.count ⟨kind, .readOnly n⟩ = 0

theorem Static.decrefAll {h : Heap} (hs : Static h) (ps : List Alloc) :
    Static (h.decrefAll ps) := by
  intro kind n
  rw [RefHeap.count_decrefAll, hs, Nat.zero_sub]

theorem Static.decref_eq {h : Heap} (hs : Static h) (kind : Kind) (l : RocList α) :
    l.decref h kind = h.decrefAll (reference kind l.addr) := by
  unfold RocList.decref
  cases ha : l.addr with
  | null => rfl
  | readOnly n =>
    have zero := hs kind n
    simp [reference, RefHeap.decref, zero]
  | heap n => rfl

theorem sent_heap {id : Nat} (h : Sent io id data io' outcome) : io'.heap = io.heap := by
  cases h <;> rfl

theorem handled_heap (hs : Static io.heap) (h : Handled io e code io' outcome) :
    io'.heap = io.heap.decrefAll (dataRefs e) := by
  cases h with
  | exit | print | writeToFile => rfl
  | tcpSend hsent =>
    change RocList.decref _ _ _ = _
    rw [sent_heap hsent, hs.decref_eq]
    rfl

theorem released_cons (h : isExit e = false) (rest : List Effect) :
    released (e :: rest) = dataRefs e ++ released rest := by
  cases e with
  | Exit code => cases h
  | _ => rfl

theorem heap_handleEffects (outcome : Nat → WriteOutcome) (effects : List Effect) (io : HostIo)
    (hs : Static io.heap) :
    (handleEffects outcome effects io).2.heap = io.heap.decrefAll (released effects) := by
  induction effects generalizing io with
  | nil => rfl
  | cons e rest ih =>
    rcases hcode : handleEffect (outcome rest.length) io e with ⟨code, io', sent⟩
    have done := handled hcode
    have heap := handled_heap hs done
    simp only [handleEffects, hcode]
    cases code with
    | some code =>
      obtain ⟨rfl, rfl, _⟩ := done.exit_eq
      rfl
    | none =>
      have goes : isExit e = false := by cases done <;> rfl
      have static' : Static io'.heap := by
        rw [heap]
        exact hs.decrefAll _
      rw [ih io' static', heap, released_cons goes, RefHeap.decrefAll_append]

theorem released_sublist (effects : List Effect) :
    (released effects).Sublist (effects.flatMap Effect.refs) := by
  induction effects with
  | nil => exact List.Sublist.slnil
  | cons e rest ih =>
    cases e with
    | Exit code => exact List.nil_sublist _
    | TcpSend stream data => exact ih.append_left _
    | Print text => exact ih.trans (List.sublist_append_right _ _)
    | WriteToFile content filename => exact ih.trans (List.sublist_append_right _ _)

theorem kind_of_released (h : q ∈ released effects) : q.kind = .bytes := by
  obtain ⟨e, _, hq⟩ := List.mem_flatMap.mp h
  cases e with
  | TcpSend stream data => rw [mem_reference hq]
  | _ => cases hq

/-- What a record of `roc_init` or `roc_update` hands to the host: one reference to the effects
list and one to the model.  The counts are exact, and the list allocation owns what the effects
hold, once, however many others refer to the list. -/
structure HandedOver (h : Heap) (effects : RocList Effect) (m : RocBox) (others : List Alloc) :
    Prop where
  balanced : h.Balanced (reference .effects effects.addr ++ (reference .model m ++ others))
  static : Static h
  stored : ∀ n, effects.addr = .heap n →
    (effects.asSlice.flatMap Effect.refs).Subperm (h.children ⟨.effects, .heap n⟩)
  readOnly : ∀ n, effects.addr = .readOnly n → effects.asSlice.flatMap Effect.refs = []

def FromModel (h : Heap) (m : RocBox) (p : Alloc) : Prop :=
  ∃ r ∈ reference .model m, h.Reaches r p

/-- Every counted allocation the model still reaches is alive and has a count that covers the
references that remain once the host is done with the effects list. -/
def KeepsModel (h h' : Heap) (effects : RocList Effect) (m : RocBox) (others : List Alloc) :
    Prop :=
  ∀ p, FromModel h m p → h.count p ≠ 0 →
    h.remaining (reference .model m ++ others) ⟨.effects, effects.addr⟩ p ≤ h'.count p ∧
    p ∈ h'.live

theorem HandedOver.heap_of_released (hh : HandedOver h effects m others)
    (hq : q ∈ released effects.asSlice) : ∃ n, effects.addr = .heap n := by
  have mem := (released_sublist effects.asSlice).subset hq
  cases ha : effects.addr with
  | null => simp [RocList.asSlice, ha] at mem
  | readOnly n =>
    rw [hh.readOnly n ha] at mem
    cases mem
  | heap n => exact ⟨n, rfl⟩

theorem HandedOver.balanced_cons (hh : HandedOver h effects m others)
    (ha : effects.addr = .heap n) :
    h.Balanced (⟨.effects, effects.addr⟩ :: (reference .model m ++ others)) := by
  have balanced := hh.balanced
  rw [ha] at balanced ⊢
  exact balanced

theorem HandedOver.unique (hh : HandedOver h effects m others)
    (hone : effects.hasOneRef h .effects = true) :
    ∃ n, effects.addr = .heap n ∧ h.count ⟨.effects, effects.addr⟩ = 1 := by
  unfold RocList.hasOneRef at hone
  cases ha : effects.addr with
  | null => simp [ha] at hone
  | readOnly n =>
    have zero := hh.static .effects n
    simp [ha, zero] at hone
  | heap n => exact ⟨n, rfl, by simpa [ha] using hone⟩

theorem HandedOver.keeps_of_unique (hh : HandedOver h effects m others)
    (hone : effects.hasOneRef h .effects = true) :
    KeepsModel h (h.decrefAll (released effects.asSlice)) effects m others := by
  obtain ⟨n, ha, hcount⟩ := hh.unique hone
  have balanced := hh.balanced_cons ha
  have stored : (released effects.asSlice).Subperm (h.children ⟨.effects, effects.addr⟩) := by
    rw [ha]
    exact (released_sublist effects.asSlice).subperm.trans (hh.stored n ha)
  intro p hp hc
  obtain ⟨r, hr, hreach⟩ := hp
  have root : r ∈ reference .model m ++ others := List.mem_append_left _ hr
  have covered := balanced.release_unique hcount stored hc
  have remains := balanced.remaining_pos hcount root hreach
  have alive := (balanced.not_reaches hcount root hreach).1
  exact ⟨covered, RefHeap.mem_live_decrefAll _ _ _ alive (Nat.lt_of_lt_of_le remains covered)⟩

theorem HandedOver.keeps_of_apart (hh : HandedOver h effects m others)
    (happart : ∀ q ∈ released effects.asSlice, h.count q ≠ 0 → ¬FromModel h m q) :
    KeepsModel h (h.decrefAll (released effects.asSlice)) effects m others := by
  intro p hp hc
  have kept : (h.decrefAll (released effects.asSlice)).count p = h.count p :=
    RefHeap.count_decrefAll_of_notMem fun hmem => happart p hmem hc hp
  have exact := hh.balanced.exact p hc
  have fewer := h.remaining_le_references (reference .model m ++ others)
    ⟨.effects, effects.addr⟩ p
  refine ⟨?_, ?_⟩
  · rw [kept, exact]
    refine Nat.le_trans fewer ?_
    simp only [RefHeap.references, List.count_append]
    omega
  · apply RefHeap.mem_live_decrefAll
    · exact hh.balanced.closed p (hh.balanced.count_pos hc)
    · rw [kept]
      exact Nat.pos_of_ne_zero hc

/-- Releasing the data of an effects list is covered by the host's own references exactly if the
host is the only owner of the list, or nothing it releases is within reach of the model. -/
theorem keeps_model_iff (outcome : Nat → WriteOutcome) (io : HostIo) (effects : RocList Effect)
    (m : RocBox) (others : List Alloc) (hh : HandedOver io.heap effects m others) :
    KeepsModel io.heap (handleEffects outcome effects.asSlice io).2.heap effects m others ↔
      effects.hasOneRef io.heap .effects = true ∨
      ∀ q ∈ released effects.asSlice, io.heap.count q ≠ 0 → ¬FromModel io.heap m q := by
  rw [heap_handleEffects outcome effects.asSlice io hh.static]
  constructor
  · intro keeps
    by_contra hno
    simp only [not_or, not_forall, not_not] at hno
    obtain ⟨hshared, q, hq, hc, hreach⟩ := hno
    obtain ⟨n, ha⟩ := hh.heap_of_released hq
    have several : io.heap.count ⟨.effects, effects.addr⟩ ≠ 1 := by
      intro hone
      apply hshared
      rw [ha] at hone
      simp [RocList.hasOneRef, ha, hone]
    have apart : (⟨.effects, effects.addr⟩ : Alloc) ≠ q := by
      intro heq
      have kind := kind_of_released hq
      rw [← heq] at kind
      cases kind
    have short := (hh.balanced_cons ha).release_shared several apart hc hq
    exact Nat.not_le_of_lt short (keeps q hreach hc).1
  · intro h
    cases h with
    | inl hone => exact hh.keeps_of_unique hone
    | inr happart => exact hh.keeps_of_apart happart

section

def theModel : Alloc := ⟨.model, .heap 0⟩
def theList : Alloc := ⟨.effects, .heap 1⟩
def theData : Alloc := ⟨.bytes, .heap 2⟩

def sendOne : RocList Effect := ⟨.heap 1, [.TcpSend ⟨0⟩ ⟨.heap 2, [104, 105]⟩]⟩

def sendHeap (shared : Bool) : Heap where
  count p :=
    if p = theModel then 1
    else if p = theList then (if shared then 2 else 1)
    else if p = theData then 1
    else 0
  children p :=
    if p = theModel then (if shared then [theList] else [])
    else if p = theList then [theData]
    else []
  live := {theModel, theList, theData}

theorem sendHeap_handedOver (shared : Bool) :
    HandedOver (sendHeap shared) sendOne (.heap 0) [] where
  balanced := by
    have known : ∀ p, p ∉ (sendHeap shared).live →
        (sendHeap shared).count p = 0 ∧ (sendHeap shared).references [theList, theModel] p = 0 := by
      intro p hp
      simp only [sendHeap, Finset.mem_insert, Finset.mem_singleton, not_or] at hp
      obtain ⟨hm, hl, hd⟩ := hp
      have list_model : theList ≠ theModel := by decide
      have data_model : theData ≠ theModel := by decide
      have data_list : theData ≠ theList := by decide
      cases shared <;>
        simp [sendHeap, RefHeap.references, hm, hl, hd, Ne.symm hm, Ne.symm hl, Ne.symm hd,
          list_model, data_model, data_list]
    constructor
    · intro p hp
      have live : p ∈ (sendHeap shared).live := by
        by_contra hno
        exact hp (known p hno).1
      simp only [sendHeap, Finset.mem_insert, Finset.mem_singleton] at live
      rcases live with rfl | rfl | rfl <;> cases shared <;> decide
    · intro p hp
      by_contra hno
      exact Nat.ne_of_gt hp (known p hno).2
  static := by
    intro kind n
    simp [sendHeap, theModel, theList, theData]
  stored := by
    intro n hn
    cases hn
    cases shared <;> decide
  readOnly := nofun

def sendIo (shared : Bool) : HostIo := { World.initial.io with heap := sendHeap shared }

theorem keeps_model_iff_unshared :
    KeepsModel (sendHeap false)
      (handleEffects (fun _ => .ok) sendOne.asSlice (sendIo false)).2.heap sendOne (.heap 0) [] :=
  (keeps_model_iff (fun _ => .ok) (sendIo false) sendOne (.heap 0) []
    (sendHeap_handedOver false)).mpr (.inl (by decide))

theorem shared_list_frees_bytes : ¬∀ outcome io effects m others,
    HandedOver io.heap effects m others →
      KeepsModel io.heap (handleEffects outcome effects.asSlice io).2.heap effects m others := by
  intro keepsModel
  have keeps := keepsModel (fun _ => .ok) (sendIo true) sendOne (.heap 0) []
    (sendHeap_handedOver true)
  have list : (sendHeap true).Reaches theModel theList :=
    .child .refl (by decide : theList ∈ (sendHeap true).children theModel)
  have bytes : (sendHeap true).Reaches theModel theData :=
    .child list (by decide : theData ∈ (sendHeap true).children theList)
  have alive := (keeps theData ⟨theModel, List.mem_singleton_self _, bytes⟩ (by decide)).2
  exact absurd alive (by decide)

end

end RocTui.Release
