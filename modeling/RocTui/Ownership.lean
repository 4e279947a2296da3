import RocTui.Lib.Ledger
import RocTui.Release

namespace RocTui.Ownership

open RocTui.Lib RocTui.Abi RocTui.Tcp RocTui.Dispatch RocTui.Effects RocTui.Host
  RocTui.Execution RocTui.Release

def recordRefs (r : UpdateForHost) : List Alloc :=
  r.sub.refs ++ effectsRefs r.effects ++ reference .model r.m

/-- What the host comes to own: one reference of each result, and those `incref_box` makes. -/
def gains : Obs → List Alloc
  | .rocInit _ (.returned r _) => recordRefs r
  | .rocUpdate _ _ _ (.returned r _) => recordRefs r
  | .increfBox model => reference .model model
  | .rocView _ _ (.returned v _) => ViewForHostResult.refs v
  | .makeEvent _ (.returned box _) => reference .event box
  | _ => []

/-- An entry point consumes one reference of each argument.  The bytes some `make_event_*` take
are left out: the host allocates them for the call. -/
def consumes : Obs → List Alloc
  | .rocView _ model _ => reference .model model
  | .makeEvent call _ => reference .callable call.closure
  | .rocUpdate _ model event _ => reference .model model ++ reference .event event.box
  | _ => []

/-- What the host releases itself: the data of a `TcpSend`. -/
def releases : Obs → List Alloc
  | .effect e _ => dataRefs e
  | _ => []

def references : Ledger Obs Alloc where
  gains := gains
  spends o := consumes o ++ releases o

def owned (log : List Obs) (a : Alloc) : Int := references.owned log a

/-- A model on the heap is handed over with a count; only static data carries the refcount 0. -/
def Conforms : Obs → Prop
  | .rocInit _ (.returned r heap) => ∀ a ∈ reference .model r.m, heap.count a ≠ 0
  | .rocUpdate _ _ _ (.returned r heap) => ∀ a ∈ reference .model r.m, heap.count a ≠ 0
  | _ => True

abbrev Conforming (cap : Nat) : List Obs → World → Prop :=
  Run (fun w es w' => Step cap w es w' ∧ ∀ o ∈ es, Conforms o) World.initial

theorem Conforming.runs (h : Conforming cap log w) : Runs cap log w :=
  Run.mono (fun hs => hs.1) h

theorem conforming (h : Runs cap log w) (hc : ∀ o ∈ log, Conforms o) : Conforming cap log w :=
  Run.restrict h hc

def used (event : Event) : List Alloc :=
  match event.source with
  | .timer => reference .event event.box
  | .made call => reference .callable call.closure

def unused (subs : Subscriptions) (event : Event) : List Alloc := subs.refs.diff (used event)

def Offers (subs : Subscriptions) (event : Event) : Prop :=
  match event.source with
  | .timer => ∃ p, subs.timer = .Ok p ∧ p.onFire = event.box
  | .made call => FromSubs subs call

theorem count_closure_le (h : FromSubs subs call) (a : Alloc) :
    (reference .callable call.closure).count a ≤ subs.refs.count a := by
  cases h with
  | stdin hs =>
    simp [EventCall.closure, Subscriptions.refs, TryResult.refs, List.count_append, hs]
    omega
  | acceptConnected hs | acceptDisconnected hs =>
    simp [EventCall.closure, Subscriptions.refs, TryResult.refs, List.count_append, hs]
    omega
  | connectConnected ha hs | connectDisconnected ha hs =>
    simp [EventCall.closure, Subscriptions.refs, TryResult.refs, List.count_append, ha, hs]
    omega
  | receive hs =>
    simp [EventCall.closure, Subscriptions.refs, TryResult.refs, List.count_append, hs]
    omega

theorem Offers.count_used {event : Event} (h : Offers subs event) (a : Alloc) :
    (used event).count a ≤ subs.refs.count a := by
  obtain ⟨box, source⟩ := event
  cases source with
  | timer =>
    obtain ⟨p, hp, rfl⟩ := h
    simp only [used, Subscriptions.refs, TryResult.refs, hp, List.count_append]
    omega
  | made call => exact count_closure_le h a

theorem Offers.count_refs {event : Event} (h : Offers subs event) (a : Alloc) :
    subs.refs.count a = (used event).count a + (unused subs event).count a := by
  have le := h.count_used a
  rw [unused, List.count_diff]
  omega

def textRefs : Effect → List Alloc
  | .Print text => text.refs
  | .WriteToFile content filename => content.refs ++ filename.refs
  | _ => []

theorem count_effectRefs (effects : List Effect) (a : Alloc) :
    (effects.flatMap Effect.refs).count a =
      (effects.flatMap textRefs).count a + (effects.flatMap dataRefs).count a := by
  induction effects with
  | nil => rfl
  | cons e rest ih =>
    have split : e.refs.count a = (textRefs e).count a + (dataRefs e).count a := by
      cases e <;> simp [Effect.refs, textRefs, dataRefs]
    simp only [List.flatMap_cons, List.count_append, ih, split]
    omega

/-- What nothing in the host looks at again once it has come: the effects list with the strings
in it, and the rows of a view. -/
def discards : Obs → List Alloc
  | .rocInit _ (.returned r _) =>
    reference .effects r.effects.addr ++ r.effects.asSlice.flatMap textRefs
  | .rocUpdate _ _ _ (.returned r _) =>
    reference .effects r.effects.addr ++ r.effects.asSlice.flatMap textRefs
  | .rocView _ _ (.returned v _) => ViewForHostResult.refs v
  | _ => []

def superseded (log : List Obs) : List (UpdateForHost × Event) :=
  (receipts log).zip (foldedEvents log)

def dropped (log : List Obs) : List Alloc :=
  log.flatMap discards ++ (superseded log).flatMap fun p => unused p.1.sub p.2

def kept (w : World) : List Alloc :=
  match w.pc with
  | .start | .size | .init => []
  | .startTcp effects | .clientNotify _ effects | .effects effects none =>
    reference .model w.currentModel ++ w.currentSubs.refs ++ effects.flatMap dataRefs
  | .effects effects (some r) =>
    reference .model r.m ++ r.sub.refs ++ effects.flatMap dataRefs
  | .view =>
    reference .model w.currentModel ++ reference .model w.currentModel ++ w.currentSubs.refs
  | .update event =>
    reference .model w.currentModel ++ reference .event event.box ++ unused w.currentSubs event
  | _ => reference .model w.currentModel ++ w.currentSubs.refs

def held (log : List Obs) (w : World) : List Alloc := kept w ++ dropped log

def Sourced (w : World) : Prop :=
  match w.pc with
  | .makeEvent call => FromSubs w.currentSubs call
  | .update event => Offers w.currentSubs event
  | _ => True

theorem Step.sourced (hw : w.WellFormed) (h : Sourced w) (hs : Step cap w es w') :
    Sourced w' := by
  cases hs with
  | recvDispatched hpc ht hc hd =>
    obtain ⟨-, -, hfrom⟩ := dispatched hd
    exact hfrom
  | eventMade hpc =>
    simp only [Sourced, hpc] at h
    exact h
  | timerEvent hpc ht =>
    have placed := hw.placed
    simp only [World.Placed, hpc] at placed
    obtain ⟨p, hp⟩ := isOk_of_tag placed
    rw [timerFireEvent_ok hp] at ht
    cases ht
    exact ⟨p, hp, rfl⟩
  | goto hg =>
    cases hg with
    | stdinRead hpc hclosure =>
      cases hstdin : w.currentSubs.stdin with
      | Err => simp [hstdin, TryResult.payloadOk] at hclosure
      | Ok closure =>
        rw [hstdin] at hclosure
        cases hclosure
        exact .stdin hstdin
    | _ => trivial
  | thread | tick =>
    unfold Sourced at h ⊢
    exact h
  | _ => trivial

theorem sourced (h : Runs cap log w) : Sourced w := by
  refine h.invariant_of (I := fun _ w => Sourced w) Runs.wellFormed ?_
    fun hw hi hs => Step.sourced hw hi hs
  trivial

def Retainable (w : World) : Prop :=
  match w.pc with
  | .startTcp _ | .clientNotify _ _ | .effects _ none | .incref =>
    ∀ a ∈ reference .model w.currentModel, w.io.heap.count a ≠ 0
  | .effects _ (some r) => ∀ a ∈ reference .model r.m, w.io.heap.count a ≠ 0
  | _ => True

theorem count_model_handled {a : Alloc} (h : Handled io e code io' outcome)
    (ha : a ∈ reference .model m) : io'.heap.count a = io.heap.count a := by
  cases h with
  | exit | print | writeToFile => rfl
  | tcpSend hsent =>
    rename_i io₁ stream data
    have kind : a.kind = .model := by rw [mem_reference ha]
    change (RocList.decref io₁.heap .bytes data).count a = _
    unfold RocList.decref
    rw [sent_heap hsent]
    split
    · rfl
    · rename_i ptr hptr
      rw [RefHeap.count_decref, List.count_eq_zero_of_not_mem, Nat.sub_zero]
      intro hm
      rw [List.mem_singleton.mp hm] at kind
      cases kind

theorem retainable_step (hw : w.WellFormed) (h : Retainable w) (hs : Step cap w es w')
    (hc : ∀ o ∈ es, Conforms o) : Retainable w' := by
  cases hs with
  | initReturns | updateReturns => exact hc _ (List.mem_singleton_self _)
  | serverStarted hpc | clientConnects hpc | clientStarted hpc | updateEffectsDone hpc =>
    simp only [Retainable, hpc] at h
    exact h
  | effect hpc he =>
    rename_i next
    cases next with
    | none | some r =>
      simp only [Retainable, hpc] at h
      intro a ha
      rw [count_model_handled (handled he) ha]
      exact h a ha
  | goto hg =>
    cases hg with
    | tcpNotRequested hpc | tcpFails hpc | initEffectsDone hpc =>
      simp only [Retainable, hpc] at h
      exact h
    | misread hm => simp [hw.placed.reads_ok] at hm
    | _ => trivial
  | thread | tick =>
    unfold Retainable at h ⊢
    exact h
  | _ => trivial

theorem retainable (h : Conforming cap log w) : Retainable w := by
  refine Run.invariant_of (I := fun _ w => Retainable w)
    (fun h => Runs.wellFormed (Conforming.runs h)) ?_
    (fun hw hi hs => retainable_step hw hi hs.1 hs.2) h
  trivial

def Paired (log : List Obs) (w : World) : Prop :=
  match w.pc with
  | .start | .size | .init => receipts log = [] ∧ foldedEvents log = []
  | .exited _ | .crashed _ | .panicked | .misread => True
  | _ => (receipts log).length = (foldedEvents log).length + 1

theorem Paired.quiet {w w' : World} (h : Paired past w) (hret : receipts es = [])
    (hfold : foldedEvents es = []) (hpc : w'.pc = w.pc) : Paired (past ++ es) w' := by
  unfold Paired
  rw [receipts_append, hret, List.append_nil, foldedEvents_append, hfold, List.append_nil, hpc]
  exact h

theorem paired_step (hw : w.WellFormed) (h : Paired past w) (hs : Step cap w es w') :
    Paired (past ++ es) w' := by
  cases hs with
  | initReturns hpc =>
    simp only [Paired, hpc] at h
    change (receipts (past ++ _)).length = (foldedEvents (past ++ _)).length + 1
    rw [receipts_append, foldedEvents_append, h.1, h.2]
    rfl
  | updateReturns hpc =>
    simp only [Paired, hpc] at h
    change (receipts (past ++ _)).length = (foldedEvents (past ++ _)).length + 1
    rw [receipts_append, foldedEvents_append, List.length_append, List.length_append, h]
    rfl
  | enterTerminal hpc | sizeRead hpc =>
    simp only [Paired, hpc] at h
    change receipts (past ++ _) = [] ∧ foldedEvents (past ++ _) = []
    rw [receipts_append, foldedEvents_append, h.1, h.2]
    exact ⟨rfl, rfl⟩
  | thread hrun ht =>
    refine h.quiet ?_ ?_ rfl
    · exact filterMap_net (fun _ => rfl) _
    · exact filterMap_net (fun _ => rfl) _
  | tick => exact h.quiet rfl rfl rfl
  | goto hg =>
    rw [List.append_nil]
    unfold Paired at h
    cases hg with
    | misread hm => simp [hw.placed.reads_ok] at hm
    | unwrapsNone => trivial
    | _ hpc =>
      simp only [hpc] at h
      exact h
  | exit | noEvent | sizeFails | initCrashes | viewCrashes | makeEventCrashes | updateCrashes =>
    trivial
  | _ hpc =>
    unfold Paired at h ⊢
    rw [receipts_append, foldedEvents_append]
    simp only [hpc] at h
    simpa [receipts, receipt, foldedEvents, foldedEvent, List.filterMap_cons] using h

theorem paired (h : Runs cap log w) : Paired log w :=
  h.invariant_of (I := Paired) Runs.wellFormed ⟨rfl, rfl⟩ fun hw hi hs => paired_step hw hi hs

theorem superseded_quiet (hret : receipts es = []) (hfold : foldedEvents es = []) :
    superseded (past ++ es) = superseded past := by
  simp [superseded, receipts_append, foldedEvents_append, hret, hfold]

theorem superseded_update (hlen : (receipts past).length = (foldedEvents past).length + 1)
    (hlast : latest past = some last) (hret : receipts es = [r])
    (hfold : foldedEvents es = [event]) :
    superseded (past ++ es) = superseded past ++ [(last, event)] := by
  obtain ⟨before, hbefore⟩ : ∃ before, receipts past = before ++ [last] :=
    List.getLast?_eq_some_iff.mp hlast
  have length : before.length = (foldedEvents past).length := by
    rw [hbefore, List.length_append, List.length_singleton] at hlen
    omega
  have earlier : superseded past = before.zip (foldedEvents past) := by
    have zipped : (before ++ [last]).zip (foldedEvents past ++ []) = _ := List.zip_append length
    rw [superseded, hbefore]
    simpa using zipped
  have later : (before ++ [last, r]).zip (foldedEvents past ++ [event]) = _ :=
    List.zip_append length
  rw [earlier, superseded, receipts_append, foldedEvents_append, hbefore, hret, hfold]
  simpa using later

theorem dropped_quiet (hdisc : es.flatMap discards = []) (hret : receipts es = [])
    (hfold : foldedEvents es = []) : dropped (past ++ es) = dropped past := by
  rw [dropped, superseded_quiet hret hfold, List.flatMap_append, hdisc, List.append_nil, dropped]

theorem held_quiet {w w' : World} (hdisc : es.flatMap discards = []) (hret : receipts es = [])
    (hfold : foldedEvents es = []) (hown : ∀ a, owned es a = 0) (hkept : kept w' = kept w)
    (a : Alloc) : ((held (past ++ es) w').count a : Int) = (held past w).count a + owned es a := by
  rw [held, held, dropped_quiet hdisc hret hfold, hkept, hown a, Int.add_zero]

theorem count_record (r : UpdateForHost) (a : Alloc) :
    (recordRefs r).count a =
      (reference .model r.m ++ r.sub.refs ++ r.effects.asSlice.flatMap dataRefs).count a +
        (reference .effects r.effects.addr ++ r.effects.asSlice.flatMap textRefs).count a := by
  simp only [recordRefs, effectsRefs, List.count_append, count_effectRefs]
  omega

theorem owned_one (o : Obs) (a : Alloc) :
    owned [o] a = (gains o).count a - ((consumes o).count a + (releases o).count a) := by
  simp [owned, references, List.count_append]

theorem owned_net (os : List NetObs) (a : Alloc) : owned (os.map .net) a = 0 := by
  have gained : (os.map Obs.net).flatMap gains = [] := flatMap_net (fun _ => rfl) os
  have spent : (os.map Obs.net).flatMap (fun o => consumes o ++ releases o) = [] :=
    flatMap_net (fun _ => rfl) os
  simp only [owned, references, Ledger.owned, gained, spent]
  rfl

theorem dropped_update (h : Runs cap past w) (hpc : w.pc = .update event)
    (hret : receipts [o] = [r]) (hfold : foldedEvents [o] = [event]) (a : Alloc) :
    (dropped (past ++ [o])).count a =
      (dropped past).count a + (discards o).count a + (unused w.currentSubs event).count a := by
  have pairs := paired h
  have now := current h
  simp only [Paired, hpc] at pairs
  simp only [Current, hpc] at now
  obtain ⟨last, hlast, _, hsubs⟩ := now
  have more : superseded (past ++ [o]) = superseded past ++ [(last, event)] :=
    superseded_update pairs hlast hret hfold
  rw [dropped, dropped, more, ← hsubs]
  simp only [List.flatMap_append, List.count_append, List.flatMap_singleton]
  omega

theorem dropped_discard (hfold : foldedEvents past = [] ∨ receipts [o] = [])
    (hnone : foldedEvents [o] = []) (a : Alloc) :
    (dropped (past ++ [o])).count a = (dropped past).count a + (discards o).count a := by
  have same : superseded (past ++ [o]) = superseded past := by
    rcases hfold with hpast | hret
    · simp [superseded, foldedEvents_append, hpast, hnone]
    · exact superseded_quiet hret hnone
  rw [dropped, dropped, same]
  simp only [List.flatMap_append, List.count_append, List.flatMap_singleton]
  omega

theorem reference_of_static (hstatic : counted h .model m = false)
    (hc : ∀ a ∈ reference .model m, h.count a ≠ 0) : reference .model m = [] := by
  cases m with
  | null | readOnly => rfl
  | heap n =>
    have zero : h.count ⟨.model, .heap n⟩ = 0 := by simpa [counted] using hstatic
    exact (hc ⟨.model, .heap n⟩ (List.mem_singleton_self _) zero).elim

theorem held_step (h : Conforming cap past w) (hs : Step cap w es w')
    (hrun : w'.pc.running = true) (a : Alloc) :
    ((held (past ++ es) w').count a : Int) = (held past w).count a + owned es a := by
  have runs := Conforming.runs h
  have source := sourced (runs.snoc hs)
  cases hs with
  | initReturns hpc =>
    rename_i r heap
    have pairs := paired runs
    simp only [Paired, hpc] at pairs
    have split := count_record r a
    rw [owned_one, held, held, List.count_append, List.count_append,
      dropped_discard (.inl pairs.2) rfl]
    simp only [kept, hpc, gains, consumes, releases, discards, List.count_append,
      List.count_nil] at split ⊢
    omega
  | updateReturns hpc =>
    rename_i event r heap
    have split := count_record r a
    rw [owned_one, held, held, List.count_append, List.count_append,
      dropped_update runs hpc rfl rfl]
    simp only [kept, hpc, gains, consumes, releases, discards, List.count_append,
      List.count_nil] at split ⊢
    omega
  | effect hpc he =>
    rename_i next
    rw [owned_one, held, held, dropped_quiet rfl rfl rfl, List.count_append, List.count_append]
    cases next <;>
      simp only [kept, hpc, gains, consumes, releases, List.flatMap_cons, List.count_append,
        List.count_nil] <;>
      omega
  | exit => cases hrun
  | updateEffectsDone hpc =>
    exact held_quiet rfl rfl rfl (fun _ => rfl) (by simp [kept, hpc]) a
  | increfCounted hpc =>
    rw [owned_one, held, held, dropped_quiet rfl rfl rfl, List.count_append, List.count_append]
    simp only [kept, hpc, gains, consumes, releases, List.count_append, List.count_nil]
    omega
  | increfStatic hpc hstatic =>
    refine held_quiet rfl rfl rfl (fun _ => rfl) ?_ a
    have counted := retainable h
    simp only [Retainable, hpc] at counted
    simp only [kept, hpc, reference_of_static hstatic counted, List.nil_append]
  | viewReturns hpc =>
    rw [owned_one, held, held, List.count_append, List.count_append,
      dropped_discard (.inr rfl) rfl]
    simp only [kept, hpc, gains, consumes, releases, discards, List.count_append, List.count_nil]
    omega
  | eventMade hpc | timerEvent hpc =>
    simp only [Sourced] at source
    have split := source.count_refs a
    rw [held, held, dropped_quiet rfl rfl rfl, List.count_append, List.count_append]
    simp [kept, hpc, owned, references, gains, consumes, releases, used] at split ⊢
    omega
  | thread hr ht =>
    refine held_quiet (flatMap_net (fun _ => rfl) _) ?_ ?_ (owned_net _) rfl a
    · exact filterMap_net (fun _ => rfl) _
    · exact filterMap_net (fun _ => rfl) _
  | goto hg =>
    refine held_quiet rfl rfl rfl (fun _ => rfl) ?_ a
    cases hg with
    | misread hm => cases hrun
    | unwrapsNone => cases hrun
    | _ hpc => simp only [kept, hpc, List.flatMap_nil, List.append_nil]
  | noEvent | sizeFails | initCrashes | viewCrashes | makeEventCrashes | updateCrashes =>
    cases hrun
  | _ hpc =>
    refine held_quiet rfl rfl rfl (fun _ => rfl) ?_ a
    simp [kept, hpc]

theorem owned_eq (h : Conforming cap log w) (hrun : w.pc.running = true) (a : Alloc) :
    owned log a = (held log w).count a :=
  references.conserved (P := fun w => w.pc.running = true) rfl (fun hs => step_running hs.1)
    (fun h hs hl a => held_step h hs.1 hl a) h hrun a

def repliedHeap : Obs → Option Heap
  | .rocInit _ (.returned _ heap) => some heap
  | .rocUpdate _ _ _ (.returned _ heap) => some heap
  | .rocView _ _ (.returned _ heap) => some heap
  | .makeEvent _ (.returned _ heap) => some heap
  | _ => none

/-- A call leaves a count as it is in the heap it replies with.  Otherwise a count goes up by the
references the host gains, unless it is 0, and down by those it releases. -/
def countAfter (a : Alloc) (count : Nat) (o : Obs) : Nat :=
  match repliedHeap o with
  | some heap => heap.count a
  | none => (if count = 0 then 0 else count + (gains o).count a) - (releases o).count a

def countOf (log : List Obs) (a : Alloc) : Nat := log.foldl (countAfter a) 0

theorem countOf_append (log es : List Obs) (a : Alloc) :
    countOf (log ++ es) a = es.foldl (countAfter a) (countOf log a) := List.foldl_append

def CountsAlone (o : Obs) : Prop := repliedHeap o = none ∧ gains o = [] ∧ releases o = []

theorem countAfter_alone (h : CountsAlone o) (a : Alloc) (count : Nat) :
    countAfter a count o = count := by
  obtain ⟨hheap, hgains, hreleases⟩ := h
  simp only [countAfter, hheap, hgains, hreleases, List.count_nil]
  split <;> omega

theorem foldl_countAfter_alone {es : List Obs} (h : ∀ o ∈ es, CountsAlone o) (a : Alloc)
    (count : Nat) : es.foldl (countAfter a) count = count := by
  induction es with
  | nil => rfl
  | cons o es ih =>
    rw [List.foldl_cons, countAfter_alone (h o List.mem_cons_self)]
    exact ih fun o ho => h o (List.mem_cons_of_mem _ ho)

theorem countsAlone_net (os : List NetObs) : ∀ o ∈ os.map Obs.net, CountsAlone o := by
  intro o ho
  obtain ⟨n, _, rfl⟩ := List.mem_map.mp ho
  exact ⟨rfl, rfl, rfl⟩

theorem count_increfBox (h : Heap) (model : RocBox) (kind : Kind) (n : Nat) :
    (increfBox h .model model 1).count ⟨kind, .heap n⟩ =
      countAfter ⟨kind, .heap n⟩ (h.count ⟨kind, .heap n⟩) (.increfBox model) := by
  simp only [countAfter, repliedHeap, gains, releases, List.count_nil, Nat.sub_zero]
  cases model with
  | null =>
    simp only [increfBox, reference, List.count_nil, Nat.add_zero]
    split <;> omega
  | readOnly m => simp [increfBox, RefHeap.count_incref, reference]
  | heap m => simp [increfBox, RefHeap.count_incref, reference]

theorem count_decref_bytes (h : Heap) (data : RocList UInt8) (kind : Kind) (n : Nat) :
    (data.decref h .bytes).count ⟨kind, .heap n⟩ =
      h.count ⟨kind, .heap n⟩ - (reference .bytes data.addr).count ⟨kind, .heap n⟩ := by
  unfold RocList.decref
  cases data.addr with
  | null => rfl
  | readOnly m | heap m => simp [RefHeap.count_decref, reference]

theorem count_handled (h : Handled io e code io' outcome) (kind : Kind) (n : Nat) :
    io'.heap.count ⟨kind, .heap n⟩ =
      countAfter ⟨kind, .heap n⟩ (io.heap.count ⟨kind, .heap n⟩) (.effect e outcome) := by
  cases h with
  | exit => rw [countAfter_alone ⟨rfl, rfl, rfl⟩]
  | print | writeToFile =>
    rw [countAfter_alone ⟨rfl, rfl, rfl⟩]
    rfl
  | tcpSend hsent =>
    rw [count_decref_bytes, sent_heap hsent]
    simp only [countAfter, repliedHeap, gains, releases, dataRefs, List.count_nil]
    split <;> omega

theorem count_step (hs : Step cap w es w') (kind : Kind) (n : Nat) :
    w'.io.heap.count ⟨kind, .heap n⟩ =
      es.foldl (countAfter ⟨kind, .heap n⟩) (w.io.heap.count ⟨kind, .heap n⟩) := by
  cases hs with
  | effect hpc he => exact count_handled (handled he) kind n
  | exit hpc he => exact count_handled (handled he) kind n
  | increfCounted hpc => exact count_increfBox _ _ _ _
  | initReturns | updateReturns | viewReturns => rfl
  | eventMade hpc =>
    rw [List.foldl_cons, List.foldl_cons, List.foldl_nil, countAfter_alone ⟨rfl, rfl, rfl⟩]
    rfl
  | thread hrun ht =>
    exact (foldl_countAfter_alone (countsAlone_net _) _ _).symm
  | _ =>
    refine Eq.symm (foldl_countAfter_alone ?_ _ _)
    simp [CountsAlone, repliedHeap, gains, releases]

theorem count_eq (h : Runs cap log w) (kind : Kind) (n : Nat) :
    w.io.heap.count ⟨kind, .heap n⟩ = countOf log ⟨kind, .heap n⟩ := by
  induction h with
  | nil => rfl
  | snoc hr hs ih => rw [count_step hs, ih, countOf_append]

/-- The calling convention for model boxes: a call takes no more from a count than the references
it is given, and hands over each result with a reference of its own. -/
def Honours (past : List Obs) (o : Obs) : Prop :=
  ∀ heap, repliedHeap o = some heap → ∀ n,
    countOf past ⟨.model, .heap n⟩ + (gains o).count ⟨.model, .heap n⟩ ≤
      heap.count ⟨.model, .heap n⟩ + (consumes o).count ⟨.model, .heap n⟩

def Backed (log : List Obs) : Prop :=
  ∀ n, owned log ⟨.model, .heap n⟩ ≤ countOf log ⟨.model, .heap n⟩

theorem model_notMem_releases (o : Obs) (n : Nat) : ⟨.model, .heap n⟩ ∉ releases o := by
  cases o with
  | effect e outcome =>
    cases e with
    | TcpSend stream data =>
      intro hm
      cases mem_reference hm
    | _ => exact List.not_mem_nil
  | _ => exact List.not_mem_nil

theorem Backed.concat (h : Backed past) (hcall : Honours past o)
    (hincref : ∀ n, repliedHeap o = none → ⟨.model, .heap n⟩ ∈ gains o →
      countOf past ⟨.model, .heap n⟩ ≠ 0) : Backed (past ++ [o]) := by
  intro n
  have before := h n
  have released := List.count_eq_zero.mpr (model_notMem_releases o n)
  rw [owned, Ledger.owned_append, countOf_append, ← owned, ← owned, owned_one, released]
  simp only [List.foldl_cons, List.foldl_nil, countAfter, released]
  cases hheap : repliedHeap o with
  | some heap =>
    have kept := hcall heap hheap n
    simp only
    omega
  | none =>
    have counts := hincref n hheap
    rw [← List.count_pos_iff] at counts
    simp only
    split <;> omega

theorem Backed.alone {es : List Obs} (h : Backed past) (hes : ∀ o ∈ es, CountsAlone o) :
    Backed (past ++ es) := by
  induction es generalizing past with
  | nil => rwa [List.append_nil]
  | cons o es ih =>
    obtain ⟨hheap, hgains, _⟩ := hes o List.mem_cons_self
    have next : Backed (past ++ [o]) := by
      refine h.concat ?_ ?_
      · simp [Honours, hheap]
      · simp [hgains]
    have rest := ih next fun o ho => hes o (List.mem_cons_of_mem _ ho)
    rwa [List.append_assoc, List.singleton_append] at rest

theorem countOf_ne_zero_of_counted (h : Runs cap log w)
    (hcounted : counted w.io.heap .model w.currentModel = true)
    (hmem : a ∈ reference .model w.currentModel) : countOf log a ≠ 0 := by
  cases hm : w.currentModel with
  | null | readOnly =>
    rw [hm] at hmem
    cases hmem
  | heap n =>
    rw [hm] at hmem hcounted
    rw [mem_reference hmem, ← count_eq h]
    simpa [counted] using hcounted

theorem backed_step (h : Runs cap past w) (hb : Backed past) (hs : Step cap w es w')
    (hc : Always Honours (past ++ es)) : Backed (past ++ es) := by
  cases hs with
  | increfCounted hpc hcounted =>
    refine hb.concat hc.of_concat.2 ?_
    intro n _ hmem
    exact countOf_ne_zero_of_counted h hcounted hmem
  | eventMade hpc =>
    rw [List.append_cons] at hc ⊢
    have called := hb.concat hc.of_append.of_concat.2 (by simp [repliedHeap])
    exact called.alone (by simp [CountsAlone, repliedHeap, gains, releases])
  | thread hrun ht => exact hb.alone (countsAlone_net _)
  | clientConnects => exact hb.alone (countsAlone_net [_, _])
  | goto | tick | enterTerminal | updateEffectsDone | increfStatic | rendered | byteRead =>
    rwa [List.append_nil]
  | _ =>
    refine hb.concat hc.of_concat.2 ?_
    simp [repliedHeap, gains]

theorem backed (h : Runs cap log w) (hc : Always Honours log) : Backed log := by
  induction h with
  | nil =>
    intro n
    exact Int.le_refl 0
  | snoc hr hs ih => exact backed_step hr (ih hc.of_append) hs hc

def ticker : InitForHost :=
  ⟨{ Subscriptions.none with timer := .Ok ⟨0, .heap 9⟩ }, ⟨.null, []⟩, .heap 0⟩

def ticked : UpdateForHost := ⟨.none, ⟨.null, []⟩, .heap 1⟩

def tickHeap (model : Nat) : Heap where
  count p := if p = ⟨.model, .heap model⟩ ∨ p = ⟨.event, .heap 9⟩ then 1 else 0
  children _ := []
  live := {⟨.model, .heap model⟩, ⟨.event, .heap 9⟩}

def tickLog : List Obs :=
  [.terminalSize (some ⟨80, 24⟩), .rocInit ⟨0⟩ (.returned ticker (tickHeap 0)),
    .increfBox (.heap 0), .rocView ⟨80, 24⟩ (.heap 0) (.returned .Err (tickHeap 0)),
    .event ⟨.heap 9, .timer⟩,
    .rocUpdate ⟨0⟩ (.heap 0) ⟨.heap 9, .timer⟩ (.returned ticked (tickHeap 1)),
    .increfBox (.heap 1), .rocView ⟨80, 24⟩ (.heap 1) (.returned .Err (tickHeap 1))]

theorem ticks : ∃ w, Runs 65536 tickLog w ∧ w.pc = .wait := by
  have inited : Runs 65536 _ (.inited ⟨80, 24⟩ ticker (tickHeap 0)) :=
    Runs.inited ⟨80, 24⟩ ticker (tickHeap 0)
  have begun : Runs 65536 _ _ :=
    (inited.noTcp rfl rfl).snoc_silent (.goto (.initEffectsDone rfl))
  have fired := (begun.shownCounted rfl rfl (tickHeap 0)).timer rfl rfl (by decide)
  have updated := fired.updated rfl ticked (tickHeap 1)
  have again : Runs 65536 _ _ := updated.snoc_silent (.updateEffectsDone rfl)
  exact ⟨_, again.shownCounted rfl rfl (tickHeap 1), rfl⟩

theorem conforms_tickLog : ∀ o ∈ tickLog, Conforms o := by
  simp [tickLog, Conforms, reference, tickHeap, ticker, ticked]

theorem honours_tickLog : Always Honours tickLog := by
  have init : recordRefs ticker = [⟨.event, .heap 9⟩, ⟨.model, .heap 0⟩] := rfl
  have update : recordRefs ticked = [⟨.model, .heap 1⟩] := rfl
  have view : ViewForHostResult.refs .Err = [] := rfl
  have counts : ∀ m n, (tickHeap m).count ⟨.model, .heap n⟩ = if m = n then 1 else 0 := by
    simp [tickHeap, eq_comm]
  suffices after : Always.After Honours [] tickLog from Always.nil.append after
  simp only [tickLog, Always.After, Honours, repliedHeap, reduceCtorEq, Option.some.injEq,
    forall_eq', IsEmpty.forall_iff, implies_true, true_and, and_true]
  simp only [countOf, List.nil_append, List.cons_append, List.foldl_cons, List.foldl_nil,
    countAfter, repliedHeap, gains, consumes, releases, init, update, view, counts, reference,
    List.count_cons, List.count_nil]
  refine ⟨?_, ?_, ?_, ?_⟩ <;> intro n <;> simp <;> split_ifs <;> omega

end RocTui.Ownership
