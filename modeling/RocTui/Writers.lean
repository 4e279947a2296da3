import RocTui.Delivery
import RocTui.Execution

namespace RocTui.Writers

open RocTui.Lib RocTui.Abi RocTui.Tcp RocTui.Dispatch RocTui.Effects RocTui.Host
  RocTui.Delivery RocTui.Execution

def brokenSend : Obs → Option Nat
  | .effect (.TcpSend stream _) (.cut _ _) => some stream.id
  | _ => none

def brokenIds (log : List Obs) : List Nat := log.filterMap brokenSend

/-- Connected and not disconnected, as far as the main loop has heard. -/
structure Up (log : List Obs) (id : Nat) : Prop where
  connected : ∃ stream, .Connected id stream ∈ dequeuedOf log id
  present : .Disconnected id ∉ dequeuedOf log id

structure Live (log : List Obs) (id : Nat) : Prop extends Up log id where
  unbroken : id ∉ brokenIds log

def sendBytes (id : Nat) : Obs → List UInt8
  | .effect (.TcpSend stream data) (.written _) => if stream.id = id then data.asSlice else []
  | .effect (.TcpSend stream data) (.cut _ accepted) =>
    if stream.id = id then data.asSlice.take accepted else []
  | _ => []

def sentTo (log : List Obs) (id : Nat) : List UInt8 := log.flatMap (sendBytes id)

section
variable (log es : List Obs) (id : Nat)

theorem brokenIds_append : brokenIds (log ++ es) = brokenIds log ++ brokenIds es :=
  List.filterMap_append

theorem sentTo_append : sentTo (log ++ es) id = sentTo log id ++ sentTo es id :=
  List.flatMap_append

theorem dequeuedOf_append :
    dequeuedOf (log ++ es) id = dequeuedOf log id ++ dequeuedOf es id := by
  simp [dequeuedOf, dequeued_append]

end

/-- The writers are those of the live connections, each on its own socket, and each socket has
taken what was addressed to it. -/
structure Wired (log : List Obs) (io : HostIo) : Prop where
  writers : ∀ t, io.tcp = some t → ∀ id stream,
    t.writers id = some stream ↔ stream = id ∧ Live log id
  broken : ∀ id ∈ brokenIds log, ∃ stream, .Connected id stream ∈ dequeuedOf log id
  sent : ∀ stream, io.sent stream = sentTo log stream
  detached : io.tcp = none → dequeued log = []

theorem up_iff {id : Nat} : Up log id ↔
    (∃ stream, .Connected id stream ∈ dequeuedOf log id) ∧ .Disconnected id ∉ dequeuedOf log id :=
  ⟨fun h => ⟨h.connected, h.present⟩, fun h => ⟨h.1, h.2⟩⟩

theorem live_iff {id : Nat} : Live log id ↔ Up log id ∧ id ∉ brokenIds log :=
  ⟨fun h => ⟨h.toUp, h.unbroken⟩, fun h => ⟨h.1, h.2⟩⟩

theorem up_of_quiet {id : Nat} (hd : dequeuedOf es id = []) : Up (log ++ es) id ↔ Up log id := by
  rw [up_iff, up_iff, dequeuedOf_append, hd, List.append_nil]

theorem live_of_quiet {id : Nat} (hd : dequeuedOf es id = []) (hb : brokenIds es = []) :
    Live (log ++ es) id ↔ Live log id := by
  rw [live_iff, live_iff, up_of_quiet hd, brokenIds_append, hb, List.append_nil]

theorem Wired.keep (h : Wired log io) (hd : dequeued es = []) (hb : brokenIds es = [])
    (hs : ∀ id, sentTo es id = []) (htcp : io'.tcp = io.tcp) (hsent : io'.sent = io.sent) :
    Wired (log ++ es) io' := by
  have quiet : ∀ id, dequeuedOf es id = [] := by simp [dequeuedOf, hd]
  refine ⟨?_, ?_, ?_, ?_⟩
  · intro t ht id stream
    rw [live_of_quiet (quiet id) hb]
    exact h.writers t (htcp ▸ ht) id stream
  · intro id hid
    rw [brokenIds_append, hb, List.append_nil] at hid
    rw [dequeuedOf_append, quiet, List.append_nil]
    exact h.broken id hid
  · intro stream
    rw [sentTo_append, hs, List.append_nil, hsent]
    exact h.sent stream
  · intro ht
    rw [dequeued_append, hd, List.append_nil]
    exact h.detached (htcp ▸ ht)

theorem live_after_cut {data : RocList UInt8} {stream : TcpStream} {writer accepted id : Nat} :
    Live (log ++ [.effect (.TcpSend stream data) (.cut writer accepted)]) id ↔
      id ≠ stream.id ∧ Live log id := by
  have broken : brokenIds (log ++ [.effect (.TcpSend stream data) (.cut writer accepted)]) =
      brokenIds log ++ [stream.id] := brokenIds_append _ _
  rw [live_iff, live_iff, up_of_quiet rfl, broken, List.mem_append, List.mem_singleton, not_or]
  exact ⟨fun ⟨hup, hb, hne⟩ => ⟨hne, hup, hb⟩, fun ⟨hne, hup, hb⟩ => ⟨hup, hb, hne⟩⟩

theorem Wired.handle (h : Wired log io) (hh : Handled io e code io' outcome) :
    Wired (log ++ [.effect e outcome]) io' := by
  cases hh with
  | exit | print | writeToFile => exact h.keep rfl rfl (fun _ => rfl) rfl rfl
  | tcpSend hs =>
    cases hs with
    | noTcp ht => exact h.keep rfl rfl (fun _ => rfl) rfl rfl
    | unknown ht hw => exact h.keep rfl rfl (fun _ => rfl) rfl rfl
    | written ht hw =>
      have own := ((h.writers _ ht _ _).mp hw).1
      refine ⟨?_, ?_, ?_, ?_⟩
      · intro t' ht' id stream
        rw [live_of_quiet rfl rfl]
        exact h.writers t' ht' id stream
      · intro id hid
        rw [brokenIds_append, show brokenIds [_] = [] from rfl, List.append_nil] at hid
        rw [dequeuedOf_append, show dequeuedOf [_] id = [] from rfl, List.append_nil]
        exact h.broken id hid
      · intro stream
        rw [sentTo_append, ← h.sent stream]
        simpa [sentTo, sendBytes, own] using sent_take io _ _ stream
      · intro ht'
        have untouched : io.tcp = none := ht'
        simp [ht] at untouched
    | cut ht hw hlt =>
      rename_i sent _ _ _ _
      have own := (h.writers _ ht _ _).mp hw
      refine ⟨?_, ?_, ?_, ?_⟩
      · intro t' ht' id stream
        cases ht'
        rw [live_after_cut]
        by_cases hid : id = sent.id
        · simp [hid]
        · simp only [Function.update_of_ne hid, ne_eq, hid, not_false_eq_true, true_and]
          exact h.writers _ ht id stream
      · intro id hid
        rw [brokenIds_append, List.mem_append] at hid
        rw [dequeuedOf_append, show dequeuedOf [_] id = [] from rfl, List.append_nil]
        rcases hid with hold | hnew
        · exact h.broken id hold
        · simp only [brokenIds, brokenSend, List.filterMap_cons, List.filterMap_nil,
            List.mem_singleton] at hnew
          rw [hnew]
          exact own.2.connected
      · intro stream
        rw [sentTo_append, ← h.sent stream]
        simpa [sentTo, sendBytes, own.1] using sent_take io _ _ stream
      · intro ht'
        cases ht'

theorem dequeuedOf_concat (log : List Obs) (subs : Subscriptions) (ev : TcpEvent) (id : Nat) :
    dequeuedOf (log ++ [.dequeued subs ev]) id =
      dequeuedOf log id ++ if ev.id = id then [ev] else [] := by
  rw [dequeuedOf_append]
  by_cases hid : ev.id = id <;> simp [dequeuedOf, dequeued, Obs.dequeuedEvent, hid]

theorem dequeuedOf_own (log : List Obs) (subs : Subscriptions) (ev : TcpEvent) :
    dequeuedOf (log ++ [.dequeued subs ev]) ev.id = dequeuedOf log ev.id ++ [ev] := by
  rw [dequeuedOf_concat, if_pos rfl]

theorem brokenIds_dequeued (log : List Obs) (subs : Subscriptions) (ev : TcpEvent) :
    brokenIds (log ++ [.dequeued subs ev]) = brokenIds log := by
  rw [brokenIds_append]
  exact List.append_nil _

theorem live_dequeued {subs : Subscriptions} {ev : TcpEvent} {id : Nat} (hid : ev.id ≠ id) :
    Live (log ++ [.dequeued subs ev]) id ↔ Live log id := by
  have quiet : dequeuedOf [.dequeued subs ev] id = [] := by
    simp [dequeuedOf, dequeued, Obs.dequeuedEvent, hid]
  exact live_of_quiet quiet rfl

theorem live_connected {subs : Subscriptions} {i writer : Nat} (hfirst : dequeuedOf log i = [])
    (hb : i ∉ brokenIds log) : Live (log ++ [.dequeued subs (.Connected i writer)]) i := by
  rw [live_iff, up_iff, brokenIds_dequeued, dequeuedOf_concat, hfirst]
  simp [TcpEvent.id, hb]

theorem not_live_disconnected {subs : Subscriptions} {i : Nat} :
    ¬Live (log ++ [.dequeued subs (.Disconnected i)]) i := by
  rw [live_iff, up_iff, dequeuedOf_concat]
  simp [TcpEvent.id]

theorem live_data {subs : Subscriptions} {i id : Nat} {data : List UInt8} :
    Live (log ++ [.dequeued subs (.Data i data)]) id ↔ Live log id := by
  rw [live_iff, live_iff, up_iff, up_iff, brokenIds_dequeued, dequeuedOf_concat]
  by_cases hid : i = id <;> simp [TcpEvent.id, hid]

theorem apply_writers_of_ne {t : TcpState} {ev : TcpEvent} {id : Nat} (hid : ev.id ≠ id) :
    (t.apply ev).writers id = t.writers id := by
  cases ev with
  | Connected i writer | Disconnected i => exact Function.update_of_ne (Ne.symm hid) _ _
  | Data i data => rfl

theorem Wired.apply (h : Wired log io) (ht : io.tcp = some t)
    (hscript : dequeuedOf (log ++ [.dequeued subs ev]) ev.id <+: transcript ev.id chunks true)
    (id : Nat) (stream : Socket) : (t.apply ev).writers id = some stream ↔
      stream = id ∧ Live (log ++ [.dequeued subs ev]) id := by
  by_cases hid : ev.id = id
  · subst hid
    cases ev with
    | Connected i writer =>
      rw [dequeuedOf_own] at hscript
      rcases transcript_concat hscript with ⟨first, same⟩ | ⟨_, _, _, later⟩
      · obtain rfl : writer = i := (TcpEvent.Connected.inj same).2
        have none_before : dequeuedOf log writer = [] := first
        have unbroken : writer ∉ brokenIds log := by
          intro hb
          obtain ⟨s, hs⟩ := h.broken writer hb
          rw [none_before] at hs
          cases hs
        have live : Live (log ++ [.dequeued subs (.Connected writer writer)]) writer :=
          live_connected none_before unbroken
        simp [TcpState.apply, TcpEvent.id, live, eq_comm]
      · exact (later writer rfl).elim
    | Disconnected i => simp [TcpState.apply, TcpEvent.id, not_live_disconnected]
    | Data i data =>
      rw [live_data]
      exact h.writers t ht i stream
  · rw [live_dequeued hid, apply_writers_of_ne hid]
    exact h.writers t ht id stream

theorem Wired.receive (h : Wired log io) (ht : io.tcp = some t)
    (hscript : ∀ id, ∃ chunks,
      dequeuedOf (log ++ [.dequeued subs ev]) id <+: transcript id chunks true) :
    Wired (log ++ [.dequeued subs ev]) { io with tcp := some (t.apply ev) } := by
  refine ⟨?_, ?_, ?_, ?_⟩
  · intro t' ht' id stream
    cases ht'
    obtain ⟨chunks, hown⟩ := hscript ev.id
    exact h.apply ht hown id stream
  · intro id hid
    rw [brokenIds_dequeued] at hid
    obtain ⟨s, hs⟩ := h.broken id hid
    rw [dequeuedOf_append]
    exact ⟨s, List.mem_append_left _ hs⟩
  · intro stream
    rw [sentTo_append, show sentTo [_] stream = [] from rfl, List.append_nil]
    exact h.sent stream
  · intro ht'
    cases ht'

theorem Wired.start (h : Wired log io) (ht : io.tcp = none) (hd : dequeued es = [])
    (hb : brokenIds es = []) (hs : ∀ id, sentTo es id = []) :
    Wired (log ++ es) { io with tcp := some .new } := by
  have none_dequeued : ∀ id, dequeuedOf (log ++ es) id = [] := by
    intro id
    simp [dequeuedOf, dequeued_append, h.detached ht, hd]
  refine ⟨?_, ?_, ?_, ?_⟩
  · intro t heq id stream
    cases heq
    have dead : ¬Live (log ++ es) id := by
      intro live
      obtain ⟨s, hs⟩ := live.connected
      simp [none_dequeued] at hs
    simp [TcpState.new, dead]
  · intro id hid
    rw [brokenIds_append, hb, List.append_nil] at hid
    obtain ⟨s, hs⟩ := h.broken id hid
    simp [dequeuedOf, h.detached ht] at hs
  · intro stream
    rw [sentTo_append, hs, List.append_nil]
    exact h.sent stream
  · intro heq
    cases heq

theorem step_wired (hr : Runs cap past w) (hb : w'.net.accepted ≤ 2 ^ 64) (h : Wired past w.io)
    (hs : Step cap w es w') : Wired (past ++ es) w'.io := by
  have hp := (Runs.wellFormed hr).placed
  have next : Runs cap (past ++ es) w' := hr.snoc hs
  cases hs with
  | effect hpc he => exact h.handle (handled he)
  | exit hpc he =>
    have done := h.handle (handled he)
    exact ⟨done.writers, done.broken, done.sent, done.detached⟩
  | serverStarted hpc | clientStarted hpc =>
    simp only [World.Placed, hpc] at hp
    exact h.start (by simp [hp]) rfl rfl (fun _ => rfl)
  | recvDiscarded hpc ht | recvDispatched hpc ht =>
    exact h.receive ht fun id => ⟨_, dequeuedOf_transcript next hb id⟩
  | thread hrun ht =>
    refine h.keep ?_ ?_ ?_ rfl rfl
    · exact filterMap_net (fun _ => rfl) _
    · exact filterMap_net (fun _ => rfl) _
    · intro id
      simp [sentTo, sendBytes, List.flatMap_map]
  | _ => exact h.keep rfl rfl (fun _ => rfl) rfl rfl

theorem wired (h : Runs cap log w) (hb : w.net.accepted ≤ 2 ^ 64) : Wired log w.io := by
  revert hb
  refine h.invariant_of (I := fun log w => w.net.accepted ≤ 2 ^ 64 → Wired log w.io)
    (fun hr => hr) ?_ ?_
  · intro _
    refine ⟨?_, ?_, fun _ => rfl, fun _ => rfl⟩
    · intro t ht
      cases ht
    · intro id hid
      cases hid
  · intro past s es t hr hi hs hb
    exact step_wired hr hb (hi (Nat.le_trans (step_accepted hs) hb)) hs

/-- A `TcpSend` reaches the socket of the connection it names, or, when that connection is not
live, no socket at all. -/
inductive Addressed (past : List Obs) (id : Nat) (data : List UInt8) : SendOutcome → Prop
  | skipped : ¬Live past id → Addressed past id data .skipped
  | written {stream : Socket} : Live past id → (id, stream) ∈ opened past →
      Addressed past id data (.written stream)
  | cut {stream accepted : Nat} : Live past id → (id, stream) ∈ opened past →
      accepted < data.length → Addressed past id data (.cut stream accepted)

def SendsAddressed (past : List Obs) (o : Obs) : Prop :=
  ∀ stream data outcome, o = .effect (.TcpSend stream data) outcome →
    Addressed past stream.id data.asSlice outcome

theorem opened_of_live (h : Runs cap log w) (hb : w.net.accepted ≤ 2 ^ 64) {id : Nat}
    (hl : Live log id) : (id, id) ∈ opened log := by
  obtain ⟨s, hs⟩ := hl.connected
  have mem := (dequeuedOf_begins h id).subset hs
  have sent := connected_of_sent h hb (List.mem_of_mem_filter mem)
  exact sent

theorem handled_addressed (h : Runs cap past w) (hb : w.net.accepted ≤ 2 ^ 64)
    (hh : Handled w.io (.TcpSend stream data) code io' outcome) :
    Addressed past stream.id data.asSlice outcome := by
  have wires := wired h hb
  cases hh with
  | tcpSend hs =>
    cases hs with
    | noTcp ht =>
      refine .skipped fun live => ?_
      obtain ⟨s, hs⟩ := live.connected
      simp [dequeuedOf, wires.detached ht] at hs
    | unknown ht hw =>
      refine .skipped fun live => ?_
      have known := (wires.writers _ ht stream.id stream.id).mpr ⟨rfl, live⟩
      simp [hw] at known
    | written ht hw =>
      obtain ⟨rfl, live⟩ := (wires.writers _ ht _ _).mp hw
      exact .written live (opened_of_live h hb live)
    | cut ht hw hlt =>
      obtain ⟨rfl, live⟩ := (wires.writers _ ht _ _).mp hw
      exact .cut live (opened_of_live h hb live) hlt

theorem sendsAddressed (h : Runs cap log w) (hb : w.net.accepted ≤ 2 ^ 64) :
    Always SendsAddressed log := by
  induction h with
  | nil => exact Always.nil
  | snoc hr hs ih =>
    have hb' := Nat.le_trans (step_accepted hs) hb
    refine (ih hb').append ?_
    cases hs with
    | effect hpc he | exit hpc he =>
      refine ⟨?_, trivial⟩
      intro stream data outcome heq
      cases heq
      exact handled_addressed hr hb' (handled he)
    | thread hrun ht =>
      apply after_net
      intro o past' stream data outcome heq
      cases heq
    | _ => simp [Always.After, SendsAddressed]

/-- What the latest record answers: the TCP event its `roc_update` was given. -/
def receivedFor : Obs → Option (Option Notice)
  | .rocInit _ (.returned _ _) => some none
  | .rocUpdate _ _ event (.returned _ _) => some (eventNotice event)
  | _ => none

def handling (log : List Obs) : Option Notice := (log.filterMap receivedFor).getLast?.join

def serving (log : List Obs) : Pc → Option Notice
  | .makeEvent call => call.notice
  | .update event => eventNotice event
  | .startTcp _ | .clientNotify _ _ | .effects _ _ => handling log
  | _ => none

def WordFrom (id : Nat) (n : Option Notice) : Prop :=
  n = some (.connected id) ∨ ∃ bytes, n = some (.data id bytes)

theorem receivedFor_eq_none {o : Obs} (h : receipt o = none) : receivedFor o = none := by
  cases o with
  | rocInit ctx reply => cases reply <;> first | rfl | cases h
  | rocUpdate ctx model event reply => cases reply <;> first | rfl | cases h
  | _ => rfl

theorem handling_quiet (h : es.filterMap receivedFor = []) :
    handling (log ++ es) = handling log := by
  simp [handling, h]

theorem handling_concat (h : es.filterMap receivedFor = [n]) : handling (log ++ es) = n := by
  simp [handling, h]

def Served (log : List Obs) (w : World) : Prop := ∀ id, WordFrom id (serving log w.pc) → Up log id

theorem Served.quiet {w w' : World} (h : Served log w) (hd : dequeued es = [])
    (hs : serving (log ++ es) w'.pc = serving log w.pc ∨ serving (log ++ es) w'.pc = none) :
    Served (log ++ es) w' := by
  intro id hw
  cases hs with
  | inl same => exact (up_of_quiet (by simp [dequeuedOf, hd])).mpr (h id (same ▸ hw))
  | inr none =>
    rw [none] at hw
    rcases hw with hw | ⟨_, hw⟩ <;> cases hw

theorem serving_quiet (h : es.filterMap receivedFor = []) (pc : Pc) :
    serving (log ++ es) pc = serving log pc := by
  cases pc with
  | startTcp | clientNotify | effects => exact handling_quiet h
  | _ => rfl

theorem up_of_word {subs : Subscriptions} {ev : TcpEvent} {id : Nat}
    (hpre : dequeuedOf (log ++ [.dequeued subs ev]) id <+: transcript id chunks true)
    (hw : WordFrom id (some ev.notice)) : Up (log ++ [.dequeued subs ev]) id := by
  have own : ev.id = id := by
    cases ev with
    | Connected i writer => rcases hw with hw | ⟨_, hw⟩ <;> cases hw; rfl
    | Disconnected i => rcases hw with hw | ⟨_, hw⟩ <;> cases hw
    | Data i data => rcases hw with hw | ⟨_, hw⟩ <;> cases hw; rfl
  have last : dequeuedOf (log ++ [.dequeued subs ev]) id = dequeuedOf log id ++ [ev] := by
    rw [dequeuedOf_concat, if_pos own]
  have alive : ev ≠ .Disconnected id := by
    rintro rfl
    rcases hw with hw | ⟨_, hw⟩ <;> cases hw
  rw [last] at hpre
  rcases transcript_concat hpre with ⟨first, rfl⟩ | ⟨l', heq, data, _⟩
  · exact ⟨⟨id, by simp [last]⟩, by simp [last, first]⟩
  · refine ⟨⟨id, by simp [last, heq]⟩, ?_⟩
    rw [last, heq]
    intro hmem
    rw [List.mem_append, List.mem_cons, List.mem_singleton] at hmem
    rcases hmem with (h | h) | h
    · cases h
    · obtain ⟨bytes, hd⟩ := data _ h
      cases hd
    · exact alive h.symm

theorem step_served (hr : Runs cap past w) (hb : w'.net.accepted ≤ 2 ^ 64) (h : Served past w)
    (hs : Step cap w es w') : Served (past ++ es) w' := by
  have next : Runs cap (past ++ es) w' := hr.snoc hs
  cases hs with
  | recvDispatched hpc ht hc hd =>
    intro id hw
    obtain ⟨-, hn, -⟩ := dispatched hd
    exact up_of_word (dequeuedOf_transcript next hb id) (hn ▸ hw)
  | recvDiscarded hpc ht hc hd =>
    intro id hw
    rcases hw with hw | ⟨_, hw⟩ <;> cases hw
  | updateReturns hpc =>
    refine h.quiet rfl (.inl ?_)
    rw [hpc]
    exact handling_concat rfl
  | initReturns hpc => exact h.quiet rfl (.inr (handling_concat rfl))
  | eventMade hpc =>
    refine h.quiet rfl (.inl ?_)
    rw [hpc]
    rfl
  | serverStarted hpc | clientConnects hpc | clientStarted hpc | effect hpc =>
    refine h.quiet rfl (.inl ?_)
    rw [hpc]
    exact handling_quiet rfl
  | thread hrun ht =>
    refine h.quiet ?_ (.inl (serving_quiet ?_ w.pc))
    · exact filterMap_net (fun _ => rfl) _
    · simp [receivedFor, List.filterMap_map, Function.comp_def]
  | tick => exact h.quiet rfl (.inl (serving_quiet rfl w.pc))
  | goto hg =>
    cases hg with
    | tcpNotRequested hpc | tcpFails hpc =>
      refine h.quiet rfl (.inl ?_)
      rw [hpc]
      exact handling_quiet rfl
    | _ => exact h.quiet rfl (.inr rfl)
  | _ => exact h.quiet rfl (.inr rfl)

theorem served (h : Runs cap log w) (hb : w.net.accepted ≤ 2 ^ 64) : Served log w := by
  revert hb
  refine h.invariant_of (I := fun log w => w.net.accepted ≤ 2 ^ 64 → Served log w)
    (fun hr => hr) ?_ ?_
  · intro _ id hw
    rcases hw with hw | ⟨_, hw⟩ <;> cases hw
  · intro past s es t hr hi hs hb
    exact step_served hr hb (hi (Nat.le_trans (step_accepted hs) hb)) hs

def AnswersUp (past : List Obs) (o : Obs) : Prop :=
  ∀ e outcome id, o = .effect e outcome → WordFrom id (handling past) → Up past id

theorem answersUp (h : Runs cap log w) (hb : w.net.accepted ≤ 2 ^ 64) : Always AnswersUp log := by
  induction h with
  | nil => exact Always.nil
  | snoc hr hs ih =>
    have hb' := Nat.le_trans (step_accepted hs) hb
    have now := served hr hb'
    refine (ih hb').append ?_
    cases hs with
    | effect hpc he | exit hpc he =>
      refine ⟨?_, trivial⟩
      intro e outcome id heq hw
      refine now id ?_
      rw [hpc]
      exact hw
    | thread hrun ht =>
      apply after_net
      intro o past' e outcome id heq
      cases heq
    | _ => simp [Always.After, AnswersUp]

theorem cut_last (h : Always SendsAddressed log) {stream : TcpStream} {data : RocList UInt8}
    {writer accepted : Nat}
    (heq : log = past ++ .effect (.TcpSend stream data) (.cut writer accepted) :: rest) :
    sentTo rest stream.id = [] := by
  apply List.flatMap_eq_nil_iff.mpr
  intro o ho
  obtain ⟨mid, post, rfl⟩ := List.append_of_mem ho
  have broken : stream.id ∈
      brokenIds (past ++ .effect (.TcpSend stream data) (.cut writer accepted) :: mid) := by
    rw [brokenIds_append]
    exact List.mem_append_right _ List.mem_cons_self
  have dead : ¬Live (past ++ .effect (.TcpSend stream data) (.cut writer accepted) :: mid)
      stream.id := fun live => live.unbroken broken
  have addressed := h (past ++ .effect (.TcpSend stream data) (.cut writer accepted) :: mid) o post
    (by simp [heq])
  cases o with
  | effect e outcome =>
    cases e with
    | TcpSend stream' data' =>
      by_cases same : stream'.id = stream.id
      · cases addressed stream' data' outcome rfl with
        | skipped => rfl
        | written live => exact (dead (same ▸ live)).elim
        | cut live => exact (dead (same ▸ live)).elim
      · cases outcome <;> simp [sendBytes, same]
    | _ => rfl
  | _ => rfl

theorem handling_answer (hrest : receipts rest = []) :
    handling (log ++ .rocUpdate ctx model event (.returned r heap) :: rest) =
      eventNotice event := by
  have quiet : rest.filterMap receivedFor = [] := by
    apply List.filterMap_eq_nil_iff.mpr
    intro o ho
    exact receivedFor_eq_none (List.filterMap_eq_nil_iff.mp hrest o ho)
  rw [← List.singleton_append, ← List.append_assoc, handling_quiet quiet]
  exact handling_concat rfl

theorem answer_attempted {past post : List Obs} {data : RocList UInt8} {id : Nat}
    (h : Runs cap (past ++ .effect (.TcpSend ⟨id⟩ data) outcome :: post) w)
    (hb : w.net.accepted ≤ 2 ^ 64) (hword : WordFrom id (handling past)) :
    id ∈ brokenIds past ∨
      ∃ stream, (id, stream) ∈ opened (past ++ .effect (.TcpSend ⟨id⟩ data) outcome :: post) ∧
        (outcome = .written stream ∨ ∃ accepted, outcome = .cut stream accepted) := by
  by_cases hbroken : id ∈ brokenIds past
  · exact .inl hbroken
  · have live : Live past id := ⟨answersUp h hb past _ post rfl _ outcome id rfl hword, hbroken⟩
    have still : ∀ stream, (id, stream) ∈ opened past →
        (id, stream) ∈ opened (past ++ .effect (.TcpSend ⟨id⟩ data) outcome :: post) := by
      intro stream hmem
      rw [opened_append]
      exact List.mem_append_left _ hmem
    cases sendsAddressed h hb past _ post rfl ⟨id⟩ data outcome rfl with
    | skipped dead => exact (dead live).elim
    | written _ hmem => exact .inr ⟨_, still _ hmem, .inl rfl⟩
    | cut _ hmem => exact .inr ⟨_, still _ hmem, .inr ⟨_, rfl⟩⟩

/-- The writers are those of the live connections, each on its own socket; a socket takes what
was sent to its connection, in order; and an answer to a connection that has just been heard of
is attempted. -/
theorem writers_live (h : Runs cap log w) (hb : w.net.accepted ≤ 2 ^ 64) :
    (∀ t, w.io.tcp = some t → ∀ id, ((t.writers id).isSome = true ↔ Live log id) ∧
      ∀ stream, t.writers id = some stream → (id, stream) ∈ opened log) ∧
    (∀ id stream, (id, stream) ∈ opened log → w.io.sent stream = sentTo log id) ∧
    Always SendsAddressed log ∧
    (∀ past stream data writer accepted rest,
      log = past ++ .effect (.TcpSend stream data) (.cut writer accepted) :: rest →
      sentTo rest stream.id = []) ∧
    (∀ before ctx model event r heap rest id,
      log = before ++ .rocUpdate ctx model event (.returned r heap) :: rest →
      receipts rest = [] → WordFrom id (eventNotice event) →
      executed rest <+: untilExit r.effects.asSlice ∧
      (pendingEffects w.pc = [] → executed rest = untilExit r.effects.asSlice) ∧
      ∀ past data outcome post, rest = past ++ .effect (.TcpSend ⟨id⟩ data) outcome :: post →
        id ∈ brokenIds (before ++ .rocUpdate ctx model event (.returned r heap) :: past) ∨
        ∃ stream, (id, stream) ∈ opened log ∧
          (outcome = .written stream ∨ ∃ accepted, outcome = .cut stream accepted)) := by
  have wires := wired h hb
  have sends := sendsAddressed h hb
  have ids := (told h).numbered.opened_eq hb
  refine ⟨?_, ?_, sends, ?_, ?_⟩
  · intro t ht id
    constructor
    · rw [Option.isSome_iff_exists]
      constructor
      · rintro ⟨stream, hs⟩
        exact ((wires.writers t ht id stream).mp hs).2
      · intro live
        exact ⟨id, (wires.writers t ht id id).mpr ⟨rfl, live⟩⟩
    · intro stream hs
      obtain ⟨rfl, live⟩ := (wires.writers t ht id stream).mp hs
      exact opened_of_live h hb live
  · intro id stream hmem
    rw [ids, List.mem_map] at hmem
    obtain ⟨k, _, heq⟩ := hmem
    cases heq
    exact wires.sent _
  · intro past stream data writer accepted rest heq
    exact cut_last sends heq
  · intro before ctx model event r heap rest id heq hrest hword
    have batched := batch h heq rfl hrest
    refine ⟨batched.1, batched.2, ?_⟩
    rintro past data outcome post rfl
    have split : log = (before ++ .rocUpdate ctx model event (.returned r heap) :: past) ++
        .effect (.TcpSend ⟨id⟩ data) outcome :: post := by simp [heq]
    have hpast : receipts past = [] := by
      rw [receipts_append] at hrest
      exact (List.append_eq_nil_iff.mp hrest).1
    rw [split] at h ⊢
    refine answer_attempted h hb ?_
    rw [handling_answer hpast]
    exact hword

def greeting : UpdateForHost :=
  ⟨clientSubs, ⟨.readOnly 4, [.TcpSend ⟨0⟩ ⟨.readOnly 5, [104, 105]⟩]⟩, .readOnly 0⟩

theorem writers_live_greeting : ∃ log w, Runs 65536 log w ∧ w.io.sent 0 = [104, 105] ∧
    w.io.sent 0 = sentTo log 0 ∧ Live log 0 := by
  have dequeued := Runs.clientWaiting.tcp rfl rfl rfl rfl rfl rfl rfl
  have updated := (dequeued.made rfl (.readOnly 6)).updated rfl greeting
      World.initial.io.heap
  have sent := updated.snoc_one (.effect (o := .ok) rfl rfl)
  have wires := writers_live sent (by decide)
  exact ⟨_, _, sent, rfl, wires.2.1 0 0 (by decide), ((wires.1 _ rfl 0).1).mp rfl⟩

/-- A server that has taken `k` connections one after the other, each closed before the next
came, and sent nothing; ids wrap at 64 bits. -/
theorem serves (k : Nat) : ∃ log readers t,
    Runs 65536 log (.serving (k % 2 ^ 64) k readers t) ∧ (∀ r ∈ readers, r.pc = .finished) ∧
      (0 < k → (0, 0) ∈ opened log) ∧ sentTo log 0 = [] := by
  induction k with
  | zero => exact ⟨_, _, _, Runs.serverWaiting, nofun, nofun, rfl⟩
  | succ k ih =>
    obtain ⟨log, readers, t, h, hclosed, hopened, hsent⟩ := ih
    have greeted := h.connected.updated rfl serverInit World.initial.io.heap
    have closed := (greeted.waitingAgain rfl rfl).disconnected
    have parted := closed.updated rfl serverInit World.initial.io.heap
    have waits := parted.waitingAgain rfl rfl
    rw [Nat.mod_add_mod] at waits
    refine ⟨_, _, _, waits, ?_, ?_, ?_⟩
    · intro r hr
      rcases List.mem_append.mp hr with hold | hnew
      · exact hclosed r hold
      · rw [List.mem_singleton.mp hnew]
    · intro _
      simp only [opened_append, List.mem_append]
      cases k with
      | zero => simp [opened, Obs.openedAs]
      | succ k => simp [hopened]
    · simp only [sentTo_append, hsent]
      rfl

theorem wrapped_id_takes_bytes : ¬∀ log w, Runs 65536 log w →
    ∀ id stream, (id, stream) ∈ opened log → w.io.sent stream = sentTo log id := by
  intro takesOwn
  obtain ⟨log, readers, t, h, _, hopened, hsent⟩ := serves (2 ^ 64)
  rw [Nat.mod_self] at h
  have updated := h.connected.updated rfl greeting World.initial.io.heap
  have sent := updated.snoc_one (.effect (o := .ok) rfl rfl)
  have own := takesOwn _ _ sent 0 0 (by simp [opened_append, hopened])
  simp only [sentTo_append, hsent] at own
  change ([] : List UInt8) = [104, 105] at own
  cases own

end RocTui.Writers
