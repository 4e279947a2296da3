import RocTui.Activity

namespace RocTui.Modes

open RocTui.Lib RocTui.Abi RocTui.Tcp RocTui.Dispatch RocTui.Effects RocTui.Host
  RocTui.Execution RocTui.Activity

def madeCall : Obs → Option EventCall
  | .makeEvent call _ => some call
  | _ => none

def madeCalls (log : List Obs) : List EventCall := log.filterMap madeCall

def pendingCalls : Pc → List EventCall
  | .makeEvent call => [call]
  | _ => []

def callOf (subs : Subscriptions) (ev : TcpEvent) : Option EventCall :=
  match dispatch subs ev with
  | .ok call => call
  | .error _ => none

def dispatchedCalls (log : List Obs) : List EventCall :=
  (dequeued log).filterMap fun (subs, ev) => callOf subs ev

def answersTcp (call : EventCall) : Bool := call.notice.isSome

def callbackOf : EventCall → Option TcpMode
  | .tcpConnected callback _ _ | .tcpDisconnected callback _ _ => some callback
  | _ => none

def connectionEvent : TcpEvent → Bool
  | .Connected _ _ | .Disconnected _ => true
  | .Data _ _ => false

/-- The dispatch of a connect or disconnect picks the callback of the mode, or none. -/
def Suits (subs : Subscriptions) : TcpMode → Prop
  | .server => subs.acceptTcpConnection.isOk = true ∨ subs.tcpConnect.isOk = false
  | .client => subs.acceptTcpConnection.isOk = false

theorem madeCalls_append (log es : List Obs) :
    madeCalls (log ++ es) = madeCalls log ++ madeCalls es := List.filterMap_append

theorem dispatchedCalls_append (log es : List Obs) :
    dispatchedCalls (log ++ es) = dispatchedCalls log ++ dispatchedCalls es := by
  simp [dispatchedCalls, dequeued_append]

theorem dispatchedCalls_dequeued (subs : Subscriptions) (ev : TcpEvent) :
    dispatchedCalls [.dequeued subs ev] = (callOf subs ev).toList := by
  cases hc : callOf subs ev <;> simp [dispatchedCalls, dequeued, Obs.dequeuedEvent, hc]

theorem step_calls (hw : w.WellFormed)
    (h : (madeCalls past ++ pendingCalls w.pc).filter answersTcp = dispatchedCalls past)
    (hs : Step cap w es w') :
    (madeCalls (past ++ es) ++ pendingCalls w'.pc).filter answersTcp =
      dispatchedCalls (past ++ es) := by
  rw [madeCalls_append, dispatchedCalls_append, ← h]
  cases hs with
  | recvDiscarded hpc ht hc hd =>
    rw [dispatchedCalls_dequeued]
    simp [madeCalls, madeCall, List.filterMap_cons, pendingCalls, hpc, callOf, hd]
  | recvDispatched hpc ht hc hd =>
    obtain ⟨-, hn, -⟩ := dispatched hd
    rw [dispatchedCalls_dequeued]
    simp [madeCalls, madeCall, List.filterMap_cons, pendingCalls, hpc, callOf, hd, answersTcp, hn]
  | thread hrun ht =>
    simp [madeCalls, madeCall, dispatchedCalls, dequeued, Obs.dequeuedEvent, List.filterMap_map,
      Function.comp_def]
  | tick => simp [madeCalls, dispatchedCalls, dequeued]
  | goto hg =>
    cases hg with
    | misread hm => simp [hw.placed.reads_ok] at hm
    | stdinRead hpc =>
      simp [madeCalls, dispatchedCalls, dequeued, pendingCalls, hpc, answersTcp, EventCall.notice]
    | _ => simp [madeCalls, dispatchedCalls, dequeued, pendingCalls, *]
  | noEvent hn =>
    cases hn <;>
      simp [madeCalls, madeCall, dispatchedCalls, dequeued, Obs.dequeuedEvent,
        List.filterMap_cons, pendingCalls, *]
  | _ =>
    simp [madeCalls, madeCall, dispatchedCalls, dequeued, Obs.dequeuedEvent, List.filterMap_cons,
      pendingCalls, *]

theorem calls (h : Runs cap log w) :
    (madeCalls log ++ pendingCalls w.pc).filter answersTcp = dispatchedCalls log :=
  h.invariant_of
    (I := fun log w => (madeCalls log ++ pendingCalls w.pc).filter answersTcp =
      dispatchedCalls log)
    Runs.wellFormed rfl fun hw hi hs => step_calls hw hi hs

/-- The mode the dispatch guesses: `accept_tcp_connection` first. -/
def guessed (subs : Subscriptions) : Option TcpMode :=
  if subs.acceptTcpConnection.isOk then some .server
  else if subs.tcpConnect.isOk then some .client
  else none

theorem callback_callOf (subs : Subscriptions) (ev : TcpEvent) :
    (callOf subs ev).bind callbackOf = if connectionEvent ev then guessed subs else none := by
  cases ev with
  | Connected id writer | Disconnected id =>
    cases ha : subs.acceptTcpConnection with
    | Ok p =>
      simp [callOf, dispatch, tcpConnectedRocEvent, tcpDisconnectedRocEvent, acceptOrConnect, ha,
        connectionEvent, guessed, callbackOf, bind, Except.bind, pure, Except.pure]
    | Err =>
      cases hc : subs.tcpConnect with
      | Ok p =>
        simp [callOf, dispatch, tcpConnectedRocEvent, tcpDisconnectedRocEvent, acceptOrConnect,
          ha, hc, connectionEvent, guessed, callbackOf, bind, Except.bind, pure, Except.pure]
      | Err =>
        simp [callOf, dispatch, tcpConnectedRocEvent, tcpDisconnectedRocEvent, acceptOrConnect,
          ha, hc, connectionEvent, guessed, pure, Except.pure]
  | Data id data =>
    cases hr : subs.tcpReceive <;>
      simp [callOf, dispatch, tcpReceiveRocEvent, hr, connectionEvent, callbackOf, bind,
        Except.bind, pure, Except.pure]

theorem suits_iff (subs : Subscriptions) (mode : TcpMode) :
    Suits subs mode ↔ ∀ m, guessed subs = some m → m = mode := by
  cases ha : subs.acceptTcpConnection <;> cases hc : subs.tcpConnect <;> cases mode <;>
    simp [Suits, guessed, ha, hc]

theorem answersTcp_of_callback {call : EventCall} (h : callbackOf call = some mode) :
    answersTcp call = true := by
  cases call with
  | tcpConnected | tcpDisconnected => rfl
  | _ => cases h

/-- Connect and disconnect events go to callbacks of the mode their `TcpState` was made in
exactly if, whenever one was dequeued, the `Subscriptions` in force suited that mode. -/
theorem mode_agrees_iff (h : Runs cap log w) :
    (∀ call ∈ madeCalls log ++ pendingCalls w.pc, ∀ callback,
      callbackOf call = some callback → startedModes log = [callback]) ↔
    (∀ subs ev, (subs, ev) ∈ dequeued log → connectionEvent ev = true →
      ∀ mode ∈ startedModes log, Suits subs mode) := by
  have dispatched : ∀ call, call ∈ dispatchedCalls log ↔
      call ∈ madeCalls log ++ pendingCalls w.pc ∧ answersTcp call = true := by
    intro call
    rw [← calls h, List.mem_filter]
  constructor
  · intro agrees subs ev hmem hev mode hmode
    rw [suits_iff]
    intro m hguess
    have picked := callback_callOf subs ev
    rw [if_pos hev, hguess] at picked
    obtain ⟨call, hcall, hback⟩ := Option.bind_eq_some_iff.mp picked
    have made : call ∈ dispatchedCalls log := List.mem_filterMap.mpr ⟨(subs, ev), hmem, hcall⟩
    have same := agrees call ((dispatched call).mp made).1 m hback
    rw [same, List.mem_singleton] at hmode
    exact hmode.symm
  · intro suits call hmem callback hback
    have made := (dispatched call).mpr ⟨hmem, answersTcp_of_callback hback⟩
    obtain ⟨⟨subs, ev⟩, hdeq, hcall⟩ := List.mem_filterMap.mp made
    have picked := callback_callOf subs ev
    rw [show callOf subs ev = some call from hcall, Option.bind_some, hback] at picked
    have hev : connectionEvent ev = true := by
      by_contra hno
      rw [if_neg hno] at picked
      cases picked
    rw [if_pos hev] at picked
    have run := started h
    cases hmodes : startedModes log with
    | nil =>
      rw [run.first (run.has.mp hmodes)] at hdeq
      cases hdeq
    | cons mode rest =>
      have single : rest = [] := by
        have once := run.once
        rw [hmodes] at once
        simpa using once
      have suited := suits subs ev hdeq hev mode (by simp [hmodes])
      rw [(suits_iff subs mode).mp suited callback picked.symm, single]

def switchInit : InitForHost :=
  ⟨{ clientSubs with timer := .Ok ⟨0, .readOnly 9⟩ }, ⟨.null, []⟩, .readOnly 0⟩

def switched : UpdateForHost :=
  ⟨{ clientSubs with
      acceptTcpConnection := .Ok ⟨⟨.null, "localhost"⟩, .readOnly 1, .readOnly 2, 8080⟩ },
    ⟨.null, []⟩, .readOnly 0⟩

theorem mode_agrees_iff_client : ∃ log w, Runs 65536 log w ∧ startedModes log = [.client] ∧
    ∀ call ∈ madeCalls log ++ pendingCalls w.pc, ∀ callback,
      callbackOf call = some callback → startedModes log = [callback] := by
  have dequeued := Runs.clientWaiting.tcp rfl rfl rfl rfl rfl rfl rfl
  refine ⟨_, _, dequeued, rfl, (mode_agrees_iff dequeued).mpr ?_⟩
  intro subs ev hmem _ mode hmode
  change (subs, ev) ∈ [(clientSubs, TcpEvent.Connected 0 0)] at hmem
  change mode ∈ [TcpMode.client] at hmode
  rw [List.mem_singleton] at hmem hmode
  cases hmem
  rw [hmode]
  rfl

theorem client_event_to_server_callback : ¬∀ log w, Runs 65536 log w →
    ∀ call ∈ madeCalls log ++ pendingCalls w.pc, ∀ callback,
      callbackOf call = some callback → startedModes log = [callback] := by
  intro agree
  have inited : Runs 65536 _ (.inited ⟨80, 24⟩ switchInit World.initial.io.heap) :=
    Runs.inited ⟨80, 24⟩ switchInit World.initial.io.heap
  have waits := (inited.client rfl rfl (by decide)).waiting rfl rfl
  have updated := (waits.timer rfl rfl (by decide)).updated rfl switched
      World.initial.io.heap
  have dequeued := (updated.waitingAgain rfl rfl).tcp rfl rfl rfl rfl rfl rfl rfl
  have agrees := agree _ _ dequeued (.tcpConnected .server (.readOnly 1) 0)
    (List.mem_append_right _ (List.mem_singleton_self _)) .server rfl
  cases agrees

end RocTui.Modes
