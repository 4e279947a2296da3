import RocTui.Abi
import RocTui.Tcp

namespace RocTui.Dispatch

open RocTui.Abi RocTui.Tcp

inductive TcpMode
  | server | client
  deriving DecidableEq, Repr

/-- A pending `make_event_*` call.  `callback` names the subscription its closure is from. -/
inductive EventCall
  | listU8 (closure : RocErasedCallable) (listU8 : List UInt8)
  | tcpConnected (callback : TcpMode) (closure : RocErasedCallable) (id : Nat)
  | tcpDisconnected (callback : TcpMode) (closure : RocErasedCallable) (id : Nat)
  | tcpReceive (closure : RocErasedCallable) (id : Nat) (data : List UInt8)
  deriving DecidableEq, Repr

def EventCall.closure : EventCall → RocErasedCallable
  | .listU8 closure _ => closure
  | .tcpConnected _ closure _ => closure
  | .tcpDisconnected _ closure _ => closure
  | .tcpReceive closure _ _ => closure

inductive TcpRequest
  | server (host : String) (port : Nat)
  | client (address : String) (port : Nat)
  deriving DecidableEq, Repr

/-- The order `init_tcp_from_subs` and the connect and disconnect events share: first
`accept_tcp_connection` (server mode), then `tcp_connect` (client mode). -/
def acceptOrConnect (subs : Subscriptions) (accept : SubscriptionsAcceptTcpConnectionOk → α)
    (connect : SubscriptionsTcpConnectOk → α) : Except Misread (Option α) :=
  match subs.acceptTcpConnection.tag with
  | .Ok => do
    let p ← subs.acceptTcpConnection.payloadOk
    return some (accept p)
  | .Err =>
    match subs.tcpConnect.tag with
    | .Ok => do
      let p ← subs.tcpConnect.payloadOk
      return some (connect p)
    | .Err => return none

def initTcpFromSubs (subs : Subscriptions) : Except Misread (Option TcpRequest) :=
  acceptOrConnect subs (fun p => .server p.host.text p.port)
    (fun p => .client p.address.text p.port)

def tcpConnectedRocEvent (subs : Subscriptions) (id : Nat) : Except Misread (Option EventCall) :=
  acceptOrConnect subs (fun p => .tcpConnected .server p.onConnected id)
    (fun p => .tcpConnected .client p.onConnected id)

def tcpDisconnectedRocEvent (subs : Subscriptions) (id : Nat) :
    Except Misread (Option EventCall) :=
  acceptOrConnect subs (fun p => .tcpDisconnected .server p.onDisconnected id)
    (fun p => .tcpDisconnected .client p.onDisconnected id)

def tcpReceiveRocEvent (subs : Subscriptions) (id : Nat) (data : List UInt8) :
    Except Misread (Option EventCall) :=
  match subs.tcpReceive.tag with
  | .Ok => do
    let closure ← subs.tcpReceive.payloadOk
    return some (.tcpReceive closure id data)
  | .Err => return none

def timerFireEvent (subs : Subscriptions) : Except Misread (Option RocBox) :=
  match subs.timer.tag with
  | .Ok => do
    let p ← subs.timer.payloadOk
    return some p.onFire
  | .Err => return none

/-- The same `match ev`: the call a dequeued event is turned into. -/
def dispatch (subs : Subscriptions) : TcpEvent → Except Misread (Option EventCall)
  | .Connected id _ => tcpConnectedRocEvent subs id
  | .Disconnected id => tcpDisconnectedRocEvent subs id
  | .Data id data => tcpReceiveRocEvent subs id data

def EventCall.notice : EventCall → Option Notice
  | .listU8 _ _ => none
  | .tcpConnected _ _ id => some (.connected id)
  | .tcpDisconnected _ _ id => some (.disconnected id)
  | .tcpReceive _ id data => some (.data id data)

def listens (subs : Subscriptions) : Notice → Bool
  | .connected _ => subs.acceptTcpConnection.isOk || subs.tcpConnect.isOk
  | .disconnected _ => subs.acceptTcpConnection.isOk || subs.tcpConnect.isOk
  | .data _ _ => subs.tcpReceive.isOk

inductive FromSubs (subs : Subscriptions) : EventCall → Prop
  | stdin {closure : RocErasedCallable} : subs.stdin = .Ok closure →
      FromSubs subs (.listU8 closure bytes)
  | acceptConnected {id : Nat} : subs.acceptTcpConnection = .Ok p →
      FromSubs subs (.tcpConnected .server p.onConnected id)
  | connectConnected {id : Nat} : subs.acceptTcpConnection = .Err → subs.tcpConnect = .Ok p →
      FromSubs subs (.tcpConnected .client p.onConnected id)
  | acceptDisconnected {id : Nat} : subs.acceptTcpConnection = .Ok p →
      FromSubs subs (.tcpDisconnected .server p.onDisconnected id)
  | connectDisconnected {id : Nat} : subs.acceptTcpConnection = .Err → subs.tcpConnect = .Ok p →
      FromSubs subs (.tcpDisconnected .client p.onDisconnected id)
  | receive {closure : RocErasedCallable} {id : Nat} : subs.tcpReceive = .Ok closure →
      FromSubs subs (.tcpReceive closure id data)

theorem acceptOrConnect_cases (subs : Subscriptions)
    (accept : SubscriptionsAcceptTcpConnectionOk → α) (connect : SubscriptionsTcpConnectOk → α) :
    (subs.acceptTcpConnection = .Err ∧ subs.tcpConnect = .Err ∧
      acceptOrConnect subs accept connect = .ok none) ∨
    (∃ p, subs.acceptTcpConnection = .Ok p ∧
      acceptOrConnect subs accept connect = .ok (some (accept p))) ∨
    (∃ p, subs.acceptTcpConnection = .Err ∧ subs.tcpConnect = .Ok p ∧
      acceptOrConnect subs accept connect = .ok (some (connect p))) := by
  cases ha : subs.acceptTcpConnection with
  | Ok p => exact .inr (.inl ⟨p, rfl, by simp only [acceptOrConnect, ha]; rfl⟩)
  | Err =>
    cases hc : subs.tcpConnect with
    | Ok p => exact .inr (.inr ⟨p, rfl, rfl, by simp only [acceptOrConnect, ha, hc]; rfl⟩)
    | Err => exact .inl ⟨rfl, rfl, by simp only [acceptOrConnect, ha, hc]; rfl⟩

theorem dispatch_cases (subs : Subscriptions) (ev : TcpEvent) :
    (listens subs ev.notice = false ∧ dispatch subs ev = .ok none) ∨
    (∃ call, listens subs ev.notice = true ∧ dispatch subs ev = .ok (some call) ∧
      call.notice = some ev.notice ∧ FromSubs subs call) := by
  cases ev with
  | Connected id writer =>
    rcases acceptOrConnect_cases subs
        (fun p => EventCall.tcpConnected .server p.onConnected id)
        (fun p => .tcpConnected .client p.onConnected id) with
      ⟨ha, hc, heq⟩ | ⟨p, ha, heq⟩ | ⟨p, ha, hc, heq⟩
    · exact .inl ⟨by simp [listens, TcpEvent.notice, ha, hc], heq⟩
    · exact .inr ⟨_, by simp [listens, TcpEvent.notice, ha], heq, rfl, .acceptConnected ha⟩
    · exact .inr ⟨_, by simp [listens, TcpEvent.notice, hc], heq, rfl, .connectConnected ha hc⟩
  | Disconnected id =>
    rcases acceptOrConnect_cases subs
        (fun p => EventCall.tcpDisconnected .server p.onDisconnected id)
        (fun p => .tcpDisconnected .client p.onDisconnected id) with
      ⟨ha, hc, heq⟩ | ⟨p, ha, heq⟩ | ⟨p, ha, hc, heq⟩
    · exact .inl ⟨by simp [listens, TcpEvent.notice, ha, hc], heq⟩
    · exact .inr ⟨_, by simp [listens, TcpEvent.notice, ha], heq, rfl, .acceptDisconnected ha⟩
    · exact .inr ⟨_, by simp [listens, TcpEvent.notice, hc], heq, rfl,
        .connectDisconnected ha hc⟩
  | Data id data =>
    cases hr : subs.tcpReceive with
    | Ok closure =>
      refine .inr ⟨.tcpReceive closure id data, ?_, ?_, rfl, .receive hr⟩
      · simp [listens, TcpEvent.notice, hr]
      · simp only [dispatch, tcpReceiveRocEvent, hr]
        rfl
    | Err =>
      refine .inl ⟨?_, ?_⟩
      · simp [listens, TcpEvent.notice, hr]
      · simp only [dispatch, tcpReceiveRocEvent, hr]
        rfl

theorem listens_of_discarded (h : dispatch subs ev = .ok none) :
    listens subs ev.notice = false := by
  rcases dispatch_cases subs ev with ⟨hlistens, -⟩ | ⟨call, -, hsome, -⟩
  · exact hlistens
  · rw [hsome] at h
    cases h

theorem dispatched (h : dispatch subs ev = .ok (some call)) :
    listens subs ev.notice = true ∧ call.notice = some ev.notice ∧ FromSubs subs call := by
  rcases dispatch_cases subs ev with ⟨-, hnone⟩ | ⟨call', hlistens, hsome, hnotice, hfrom⟩
  · rw [hnone] at h
    cases h
  · rw [hsome] at h
    cases h
    exact ⟨hlistens, hnotice, hfrom⟩

theorem initTcpFromSubs_ok (subs : Subscriptions) : ∃ r, initTcpFromSubs subs = .ok r := by
  rcases acceptOrConnect_cases subs (fun p => TcpRequest.server p.host.text p.port)
      (fun p => .client p.address.text p.port) with ⟨_, _, h⟩ | ⟨_, _, h⟩ | ⟨_, _, _, h⟩
  · exact ⟨_, h⟩
  · exact ⟨_, h⟩
  · exact ⟨_, h⟩

theorem timerFireEvent_ok {subs : Subscriptions} {p : SubscriptionsTimerOk}
    (h : subs.timer = .Ok p) : timerFireEvent subs = .ok (some p.onFire) := by
  simp only [timerFireEvent, h]
  rfl

end RocTui.Dispatch
