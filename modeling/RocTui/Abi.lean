import RocTui.Lib.RefHeap

namespace RocTui.Abi

open RocTui.Lib

/-- A pointer of the Roc ABI.  Read-only data carries the refcount word 0 and is never counted;
only heap allocations are. -/
inductive Addr
  | null
  | readOnly (n : Nat)
  | heap (n : Nat)
  deriving DecidableEq, Repr

/-- What an allocation stores.  Roc memory is typed, so two kinds never share an allocation. -/
inductive Kind
  | model | event | callable | str | bytes | effects | rows
  deriving DecidableEq, Repr

structure Alloc where
  kind : Kind
  addr : Addr
  deriving DecidableEq, Repr

abbrev Heap := RefHeap Alloc

abbrev RocBox := Addr
abbrev RocErasedCallable := Addr

def reference (kind : Kind) : Addr → List Alloc
  | .heap n => [⟨kind, .heap n⟩]
  | _ => []

theorem mem_reference {kind : Kind} {ptr : Addr} {a : Alloc} (h : a ∈ reference kind ptr) :
    a = ⟨kind, ptr⟩ := by
  cases ptr with
  | null => simp [reference] at h
  | readOnly n => simp [reference] at h
  | heap n => simpa [reference] using h

structure RocStr where
  addr : Addr
  text : String
  deriving DecidableEq, Repr

structure RocList (α : Type) where
  addr : Addr
  items : List α
  deriving DecidableEq, Repr

def RocList.asSlice (l : RocList α) : List α :=
  if l.addr = .null then [] else l.items

def RocStr.refs (s : RocStr) : List Alloc := reference .str s.addr

/-- `Try(a, [NotSubscribed])`, the tag with the payload its union holds under `Ok`. -/
inductive TryResult (α : Type)
  | Err
  | Ok (payload : α)
  deriving DecidableEq, Repr

inductive TryTag
  | Err | Ok
  deriving DecidableEq, Repr

def TryResult.tag : TryResult α → TryTag
  | .Err => .Err
  | .Ok _ => .Ok

inductive Misread
  | payloadOk
  deriving DecidableEq, Repr

/-- `payload.ok`: the union is read whatever the tag says. -/
def TryResult.payloadOk : TryResult α → Except Misread α
  | .Err => .error .payloadOk
  | .Ok p => .ok p

def TryResult.isOk (t : TryResult α) : Bool := t.tag == .Ok

@[simp] theorem TryResult.tag_Err : (TryResult.Err : TryResult α).tag = .Err := rfl
@[simp] theorem TryResult.tag_Ok (p : α) : (TryResult.Ok p).tag = .Ok := rfl
@[simp] theorem TryResult.payloadOk_Ok (p : α) : (TryResult.Ok p).payloadOk = .ok p := rfl
@[simp] theorem TryResult.isOk_Err : (TryResult.Err : TryResult α).isOk = false := rfl
@[simp] theorem TryResult.isOk_Ok (p : α) : (TryResult.Ok p).isOk = true := rfl

theorem TryResult.exists_of_isOk {t : TryResult α} (h : t.isOk = true) : ∃ p, t = .Ok p := by
  cases t with
  | Err => simp at h
  | Ok p => exact ⟨p, rfl⟩

def TryResult.refs (payload : α → List Alloc) : TryResult α → List Alloc
  | .Err => []
  | .Ok p => payload p

structure Context where
  nowNanos : Nat
  deriving DecidableEq, Repr

structure TerminalSettings where
  width : Nat
  height : Nat
  deriving DecidableEq, Repr

structure TcpStream where
  id : Nat
  deriving DecidableEq, Repr

inductive Effect
  | Exit (code : Nat)
  | Print (text : RocStr)
  | WriteToFile (content filename : RocStr)
  | TcpSend (stream : TcpStream) (data : RocList UInt8)
  deriving DecidableEq, Repr

structure SubscriptionsTimerOk where
  fireAt : Nat
  onFire : RocBox
  deriving DecidableEq, Repr

structure SubscriptionsAcceptTcpConnectionOk where
  host : RocStr
  onConnected : RocErasedCallable
  onDisconnected : RocErasedCallable
  port : Nat
  deriving DecidableEq, Repr

structure SubscriptionsTcpConnectOk where
  address : RocStr
  onConnected : RocErasedCallable
  onDisconnected : RocErasedCallable
  port : Nat
  deriving DecidableEq, Repr

structure Subscriptions where
  timer : TryResult SubscriptionsTimerOk
  acceptTcpConnection : TryResult SubscriptionsAcceptTcpConnectionOk
  stdin : TryResult RocErasedCallable
  tcpConnect : TryResult SubscriptionsTcpConnectOk
  tcpReceive : TryResult RocErasedCallable
  deriving DecidableEq, Repr

def Subscriptions.none : Subscriptions where
  timer := .Err
  acceptTcpConnection := .Err
  stdin := .Err
  tcpConnect := .Err
  tcpReceive := .Err

structure UpdateForHost where
  sub : Subscriptions
  effects : RocList Effect
  m : RocBox
  deriving DecidableEq, Repr

abbrev InitForHost := UpdateForHost

abbrev ViewForHostResult := TryResult (RocList RocStr)

/-- The references inside a value, in the order its generated `decref` releases them. -/
def Effect.refs : Effect → List Alloc
  | .Exit _ => []
  | .Print text => text.refs
  | .WriteToFile content filename => content.refs ++ filename.refs
  | .TcpSend _ data => reference .bytes data.addr

def Subscriptions.refs (s : Subscriptions) : List Alloc :=
  s.timer.refs (fun p => reference .event p.onFire) ++
  s.acceptTcpConnection.refs (fun p => p.host.refs ++ reference .callable p.onConnected ++
    reference .callable p.onDisconnected) ++
  s.stdin.refs (reference .callable) ++
  s.tcpConnect.refs (fun p => p.address.refs ++ reference .callable p.onConnected ++
    reference .callable p.onDisconnected) ++
  s.tcpReceive.refs (reference .callable)

def effectsRefs (l : RocList Effect) : List Alloc :=
  reference .effects l.addr ++ l.asSlice.flatMap Effect.refs

def ViewForHostResult.refs (v : ViewForHostResult) : List Alloc :=
  TryResult.refs (fun rows => reference .rows rows.addr ++ rows.asSlice.flatMap RocStr.refs) v

def increfBox (h : Heap) (kind : Kind) (dataPtr : RocBox) (amount : Nat) : Heap :=
  match dataPtr with
  | .null => h
  | ptr => h.incref ⟨kind, ptr⟩ amount

def counted (h : Heap) (kind : Kind) (dataPtr : RocBox) : Bool :=
  match dataPtr with
  | .null => false
  | ptr => h.count ⟨kind, ptr⟩ != 0

def RocList.decref (h : Heap) (kind : Kind) (l : RocList α) : Heap :=
  match l.addr with
  | .null => h
  | ptr => h.decref ⟨kind, ptr⟩

def RocList.hasOneRef (h : Heap) (kind : Kind) (l : RocList α) : Bool :=
  match l.addr with
  | .null => false
  | ptr => h.count ⟨kind, ptr⟩ == 1

end RocTui.Abi
