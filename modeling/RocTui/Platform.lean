import RocTui.App
import RocTui.Lib.Script
import RocTui.Release

namespace RocTui.Platform

open RocTui.Lib RocTui.Lib.Script RocTui.Lib.Elm
open RocTui.Abi RocTui.Tcp RocTui.Dispatch RocTui.Effects RocTui.Host RocTui.Frame
open RocTui.App (Application Signal)
open RocTui.Release (dataRefs)

inductive Trap
  | crash | dangling
  deriving DecidableEq, Repr

structure Boxes (Model Input Event : Type) where
  model : RocBox → Option Model
  event : RocBox → Option Event
  onInput : RocErasedCallable → Option (Input → Option Event)
  onStream : RocErasedCallable → Option (TcpStream → Option Event)
  onData : RocErasedCallable → Option (TcpStream → List UInt8 → Option Event)

section

variable {Model Input Event : Type}

def initForHost (app : Application Model Input Event) (ctx : Context) (args : List String) :
    Except Trap (App.Result Model Input Event) :=
  expectSome (app.init ctx args) .crash

def updateForHost (app : Application Model Input Event) (boxes : Boxes Model Input Event)
    (ctx : Context) (boxedModel boxedEvent : RocBox) :
    Except Trap (App.Result Model Input Event) := do
  let model ← expectSome (boxes.model boxedModel) .dangling
  let event ← expectSome (boxes.event boxedEvent) .dangling
  expectSome (app.update ctx model event) .crash

def viewForHost (app : Application Model Input Event) (boxes : Boxes Model Input Event)
    (settings : TerminalSettings) (boxedModel : RocBox) :
    Except Trap (TryResult (List String)) := do
  let model ← expectSome (boxes.model boxedModel) .dangling
  let v ← expectSome (app.view settings model) .crash
  pure (Frame.viewForHost v)

def makeEventFromListU8 (parseRawStdin : List UInt8 → Input) (boxes : Boxes Model Input Event)
    (boxedFn : RocErasedCallable) (listU8 : List UInt8) : Except Trap Event := do
  let fn ← expectSome (boxes.onInput boxedFn) .dangling
  expectSome (fn (parseRawStdin listU8)) .crash

def makeEventFromTcpStream (boxes : Boxes Model Input Event) (boxedFn : RocErasedCallable)
    (streamId : Nat) : Except Trap Event := do
  let fn ← expectSome (boxes.onStream boxedFn) .dangling
  expectSome (fn ⟨streamId⟩) .crash

def makeEventFromTcpConnected (boxes : Boxes Model Input Event) :
    RocErasedCallable → Nat → Except Trap Event :=
  makeEventFromTcpStream boxes

def makeEventFromTcpDisconnected (boxes : Boxes Model Input Event) :
    RocErasedCallable → Nat → Except Trap Event :=
  makeEventFromTcpStream boxes

def makeEventFromTcpReceive (boxes : Boxes Model Input Event) (boxedFn : RocErasedCallable)
    (streamId : Nat) (data : List UInt8) : Except Trap Event := do
  let fn ← expectSome (boxes.onData boxedFn) .dangling
  expectSome (fn ⟨streamId⟩ data) .crash

def makeEvent (parseRawStdin : List UInt8 → Input) (boxes : Boxes Model Input Event) :
    EventCall → Except Trap Event
  | .listU8 closure listU8 => makeEventFromListU8 parseRawStdin boxes closure listU8
  | .tcpConnected _ closure id => makeEventFromTcpConnected boxes closure id
  | .tcpDisconnected _ closure id => makeEventFromTcpDisconnected boxes closure id
  | .tcpReceive closure id data => makeEventFromTcpReceive boxes closure id data

end

def TryHolds {α β : Type} (R : α → β → Prop) : TryResult α → Option β → Prop
  | .Ok a, some b => R a b
  | .Err, none => True
  | _, _ => False

def effectValue : Abi.Effect → App.Effect
  | .Exit code => .Exit code
  | .Print text => .Print text.text
  | .WriteToFile content filename => .WriteToFile filename.text content.text
  | .TcpSend stream data => .TcpSend stream data.asSlice

namespace Boxes

variable {Model Input Event : Type} (boxes : Boxes Model Input Event)

structure Subscribed (s : Abi.Subscriptions) (sub : App.Subscriptions Input Event) : Prop where
  stdin : TryHolds (fun closure fn => boxes.onInput closure = some fn) s.stdin sub.stdin
  acceptTcpConnection : TryHolds (fun p q => p.host.text = q.host ∧ p.port = q.port ∧
    boxes.onStream p.onConnected = some q.onConnected ∧
    boxes.onStream p.onDisconnected = some q.onDisconnected) s.acceptTcpConnection
    sub.acceptTcpConnection
  tcpConnect : TryHolds (fun p q => p.address.text = q.address ∧ p.port = q.port ∧
    boxes.onStream p.onConnected = some q.onConnected ∧
    boxes.onStream p.onDisconnected = some q.onDisconnected) s.tcpConnect sub.tcpConnect
  tcpReceive : TryHolds (fun closure fn => boxes.onData closure = some fn) s.tcpReceive
    sub.tcpReceive
  timer : TryHolds (fun p q => p.fireAt = q.fireAt ∧ boxes.event p.onFire = some q.onFire) s.timer
    sub.timer

structure Held (m : RocBox) (s : Abi.Subscriptions) (turn : App.Result Model Input Event) :
    Prop where
  model : boxes.model m = some turn.m
  subscribed : boxes.Subscribed s turn.sub

structure Record (turn : App.Result Model Input Event) (r : UpdateForHost) : Prop where
  held : boxes.Held r.m r.sub turn
  effects : r.effects.asSlice.map effectValue = turn.effects

end Boxes

/-- How a call into Roc may be answered.  Where a box is opened that holds nothing, anything may
happen. -/
inductive Answers {α β : Type} (R : α → β → Prop) : Except Trap α → Reply β → Prop
  | value : R a b → Answers R (.ok a) (.returned b heap)
  | crash : Answers R (.error .crash) .crashed
  | undefined : Answers R (.error .dangling) reply

structure System (Model Input Event : Type) where
  world : World
  boxes : Boxes Model Input Event

def roots (w : World) : List Alloc :=
  match w.pc with
  | .effects _ (some r) => reference .model r.m ++ r.sub.refs
  | _ => reference .model w.currentModel ++ w.currentSubs.refs

/-- `payload.decref` frees bytes that the model or the `Subscriptions` still reach. -/
def Dangles (w : World) : Host.Obs → Prop
  | .effect e _ => ∃ q ∈ dataRefs e, w.io.heap.count q = 1 ∧ ∃ r ∈ roots w, w.io.heap.Reaches r q
  | _ => False

def isCall : Host.Obs → Bool
  | .rocInit _ _ | .rocView _ _ _ | .makeEvent _ _ | .rocUpdate _ _ _ _ => true
  | _ => false

section

variable {Model Input Event : Type} (cap : Nat) (app : Application Model Input Event)
  (parseRawStdin : List UInt8 → Input) (args : List String)

/-- The host with the app behind it.  A call may do as it likes with the boxes, except that it
leaves those alone that the host still has a reference to.  Of the host's own steps only one that
frees what a box is made of can change what the boxes hold. -/
inductive Step : System Model Input Event → List Host.Obs → System Model Input Event → Prop
  | host (hs : Host.Step cap s.world es w) (quiet : ∀ o ∈ es, isCall o = false)
    (spared : (∀ o ∈ es, ¬Dangles s.world o) → boxes = s.boxes) : Step s es ⟨w, boxes⟩
  | init (hs : Host.Step cap s.world [.rocInit ctx reply] w)
    (answer : Answers boxes.Record (initForHost app ctx args) reply) :
    Step s [.rocInit ctx reply] ⟨w, boxes⟩
  | view (hs : Host.Step cap s.world [.rocView settings model reply] w)
    (answer : Answers (fun rows v => rowsOf v = rows) (viewForHost app s.boxes settings model)
      reply)
    (kept : ∀ turn, s.boxes.Held s.world.currentModel s.world.currentSubs turn →
      boxes.Held s.world.currentModel s.world.currentSubs turn) :
    Step s [.rocView settings model reply] ⟨w, boxes⟩
  | makeEvent (hs : Host.Step cap s.world (.makeEvent call reply :: es) w)
    (answer : Answers (fun event box => boxes.event box = some event)
      (makeEvent parseRawStdin s.boxes call) reply)
    (kept : boxes.model s.world.currentModel = s.boxes.model s.world.currentModel) :
    Step s (.makeEvent call reply :: es) ⟨w, boxes⟩
  | update (hs : Host.Step cap s.world [.rocUpdate ctx model event reply] w)
    (answer : Answers boxes.Record (updateForHost app s.boxes ctx model event.box) reply) :
    Step s [.rocUpdate ctx model event reply] ⟨w, boxes⟩

structure Spares (s : System Model Input Event) (es : List Host.Obs)
    (s' : System Model Input Event) : Prop where
  step : Step cap app parseRawStdin args s es s'
  spared : (∀ o ∈ es, isCall o = false) → s'.boxes = s.boxes

/-- The runs in which the host disturbs nothing in the boxes. -/
abbrev Runs (boxes : Boxes Model Input Event) :
    List Host.Obs → System Model Input Event → Prop :=
  Run (Spares cap app parseRawStdin args) ⟨World.initial, boxes⟩

variable {cap app parseRawStdin args}

theorem step_host (hs : Step cap app parseRawStdin args s es s') :
    Host.Step cap s.world es s'.world := by
  cases hs <;> assumption

theorem Step.spares (hs : Step cap app parseRawStdin args s es s')
    (sound : ∀ w, Host.Step cap s.world es w → ∀ o ∈ es, ¬Dangles s.world o) :
    Spares cap app parseRawStdin args s es s' := by
  refine ⟨hs, fun quiet => ?_⟩
  cases hs with
  | host hs _ spared => exact spared (sound _ hs)
  | init | view | makeEvent | update => cases quiet _ List.mem_cons_self

theorem Spares.host (hs : Host.Step cap s.world es w) (quiet : ∀ o ∈ es, isCall o = false) :
    Spares cap app parseRawStdin args s es { s with world := w } :=
  ⟨.host hs quiet fun _ => rfl, fun _ => rfl⟩

theorem Spares.call (hs : Step cap app parseRawStdin args s (o :: es) s') (ho : isCall o = true) :
    Spares cap app parseRawStdin args s (o :: es) s' := by
  refine ⟨hs, fun quiet => ?_⟩
  rw [quiet o List.mem_cons_self] at ho
  cases ho

end

end RocTui.Platform
