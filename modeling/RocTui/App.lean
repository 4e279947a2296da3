import RocTui.Frame
import RocTui.Lib.Elm

namespace RocTui.App

open RocTui.Lib.Elm RocTui.Frame
open RocTui.Abi (Context TerminalSettings TcpStream)

inductive Effect
  | Print (text : String)
  | WriteToFile (filename content : String)
  | TcpSend (stream : TcpStream) (data : List UInt8)
  | Exit (code : Nat)
  deriving DecidableEq, Repr

structure AcceptTcpConnection (Event : Type) where
  host : String
  port : Nat
  onConnected : TcpStream → Option Event
  onDisconnected : TcpStream → Option Event

structure TcpConnect (Event : Type) where
  address : String
  port : Nat
  onConnected : TcpStream → Option Event
  onDisconnected : TcpStream → Option Event

structure Timer (Event : Type) where
  fireAt : Nat
  onFire : Event

/-- `Err(NotSubscribed)` is `none`, and so is a crash of one of the functions. -/
structure Subscriptions (Input Event : Type) where
  stdin : Option (Input → Option Event)
  acceptTcpConnection : Option (AcceptTcpConnection Event)
  tcpConnect : Option (TcpConnect Event)
  tcpReceive : Option (TcpStream → List UInt8 → Option Event)
  timer : Option (Timer Event)

def Subscriptions.none {Input Event : Type} : Subscriptions Input Event :=
  ⟨.none, .none, .none, .none, .none⟩

abbrev Result (Model Input Event : Type) := Turn Model (Subscriptions Input Event) Effect

/-- What `platform` requires of an app; `Input` is the type of parsed keys. -/
structure Application (Model Input Event : Type) where
  init : Context → List String → Option (Result Model Input Event)
  update : Context → Model → Event → Option (Result Model Input Event)
  view : TerminalSettings → Model → Option View

inductive Signal
  | keys (bytes : List UInt8)
  | connected (stream : TcpStream)
  | disconnected (stream : TcpStream)
  | received (stream : TcpStream) (data : List UInt8)
  | timer
  deriving DecidableEq, Repr

inductive Key
  | CtrlC | ArrowUp | ArrowDown | other
  deriving DecidableEq, Repr

structure Ansi (Input : Type) where
  parseRawStdin : List UInt8 → Input
  inputToStr : Input → String
  key : Input → Key

def Ansi.ctrlC {Input : Type} (ansi : Ansi Input) (input : Input) : Bool := ansi.key input == .CtrlC

variable {Model Input Event : Type}

/-- The event a signal becomes: nothing when it is not subscribed to, `some none` when the
subscribed function crashes.  A server subscription goes before a client one. -/
def Subscriptions.event (parseRawStdin : List UInt8 → Input) (sub : Subscriptions Input Event) :
    Signal → Option (Option Event)
  | .keys bytes => sub.stdin.map fun fn => fn (parseRawStdin bytes)
  | .connected stream =>
    match sub.acceptTcpConnection with
    | some p => some (p.onConnected stream)
    | .none => sub.tcpConnect.map fun p => p.onConnected stream
  | .disconnected stream =>
    match sub.acceptTcpConnection with
    | some p => some (p.onDisconnected stream)
    | .none => sub.tcpConnect.map fun p => p.onDisconnected stream
  | .received stream data => sub.tcpReceive.map fun fn => fn stream data
  | .timer => sub.timer.map fun p => some p.onFire

def Effect.exits : Effect → Bool
  | .Exit _ => true
  | _ => false

def Application.program (app : Application Model Input Event)
    (parseRawStdin : List UInt8 → Input) (args : List String) (settings : TerminalSettings) :
    Program Context Model (Subscriptions Input Event) Effect Event Signal
      (Abi.TryResult (List String)) where
  init ctx := app.init ctx args
  event sub signal := sub.event parseRawStdin signal
  update := app.update
  view m := (app.view settings m).map viewForHost
  exits := Effect.exits

end RocTui.App
