import Mathlib.Algebra.Group.Nat.Defs
import Mathlib.Logic.Function.Basic

namespace RocTui.Tcp

/-- A connection's socket, named by the number of connections made before it.  A stream and its
clone are handles of one socket. -/
abbrev Socket := Nat

inductive TcpEvent
  | Connected (id : Nat) (writer : Socket)
  | Disconnected (id : Nat)
  | Data (id : Nat) (data : List UInt8)
  deriving DecidableEq, Repr

def TcpEvent.id : TcpEvent → Nat
  | .Connected id _ => id
  | .Disconnected id => id
  | .Data id _ => id

inductive Notice
  | connected (id : Nat)
  | disconnected (id : Nat)
  | data (id : Nat) (bytes : List UInt8)
  deriving DecidableEq, Repr

def TcpEvent.notice : TcpEvent → Notice
  | .Connected id _ => .connected id
  | .Disconnected id => .disconnected id
  | .Data id data => .data id data

/-- The main loop's `TcpState`; the receiver and the pipe it also holds are the channel and the
pipe of `Net`. -/
structure TcpState where
  writers : Nat → Option Socket

def TcpState.new : TcpState := ⟨fun _ => none⟩

/-- The `match ev` of `wait_for_next_event`: what a dequeued event does to the writers. -/
def TcpState.apply (t : TcpState) : TcpEvent → TcpState
  | .Connected id writer => { t with writers := Function.update t.writers id (some writer) }
  | .Disconnected id => { t with writers := Function.update t.writers id none }
  | .Data _ _ => t

inductive ListenerPc
  | accepting
  | cloning (id : Nat) (stream : Socket)
  | sending (id : Nat) (stream : Socket)
  | notifying (id : Nat) (stream : Socket)
  | spawning (id : Nat) (stream : Socket)
  deriving DecidableEq, Repr

structure Listener where
  nextId : Nat
  pc : ListenerPc
  deriving DecidableEq, Repr

inductive ReaderPc
  | reading
  | sending (ev : TcpEvent)
  | notifying (ev : TcpEvent)
  | finished
  deriving DecidableEq, Repr

structure Reader where
  id : Nat
  stream : Socket
  pc : ReaderPc
  deriving DecidableEq, Repr

/-- What the TCP threads and the main loop share, with the threads themselves. -/
structure Net where
  listener : Option Listener
  readers : List Reader
  channel : List TcpEvent
  pipe : Nat
  accepted : Nat
  deriving DecidableEq, Repr

def Net.idle : Net where
  listener := none
  readers := []
  channel := []
  pipe := 0
  accepted := 0

inductive NetObs
  | opened (id : Nat) (stream : Socket)
  | read (stream : Socket) (chunk : List UInt8)
  | sent (ev : TcpEvent)
  deriving DecidableEq, Repr

def readBuf : Nat := 4096

def afterNotify : TcpEvent → ReaderPc
  | .Disconnected _ => .finished
  | _ => .reading

/-- Steps of the listener and reader threads; `cap` is the capacity of the notification pipe. -/
inductive ThreadStep (cap : Nat) : Net → List NetObs → Net → Prop
  | accept {id : Nat} : n.listener = some ⟨id, .accepting⟩ →
      ThreadStep cap n [.opened id n.accepted]
        { n with
          listener := some ⟨(id + 1) % 2 ^ 64, .cloning id n.accepted⟩
          accepted := n.accepted + 1 }
  | acceptFails : n.listener = some ⟨next, .accepting⟩ → ThreadStep cap n [] n
  | cloneFails {next id stream : Nat} : n.listener = some ⟨next, .cloning id stream⟩ →
      ThreadStep cap n [] { n with listener := some ⟨next, .accepting⟩ }
  | clone {next id stream : Nat} : n.listener = some ⟨next, .cloning id stream⟩ →
      ThreadStep cap n [] { n with listener := some ⟨next, .sending id stream⟩ }
  | sendConnected {next id stream : Nat} : n.listener = some ⟨next, .sending id stream⟩ →
      ThreadStep cap n [.sent (.Connected id stream)]
        { n with
          listener := some ⟨next, .notifying id stream⟩
          channel := n.channel ++ [.Connected id stream] }
  | notifyConnected {next id stream : Nat} : n.listener = some ⟨next, .notifying id stream⟩ →
      n.pipe < cap → ThreadStep cap n []
        { n with listener := some ⟨next, .spawning id stream⟩, pipe := n.pipe + 1 }
  | spawn {next id stream : Nat} : n.listener = some ⟨next, .spawning id stream⟩ →
      ThreadStep cap n []
        { n with
          listener := some ⟨next, .accepting⟩
          readers := n.readers ++ [⟨id, stream, .reading⟩] }
  | read {id stream : Nat} : n.readers = before ++ ⟨id, stream, .reading⟩ :: after →
      0 < chunk.length → chunk.length ≤ readBuf →
      ThreadStep cap n [.read stream chunk]
        { n with readers := before ++ ⟨id, stream, .sending (.Data id chunk)⟩ :: after }
  | readEnds {id stream : Nat} : n.readers = before ++ ⟨id, stream, .reading⟩ :: after →
      ThreadStep cap n []
        { n with readers := before ++ ⟨id, stream, .sending (.Disconnected id)⟩ :: after }
  | send {id stream : Nat} : n.readers = before ++ ⟨id, stream, .sending ev⟩ :: after →
      ThreadStep cap n [.sent ev]
        { n with
          readers := before ++ ⟨id, stream, .notifying ev⟩ :: after
          channel := n.channel ++ [ev] }
  | notify {id stream : Nat} : n.readers = before ++ ⟨id, stream, .notifying ev⟩ :: after →
      n.pipe < cap → ThreadStep cap n []
        { n with
          readers := before ++ ⟨id, stream, afterNotify ev⟩ :: after
          pipe := n.pipe + 1 }

/-- `start_tcp_server` once the bind has succeeded: the listener thread runs. -/
def Net.startServer (n : Net) : Net := { n with listener := some ⟨0, .accepting⟩ }

/-- `start_tcp_client` up to its `send`: client connections always use ID 0. -/
def Net.startClient (n : Net) : Net :=
  { n with channel := n.channel ++ [.Connected 0 n.accepted], accepted := n.accepted + 1 }

def Net.clientReader (n : Net) (stream : Socket) : Net :=
  { n with pipe := n.pipe + 1, readers := n.readers ++ [⟨0, stream, .reading⟩] }

end RocTui.Tcp
