import RocTui.Dispatch
import RocTui.Effects
import RocTui.Lib.Run

namespace RocTui.Host

open RocTui.Lib RocTui.Abi RocTui.Tcp RocTui.Dispatch RocTui.Effects

inductive EventSource
  | made (call : EventCall)
  | timer
  deriving DecidableEq, Repr

structure Event where
  box : RocBox
  source : EventSource
  deriving DecidableEq, Repr

/-- How a call into Roc ends.  The app allocates, shares and frees as it likes, so a call that
returns does so with any heap; one that crashes ends in `roc_crashed`. -/
inductive Reply (α : Type)
  | returned (value : α) (heap : Heap)
  | crashed

inductive RocCall
  | init
  | view
  | makeEvent (call : EventCall)
  | update (event : Event)
  deriving DecidableEq, Repr

inductive NoEvent
  | nothingActive
  | pollFailed
  | timerErr
  deriving DecidableEq, Repr

inductive Obs
  | net (o : NetObs)
  | terminalSize (settings : Option TerminalSettings)
  | rocInit (ctx : Context) (reply : Reply InitForHost)
  | tcpStarted (mode : TcpMode)
  | effect (e : Effect) (outcome : SendOutcome)
  | increfBox (model : RocBox)
  | rocView (settings : TerminalSettings) (model : RocBox) (reply : Reply ViewForHostResult)
  | dequeued (subs : Subscriptions) (ev : TcpEvent)
  | makeEvent (call : EventCall) (reply : Reply RocBox)
  | event (e : Event)
  | noEvent (why : NoEvent)
  | rocUpdate (ctx : Context) (model : RocBox) (event : Event) (reply : Reply UpdateForHost)

inductive Fd
  | stdin | notifyRx
  deriving DecidableEq, Repr

structure Revents where
  pollin : Bool
  other : Bool
  deriving DecidableEq, Repr

def Revents.none : Revents := ⟨false, false⟩

structure PollFd where
  fd : Fd
  revents : Revents
  deriving DecidableEq, Repr

/-- Where `rust_main` stands; what a place still has to work through is carried along. -/
inductive Pc
  | start
  | size
  | init
  | startTcp (effects : List Effect)
  | clientNotify (stream : Socket) (effects : List Effect)
  | effects (rest : List Effect) (next : Option UpdateForHost)
  | incref
  | view
  | render (result : ViewForHostResult)
  | wait
  | loop (pollFds : List PollFd)
  | timeout (pollFds : List PollFd)
  | poll (pollFds : List PollFd) (timeoutMs : Int)
  | timerFire
  | readByte (pollFds : List PollFd)
  | tryRecv (pollFds : List PollFd)
  | readStdin (pollFds : List PollFd)
  | makeEvent (call : EventCall)
  | update (event : Event)
  | exited (code : Nat)
  | crashed (call : RocCall)
  | panicked
  | misread
  deriving DecidableEq, Repr

def Pc.running : Pc → Bool
  | .exited _ | .crashed _ | .panicked | .misread => false
  | _ => true

structure World where
  pc : Pc
  settings : TerminalSettings
  currentModel : RocBox
  currentSubs : Subscriptions
  io : HostIo
  net : Net
  clock : Nat

def World.initial : World where
  pc := .start
  settings := ⟨0, 0⟩
  currentModel := .null
  currentSubs := .none
  io :=
    { tcp := none
      sent := fun _ => []
      heap := { count := fun _ => 0, children := fun _ => [], live := ∅ }
      terminal := [] }
  net := .idle
  clock := 0

namespace World

variable (w : World)

/-- `get_current_time_nanos`: the clock truncated to U64. -/
def nowNanos : Nat := w.clock % 2 ^ 64

def makeContext : Context := ⟨w.nowNanos⟩

def hasStdin : Bool := w.currentSubs.stdin.tag == .Ok
def hasTcp : Bool := w.io.tcp.isSome
def hasTimer : Bool := w.currentSubs.timer.tag == .Ok

def nothingActive : Bool := !w.hasStdin && !w.hasTcp && !w.hasTimer

def pollFds : List PollFd :=
  (if w.hasStdin then [⟨.stdin, .none⟩] else []) ++
  (if w.hasTcp then [⟨.notifyRx, .none⟩] else [])

def tcpFdIdx : Nat := if w.hasStdin then 1 else 0

def timerFired : Except Misread Bool :=
  if w.hasTimer then do
    let timerPayload ← w.currentSubs.timer.payloadOk
    return decide (timerPayload.fireAt ≤ w.nowNanos)
  else return false

def timeoutMs : Except Misread Int :=
  if w.hasTimer then do
    let timerPayload ← w.currentSubs.timer.payloadOk
    if timerPayload.fireAt ≤ w.nowNanos then return 0
    else return (min ((timerPayload.fireAt - w.nowNanos) / 1000000) (2 ^ 31 - 1) : Nat)
  else return -1

def tcpReadable (fds : List PollFd) : Bool :=
  w.hasTcp && (fds[w.tcpFdIdx]?).any (·.revents.pollin)

def stdinReadable (fds : List PollFd) : Bool :=
  w.hasStdin && (fds[0]?).any (·.revents.pollin)

end World

def resetRevents (fds : List PollFd) (idx : Nat) : List PollFd :=
  fds.modify idx fun f => { f with revents := .none }

/-- What `poll` promises when it does not fail: the descriptors stay as they are, `ret` counts
those with something to report, and the pipe is readable while it holds a byte. -/
structure Polled (n : Net) (fds fds' : List PollFd) (ret : Nat) : Prop where
  fds : fds'.map PollFd.fd = fds.map PollFd.fd
  ready : ret = (fds'.filter fun f => f.revents.pollin || f.revents.other).length
  notify : ∀ f ∈ fds', f.fd = .notifyRx → (f.revents.pollin = true ↔ 0 < n.pipe)

def render (result : ViewForHostResult) : Except Misread (List TermOp) :=
  match result.tag with
  | .Ok => do
    let rows ← result.payloadOk
    return [.clearAll, .moveTo 0 0] ++
      rows.asSlice.flatMap fun row => [.write row.text, .moveToNextLine 1]
  | .Err => return []

/-- The union members the host reads on its way out of a place. -/
def World.reads (w : World) : Except Misread Unit :=
  match w.pc with
  | .startTcp _ => do let _ ← initTcpFromSubs w.currentSubs
  | .render result => do let _ ← Host.render result
  | .loop _ => do let _ ← w.timerFired
  | .timeout _ => do let _ ← w.timeoutMs
  | .timerFire => do let _ ← timerFireEvent w.currentSubs
  | .readStdin _ => do let _ ← w.currentSubs.stdin.payloadOk
  | .tryRecv _ =>
    match w.net.channel with
    | [] => return ()
    | ev :: _ => do let _ ← dispatch w.currentSubs ev
  | _ => return ()

/-- The branches that leave no trace but the place they lead to. -/
inductive Goto (w : World) : Pc → Prop
  | tcpNotRequested : w.pc = .startTcp effects → initTcpFromSubs w.currentSubs = .ok none →
      Goto w (.effects effects none)
  | tcpFails : w.pc = .startTcp effects → initTcpFromSubs w.currentSubs = .ok (some request) →
      Goto w (.effects effects none)
  | initEffectsDone : w.pc = .effects [] none → Goto w .incref
  | waitBegins : w.pc = .wait → w.nothingActive = false → Goto w (.loop w.pollFds)
  | timerFired : w.pc = .loop fds → w.timerFired = .ok true → Goto w .timerFire
  | timerPending : w.pc = .loop fds → w.timerFired = .ok false → Goto w (.timeout fds)
  | timeout : w.pc = .timeout fds → w.timeoutMs = .ok timeoutMs → Goto w (.poll fds timeoutMs)
  | pollTimesOut : w.pc = .poll fds timeoutMs → Polled w.net fds fds' 0 → w.hasTimer = true →
      Goto w .timerFire
  | pollTcp : w.pc = .poll fds timeoutMs → Polled w.net fds fds' ret →
      ¬(ret = 0 ∧ w.hasTimer = true) → w.tcpReadable fds' = true → Goto w (.readByte fds')
  | pollStdin : w.pc = .poll fds timeoutMs → Polled w.net fds fds' ret →
      ¬(ret = 0 ∧ w.hasTimer = true) → w.tcpReadable fds' = false →
      w.stdinReadable fds' = true → Goto w (.readStdin fds')
  | pollAgain : w.pc = .poll fds timeoutMs → Polled w.net fds fds' ret →
      ¬(ret = 0 ∧ w.hasTimer = true) → w.tcpReadable fds' = false →
      w.stdinReadable fds' = false → Goto w (.loop fds')
  | unwrapsNone : w.pc = .readByte fds → w.io.tcp = none → Goto w .panicked
  | recvEmpty : w.pc = .tryRecv fds → w.net.channel = [] →
      Goto w (.loop (resetRevents fds w.tcpFdIdx))
  | stdinRead {closure : RocErasedCallable} : w.pc = .readStdin fds →
      w.currentSubs.stdin.payloadOk = .ok closure → 0 < data.length → data.length ≤ 16384 →
      Goto w (.makeEvent (.listU8 closure data))
  | stdinEmpty {closure : RocErasedCallable} : w.pc = .readStdin fds →
      w.currentSubs.stdin.payloadOk = .ok closure → Goto w (.loop (resetRevents fds 0))
  | misread : w.reads = .error m → Goto w .misread

inductive ReturnsNone (w : World) : NoEvent → Prop
  | nothingActive : w.pc = .wait → w.nothingActive = true → ReturnsNone w .nothingActive
  | pollFailed : w.pc = .poll fds timeoutMs → ReturnsNone w .pollFailed
  | timerErr : w.pc = .timerFire → timerFireEvent w.currentSubs = .ok none →
      ReturnsNone w .timerErr

/-- One step of the process: of `rust_main`, of a call into Roc, of a TCP thread or of the
clock.  `cap` is the capacity of the notification pipe. -/
inductive Step (cap : Nat) : World → List Obs → World → Prop
  | enterTerminal : w.pc = .start →
      Step cap w []
        { w with
          pc := .size
          io := w.io.emit [.enterAlternateScreen, .enableRawMode, .clearAll] }
  | sizeRead {columns rows : Nat} : w.pc = .size →
      Step cap w [.terminalSize (some ⟨columns, rows⟩)]
        { w with pc := .init, settings := ⟨columns, rows⟩ }
  | sizeFails : w.pc = .size → Step cap w [.terminalSize none] { w with pc := .panicked }
  | initReturns : w.pc = .init →
      Step cap w [.rocInit w.makeContext (.returned r heap)]
        { w with
          pc := .startTcp r.effects.asSlice
          currentModel := r.m
          currentSubs := r.sub
          io := { w.io with heap := heap } }
  | initCrashes : w.pc = .init →
      Step cap w [.rocInit w.makeContext .crashed] { w with pc := .crashed .init }
  | serverStarted : w.pc = .startTcp effects →
      initTcpFromSubs w.currentSubs = .ok (some (.server host port)) →
      Step cap w [.tcpStarted .server]
        { w with
          pc := .effects effects none
          net := w.net.startServer
          io := { w.io with tcp := some .new } }
  | clientConnects : w.pc = .startTcp effects →
      initTcpFromSubs w.currentSubs = .ok (some (.client address port)) →
      Step cap w
        [.net (.opened 0 w.net.accepted), .net (.sent (.Connected 0 w.net.accepted))]
        { w with pc := .clientNotify w.net.accepted effects, net := w.net.startClient }
  | clientStarted {stream : Nat} : w.pc = .clientNotify stream effects → w.net.pipe < cap →
      Step cap w [.tcpStarted .client]
        { w with
          pc := .effects effects none
          net := w.net.clientReader stream
          io := { w.io with tcp := some .new } }
  | effect : w.pc = .effects (e :: rest) next →
      handleEffect o w.io e = (none, io, outcome) →
      Step cap w [.effect e outcome] { w with pc := .effects rest next, io := io }
  | exit {code : Nat} : w.pc = .effects (e :: rest) next →
      handleEffect o w.io e = (some code, io, outcome) →
      Step cap w [.effect e outcome] { w with pc := .exited code, io := io.cleanupTerminal }
  | updateEffectsDone : w.pc = .effects [] (some r) →
      Step cap w [] { w with pc := .incref, currentModel := r.m, currentSubs := r.sub }
  | increfCounted : w.pc = .incref → counted w.io.heap .model w.currentModel = true →
      Step cap w [.increfBox w.currentModel]
        { w with
          pc := .view
          io := { w.io with heap := increfBox w.io.heap .model w.currentModel 1 } }
  | increfStatic : w.pc = .incref → counted w.io.heap .model w.currentModel = false →
      Step cap w [] { w with pc := .view }
  | viewReturns : w.pc = .view →
      Step cap w [.rocView w.settings w.currentModel (.returned v heap)]
        { w with pc := .render v, io := { w.io with heap := heap } }
  | viewCrashes : w.pc = .view →
      Step cap w [.rocView w.settings w.currentModel .crashed] { w with pc := .crashed .view }
  | rendered : w.pc = .render v → render v = .ok ops →
      Step cap w [] { w with pc := .wait, io := w.io.emit ops }
  | noEvent : ReturnsNone w why →
      Step cap w [.noEvent why] { w with pc := .exited 2, io := w.io.cleanupTerminal }
  | byteRead : w.pc = .readByte fds → w.io.tcp = some t → w.net.pipe = bytes + 1 →
      Step cap w [] { w with pc := .tryRecv fds, net := { w.net with pipe := bytes } }
  | recvDiscarded : w.pc = .tryRecv fds → w.io.tcp = some t → w.net.channel = ev :: queued →
      dispatch w.currentSubs ev = .ok none →
      Step cap w [.dequeued w.currentSubs ev]
        { w with
          pc := .loop (resetRevents fds w.tcpFdIdx)
          net := { w.net with channel := queued }
          io := { w.io with tcp := some (t.apply ev) } }
  | recvDispatched : w.pc = .tryRecv fds → w.io.tcp = some t → w.net.channel = ev :: queued →
      dispatch w.currentSubs ev = .ok (some call) →
      Step cap w [.dequeued w.currentSubs ev]
        { w with
          pc := .makeEvent call
          net := { w.net with channel := queued }
          io := { w.io with tcp := some (t.apply ev) } }
  | eventMade : w.pc = .makeEvent call →
      Step cap w [.makeEvent call (.returned box heap), .event ⟨box, .made call⟩]
        { w with pc := .update ⟨box, .made call⟩, io := { w.io with heap := heap } }
  | makeEventCrashes : w.pc = .makeEvent call →
      Step cap w [.makeEvent call .crashed] { w with pc := .crashed (.makeEvent call) }
  | timerEvent : w.pc = .timerFire → timerFireEvent w.currentSubs = .ok (some box) →
      Step cap w [.event ⟨box, .timer⟩] { w with pc := .update ⟨box, .timer⟩ }
  | updateReturns : w.pc = .update event →
      Step cap w [.rocUpdate w.makeContext w.currentModel event (.returned r heap)]
        { w with pc := .effects r.effects.asSlice (some r), io := { w.io with heap := heap } }
  | updateCrashes : w.pc = .update event →
      Step cap w [.rocUpdate w.makeContext w.currentModel event .crashed]
        { w with pc := .crashed (.update event) }
  | goto : Goto w pc → Step cap w [] { w with pc := pc }
  | thread : w.pc.running = true → ThreadStep cap w.net os n →
      Step cap w (os.map .net) { w with net := n }
  | tick {clock : Nat} : w.pc.running = true → Step cap w [] { w with clock := clock }

abbrev Runs (cap : Nat) : List Obs → World → Prop := Run (Step cap) World.initial

end RocTui.Host
