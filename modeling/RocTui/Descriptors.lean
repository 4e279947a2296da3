import Mathlib.Data.Fintype.EquivFin
import RocTui.Host
import RocTui.Lib.Scope

namespace RocTui.Descriptors

open RocTui.Lib RocTui.Dispatch

abbrev Fd := Nat

/-- A `std::net::TcpStream`: a descriptor of its own for a socket it may share with a clone. -/
structure TcpStream where
  fd : Fd
  socket : Tcp.Socket
  deriving DecidableEq, Repr

inductive TcpEvent
  | Connected (id : Nat) (writer : TcpStream)
  deriving DecidableEq, Repr

def TcpEvent.owns : TcpEvent → Finset Fd
  | .Connected _ writer => {writer.fd}

/-- A thread with what its closure captured; the write end of the pipe is captured as a number. -/
inductive Thread
  | listener (fd : Fd) (notifyTx : Fd)
  | reader (id : Nat) (stream : TcpStream) (notifyTx : Fd)
  deriving DecidableEq, Repr

def Thread.owns : Thread → Finset Fd
  | .listener fd _ => {fd}
  | .reader _ stream _ => {stream.fd}

structure TcpState where
  notifyRx : Fd
  notifyTx : Fd
  writers : List (Nat × TcpStream)

def TcpState.owns (t : TcpState) : Finset Fd :=
  {t.notifyRx, t.notifyTx} ∪ (t.writers.map (·.2.fd)).toFinset

/-- How the system answers, and what it names a descriptor that it opens. -/
structure Kernel where
  pipe : Bool
  bind : String → Except String Unit
  connect : String → Except String Unit
  tryClone : Except String Unit
  fresh : Finset Fd → Fd
  fresh_not_mem : ∀ fds, fresh fds ∉ fds

/-- The host as far as TCP goes; `queued` is what is in channels that somebody receives from. -/
structure Process where
  fds : Finset Fd
  threads : List Thread
  queued : List TcpEvent
  notified : Nat
  connections : Nat
  stderr : List String

/-- A call that has not returned, with what it has sent on its own channel. The descriptors of
`process` are those at its begin. -/
structure Frame where
  scope : Scope Fd
  sent : List TcpEvent
  process : Process

namespace Frame

variable (k : Kernel) (f : Frame)

def eprintln (line : String) : Frame :=
  { f with process := { f.process with stderr := f.process.stderr ++ [line] } }

def pipe : Option (Fd × Fd × Frame) :=
  if k.pipe then
    let notifyRx := k.fresh f.scope.held
    let scope := f.scope.raw notifyRx
    let notifyTx := k.fresh scope.held
    some (notifyRx, notifyTx, { f with scope := scope.raw notifyTx })
  else none

def bind (addr : String) : Except String (Fd × Frame) :=
  match k.bind addr with
  | .ok () =>
    let fd := k.fresh f.scope.held
    .ok (fd, { f with scope := f.scope.own fd })
  | .error e => .error e

def connect (addr : String) : Except String (TcpStream × Frame) :=
  match k.connect addr with
  | .ok () =>
    let fd := k.fresh f.scope.held
    let process := { f.process with connections := f.process.connections + 1 }
    .ok (⟨fd, f.process.connections⟩, { f with scope := f.scope.own fd, process := process })
  | .error e => .error e

def tryClone (stream : TcpStream) : Except String (TcpStream × Frame) :=
  match k.tryClone with
  | .ok () =>
    let fd := k.fresh f.scope.held
    .ok (⟨fd, stream.socket⟩, { f with scope := f.scope.own fd })
  | .error e => .error e

def sendConnected (id : Nat) (writer : TcpStream) : Frame :=
  { f with scope := f.scope.move writer.fd, sent := f.sent ++ [.Connected id writer] }

def pipeNotify : Frame :=
  { f with process := { f.process with notified := f.process.notified + 1 } }

def spawnListener (listener notifyTx : Fd) : Frame :=
  { f with
    scope := f.scope.move listener
    process := { f.process with threads := f.process.threads ++ [.listener listener notifyTx] } }

def spawnReader (id : Nat) (stream : TcpStream) (notifyTx : Fd) : Frame :=
  { f with
    scope := f.scope.move stream.fd
    process := { f.process with threads := f.process.threads ++ [.reader id stream notifyTx] } }

end Frame

variable (k : Kernel)

def startTcpServer (host : String) (port : Nat) (f : Frame) : Option TcpState × Frame :=
  match f.pipe k with
  | none => (none, f.eprintln "TCP: pipe() failed")
  | some (notifyRx, notifyTx, f) =>
    let addr := s!"{host}:{port}"
    match f.bind k addr with
    | .error e => (none, f.eprintln s!"TCP: bind {addr} failed: {e}")
    | .ok (listener, f) =>
      let f := f.eprintln s!"TCP server listening on {addr}"
      let f := f.spawnListener listener notifyTx
      (some ⟨notifyRx, notifyTx, []⟩, f)

def startTcpClient (address : String) (port : Nat) (f : Frame) : Option TcpState × Frame :=
  match f.pipe k with
  | none => (none, f.eprintln "TCP: pipe() failed")
  | some (notifyRx, notifyTx, f) =>
    let addr := s!"{address}:{port}"
    match f.connect k addr with
    | .error e => (none, f.eprintln s!"TCP: connect {addr} failed: {e}")
    | .ok (stream, f) =>
      let f := f.eprintln s!"TCP client connected to {addr}"
      let id := 0
      match f.tryClone k stream with
      | .error e => (none, f.eprintln s!"TCP: stream clone failed: {e}")
      | .ok (writer, f) =>
        let f := f.sendConnected id writer
        let f := f.pipeNotify
        let f := f.spawnReader id stream notifyTx
        (some ⟨notifyRx, notifyTx, []⟩, f)

/-- The call from its begin to its end, where its variables are dropped: without a `TcpState` to
receive from it, its channel and what is in there too. -/
def start (request : TcpRequest) (p : Process) : Option TcpState × Process :=
  let body := match request with
    | .server host port => startTcpServer k host port
    | .client address port => startTcpClient k address port
  match body ⟨Scope.enter p.fds, [], p⟩ with
  | (none, f) =>
    (none, { f.process with fds := f.scope.leave \ f.sent.toFinset.biUnion TcpEvent.owns })
  | (some t, f) =>
    (some t, { f.process with fds := f.scope.leave, queued := f.process.queued ++ f.sent })

structure Untouched (p p' : Process) : Prop where
  fds : p'.fds = p.fds
  threads : p'.threads = p.threads
  queued : p'.queued = p.queued

structure Owned (p : Process) (t : TcpState) (p' : Process) : Prop where
  owned : ∃ spawned sent, p'.threads = p.threads ++ spawned ∧ p'.queued = p.queued ++ sent ∧
    ∀ fd ∈ p'.fds, fd ∉ p.fds →
      fd ∈ t.owns ∨ (∃ thread ∈ spawned, fd ∈ thread.owns) ∨ ∃ ev ∈ sent, fd ∈ ev.owns

def NoTrace (request : TcpRequest) (p : Process) : Prop :=
  match start k request p with
  | (none, p') => Untouched p p'
  | (some t, p') => Owned p t p'

def StepsSucceed : TcpRequest → Prop
  | .server host port => k.bind s!"{host}:{port}" = .ok ()
  | .client address port => k.connect s!"{address}:{port}" = .ok () ∧ k.tryClone = .ok ()

section Start

variable {k} {p : Process} {f : Frame} {request : TcpRequest}

def notifyRx (k : Kernel) (p : Process) : Fd := k.fresh p.fds

def notifyTx (k : Kernel) (p : Process) : Fd := k.fresh (insert (notifyRx k p) p.fds)

def piped (k : Kernel) (p : Process) : Frame where
  scope := ((Scope.enter p.fds).raw (notifyRx k p)).raw (notifyTx k p)
  sent := []
  process := p

theorem pipe_enter (hpipe : k.pipe = true) :
    Frame.pipe k ⟨Scope.enter p.fds, [], p⟩ = some (notifyRx k p, notifyTx k p, piped k p) := by
  rw [Frame.pipe, if_pos hpipe]
  rfl

theorem leave_piped (k : Kernel) (p : Process) :
    (piped k p).scope.leave = insert (notifyTx k p) (insert (notifyRx k p) p.fds) := by
  have hrx : notifyRx k p ∉ (Scope.enter p.fds).held := k.fresh_not_mem _
  have htx : notifyTx k p ∉ ((Scope.enter p.fds).raw (notifyRx k p)).held := k.fresh_not_mem _
  rw [piped, Scope.leave_raw htx, Scope.leave_raw hrx, Scope.leave_enter]

theorem start_of_pipe_fails (request : TcpRequest) (p : Process) (hpipe : k.pipe = false) :
    start k request p = (none, { p with stderr := p.stderr ++ ["TCP: pipe() failed"] }) := by
  have hfails : Frame.pipe k ⟨Scope.enter p.fds, [], p⟩ = none := by simp [Frame.pipe, hpipe]
  cases request <;>
    simp [start, startTcpServer, startTcpClient, hfails, Frame.eprintln]

def opened (k : Kernel) (f : Frame) : Fd := k.fresh f.scope.held

theorem opened_not_mem (k : Kernel) (f : Frame) : opened k f ∉ f.scope.held := k.fresh_not_mem _

def connected (k : Kernel) (p : Process) : Frame :=
  let f := piped k p
  { f with
    scope := f.scope.own (opened k f)
    process := { p with connections := p.connections + 1 } }

def stream (k : Kernel) (p : Process) : TcpStream := ⟨opened k (piped k p), p.connections⟩

theorem connect_piped {addr : String} (h : k.connect addr = .ok ()) :
    (piped k p).connect k addr = .ok (stream k p, connected k p) := by
  rw [Frame.connect, h]
  rfl

theorem leave_connected (k : Kernel) (p : Process) :
    (connected k p).scope.leave = (piped k p).scope.leave :=
  Scope.leave_own (opened_not_mem k (piped k p))

/-- `libc::pipe` has opened two descriptors, and nothing on the way out closes them. -/
theorem start_of_step_fails (hpipe : k.pipe = true) (hsteps : ¬StepsSucceed k request) :
    ∃ p', start k request p = (none, p') ∧
      p'.fds = insert (notifyTx k p) (insert (notifyRx k p) p.fds) ∧
      p'.threads = p.threads ∧ p'.queued = p.queued ∧ p'.notified = p.notified := by
  cases request with
  | server host port =>
    cases hbind : k.bind s!"{host}:{port}" with
    | ok => exact absurd hbind hsteps
    | error e =>
      have hfails : (piped k p).bind k s!"{host}:{port}" = .error e := by
        rw [Frame.bind, hbind]
      simp only [start, startTcpServer, pipe_enter hpipe, hfails]
      refine ⟨_, rfl, ?_, rfl, rfl, rfl⟩
      simpa [Frame.eprintln, piped] using leave_piped k p
  | client address port =>
    cases hconnect : k.connect s!"{address}:{port}" with
    | error e =>
      have hfails : (piped k p).connect k s!"{address}:{port}" = .error e := by
        rw [Frame.connect, hconnect]
      simp only [start, startTcpClient, pipe_enter hpipe, hfails]
      refine ⟨_, rfl, ?_, rfl, rfl, rfl⟩
      simpa [Frame.eprintln, piped] using leave_piped k p
    | ok =>
      cases hclone : k.tryClone with
      | ok => exact absurd ⟨hconnect, hclone⟩ hsteps
      | error e =>
        simp only [start, startTcpClient, pipe_enter hpipe, connect_piped hconnect,
          Frame.tryClone, hclone]
        refine ⟨_, rfl, ?_, rfl, rfl, rfl⟩
        simpa [Frame.eprintln, connected, piped] using
          (leave_connected k p).trans (leave_piped k p)

theorem start_server (hpipe : k.pipe = true) {host : String} {port : Nat}
    (hbind : k.bind s!"{host}:{port}" = .ok ()) :
    let t : TcpState := ⟨notifyRx k p, notifyTx k p, []⟩
    let listener := opened k (piped k p)
    ∃ p', start k (.server host port) p = (some t, p') ∧
      p'.fds = insert listener (insert t.notifyTx (insert t.notifyRx p.fds)) ∧
      p'.threads = p.threads ++ [.listener listener t.notifyTx] ∧ p'.queued = p.queued ∧
      p'.notified = p.notified ∧ p'.connections = p.connections := by
  simp only [start, startTcpServer, pipe_enter hpipe, Frame.bind, hbind]
  refine ⟨_, rfl, ?_, rfl, List.append_nil _, rfl, rfl⟩
  rw [← leave_piped]
  exact Scope.leave_own_move (opened_not_mem k (piped k p))

theorem start_client (hpipe : k.pipe = true) {address : String} {port : Nat}
    (hconnect : k.connect s!"{address}:{port}" = .ok ()) (hclone : k.tryClone = .ok ()) :
    let t : TcpState := ⟨notifyRx k p, notifyTx k p, []⟩
    let writer : TcpStream := ⟨opened k (connected k p), p.connections⟩
    ∃ p', start k (.client address port) p = (some t, p') ∧
      p'.fds = insert (stream k p).fd
        (insert writer.fd (insert t.notifyTx (insert t.notifyRx p.fds))) ∧
      p'.threads = p.threads ++ [.reader 0 (stream k p) t.notifyTx] ∧
      p'.queued = p.queued ++ [.Connected 0 writer] ∧
      p'.notified = p.notified + 1 ∧ p'.connections = p.connections + 1 := by
  have hwriter := opened_not_mem k (connected k p)
  have hstream : (stream k p).fd ∈ (((connected k p).scope.own (opened k (connected k p))).move
      (opened k (connected k p))).locals := by
    rw [Scope.locals_own_move hwriter]
    exact Finset.mem_insert_self _ _
  simp only [start, startTcpClient, pipe_enter hpipe, connect_piped hconnect, Frame.tryClone,
    hclone]
  refine ⟨_, rfl, ?_, rfl, rfl, rfl, rfl⟩
  rw [← leave_piped, ← leave_connected]
  exact (Scope.leave_move hstream).trans (congrArg _ (Scope.leave_own_move hwriter))

theorem start_of_steps_succeed (hpipe : k.pipe = true) (hsteps : StepsSucceed k request) :
    ∃ t p', start k request p = (some t, p') ∧ Owned p t p' := by
  cases request with
  | server host port =>
    obtain ⟨p', hstart, hfds, hthreads, hqueued, -⟩ := start_server (p := p) hpipe hsteps
    refine ⟨_, p', hstart, _, [], hthreads, by simpa using hqueued, fun fd hfd hnew => ?_⟩
    rw [hfds, Finset.mem_insert, Finset.mem_insert, Finset.mem_insert] at hfd
    rcases hfd with rfl | rfl | rfl | hold
    · exact .inr (.inl ⟨_, List.mem_singleton_self _, Finset.mem_singleton_self _⟩)
    · exact .inl (by simp [TcpState.owns])
    · exact .inl (by simp [TcpState.owns])
    · exact absurd hold hnew
  | client address port =>
    obtain ⟨p', hstart, hfds, hthreads, hqueued, -⟩ :=
      start_client (p := p) hpipe hsteps.1 hsteps.2
    refine ⟨_, p', hstart, _, _, hthreads, hqueued, fun fd hfd hnew => ?_⟩
    rw [hfds, Finset.mem_insert, Finset.mem_insert, Finset.mem_insert, Finset.mem_insert] at hfd
    rcases hfd with rfl | rfl | rfl | rfl | hold
    · exact .inr (.inl ⟨_, List.mem_singleton_self _, Finset.mem_singleton_self _⟩)
    · exact .inr (.inr ⟨_, List.mem_singleton_self _, Finset.mem_singleton_self _⟩)
    · exact .inl (by simp [TcpState.owns])
    · exact .inl (by simp [TcpState.owns])
    · exact absurd hold hnew

def TcpState.drop (t : TcpState) (p : Process) : Process :=
  { p with fds := (p.fds.erase t.notifyRx).erase t.notifyTx }

/-- To close the pipe, as the `TcpState` that was not made would have, is all that is missing. -/
theorem drop_of_step_fails (hpipe : k.pipe = true) (hsteps : ¬StepsSucceed k request) :
    Untouched p (TcpState.drop ⟨notifyRx k p, notifyTx k p, []⟩ (start k request p).2) := by
  obtain ⟨p', hstart, hfds, hthreads, hqueued, -⟩ := start_of_step_fails (p := p) hpipe hsteps
  rw [hstart]
  refine ⟨?_, hthreads, hqueued⟩
  have hrx : notifyRx k p ∉ p.fds := k.fresh_not_mem _
  have htx : notifyTx k p ∉ insert (notifyRx k p) p.fds := k.fresh_not_mem _
  have hne : notifyTx k p ≠ notifyRx k p := fun heq =>
    htx (heq ▸ Finset.mem_insert_self _ _)
  calc ((p'.fds.erase (notifyRx k p)).erase (notifyTx k p))
      = ((insert (notifyTx k p) (insert (notifyRx k p) p.fds)).erase (notifyTx k p)).erase
          (notifyRx k p) := by rw [hfds, Finset.erase_right_comm]
    _ = (insert (notifyRx k p) p.fds).erase (notifyRx k p) := by rw [Finset.erase_insert htx]
    _ = p.fds := Finset.erase_insert hrx

theorem not_noTrace (hpipe : k.pipe = true) (hsteps : ¬StepsSucceed k request) :
    ¬NoTrace k request p := by
  obtain ⟨p', hstart, hfds, -⟩ := start_of_step_fails (p := p) hpipe hsteps
  rw [NoTrace, hstart]
  intro h
  have hrx : notifyRx k p ∈ p'.fds := by simp [hfds]
  rw [h.fds] at hrx
  exact k.fresh_not_mem p.fds hrx

end Start

/-- No trace is left unless a step behind the pipe fails: the ends of the pipe then stay open. -/
theorem noTrace_iff (k : Kernel) (request : TcpRequest) (p : Process) :
    NoTrace k request p ↔ k.pipe = false ∨ StepsSucceed k request := by
  cases hpipe : k.pipe with
  | false =>
    rw [NoTrace, start_of_pipe_fails request p hpipe]
    exact iff_of_true ⟨rfl, rfl, rfl⟩ (.inl rfl)
  | true =>
    by_cases hsteps : StepsSucceed k request
    · obtain ⟨t, p', hstart, howned⟩ := start_of_steps_succeed (p := p) hpipe hsteps
      rw [NoTrace, hstart]
      exact iff_of_true howned (.inr hsteps)
    · exact iff_of_false (not_noTrace hpipe hsteps) (by simpa using hsteps)

def portTaken : Kernel where
  pipe := true
  bind _ := .error "Address already in use (os error 98)"
  connect _ := .ok ()
  tryClone := .ok ()
  fresh fds := Nat.find (Infinite.exists_notMem_finset fds)
  fresh_not_mem fds := Nat.find_spec (Infinite.exists_notMem_finset fds)

theorem not_noTrace_portTaken : ¬NoTrace portTaken (.server "127.0.0.1" 8080)
    ⟨{0, 1, 2}, [], [], 0, 0, []⟩ :=
  not_noTrace rfl (by simp [StepsSucceed, portTaken])

section Host

variable {k} {p : Process} {request : TcpRequest}

def Thread.listener? : Thread → Option Tcp.Listener
  | .listener _ _ => some ⟨0, .accepting⟩
  | .reader _ _ _ => none

def Thread.reader? : Thread → Option Tcp.Reader
  | .listener _ _ => none
  | .reader id stream _ => some ⟨id, stream.socket, .reading⟩

def TcpEvent.event : TcpEvent → Tcp.TcpEvent
  | .Connected id writer => .Connected id writer.socket

def Process.net (p : Process) : Tcp.Net where
  listener := (p.threads.filterMap Thread.listener?).getLast?
  readers := p.threads.filterMap Thread.reader?
  channel := p.queued.map TcpEvent.event
  pipe := p.notified
  accepted := p.connections

variable {cap : Nat} {w : Host.World} {effects : List Abi.Effect}

theorem start_run (hpc : w.pc = .startTcp effects)
    (hreq : initTcpFromSubs w.currentSubs = .ok (some request)) (hnet : p.net = w.net)
    (hcap : p.notified < cap) :
    match start k request p with
    | (none, p') => { p'.net with accepted := p.connections } = w.net ∧
        Host.Step cap w [] { w with pc := .effects effects none }
    | (some _, p') => ∃ es, Run (Host.Step cap) w es
        { w with
          pc := .effects effects none
          net := p'.net
          io := { w.io with tcp := some .new } } := by
  cases hpipe : k.pipe with
  | false =>
    rw [start_of_pipe_fails request p hpipe]
    exact ⟨hnet, .goto (.tcpFails hpc hreq)⟩
  | true =>
    by_cases hsteps : StepsSucceed k request
    · cases request with
      | server host port =>
        obtain ⟨p', hstart, -, hthreads, hqueued, hnotified, hconnections⟩ :=
          start_server (p := p) hpipe hsteps
        have hnext : w.net.startServer = p'.net := by
          simp [← hnet, Tcp.Net.startServer, Process.net, hthreads, hqueued, hnotified,
            hconnections, Thread.listener?, Thread.reader?]
        have hstep : Host.Step cap w _ _ := .serverStarted hpc hreq
        rw [hnext] at hstep
        rw [hstart]
        exact ⟨_, Run.nil.snoc hstep⟩
      | client address port =>
        obtain ⟨p', hstart, -, hthreads, hqueued, hnotified, hconnections⟩ :=
          start_client (p := p) hpipe hsteps.1 hsteps.2
        have hnext : w.net.startClient.clientReader w.net.accepted = p'.net := by
          simp [← hnet, Tcp.Net.startClient, Tcp.Net.clientReader, Process.net, hthreads, hqueued,
            hnotified, hconnections, Thread.listener?, Thread.reader?, TcpEvent.event, stream]
        have hconnects : Host.Step cap w _ _ := .clientConnects hpc hreq
        have hstarted : Host.Step cap
            { w with pc := .clientNotify w.net.accepted effects, net := w.net.startClient } _ _ :=
          .clientStarted rfl (hnet ▸ hcap)
        rw [hnext] at hstarted
        rw [hstart]
        exact ⟨_, (Run.nil.snoc hconnects).snoc hstarted⟩
    · obtain ⟨p', hstart, -, hthreads, hqueued, hnotified⟩ :=
        start_of_step_fails (p := p) hpipe hsteps
      rw [hstart]
      refine ⟨?_, .goto (.tcpFails hpc hreq)⟩
      rw [← hnet, Process.net, Process.net, hthreads, hqueued, hnotified]

end Host

end RocTui.Descriptors
