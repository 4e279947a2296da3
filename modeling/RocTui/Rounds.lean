import RocTui.Host

namespace RocTui.Host

open RocTui.Lib RocTui.Abi RocTui.Tcp RocTui.Dispatch RocTui.Effects

def World.inited (settings : TerminalSettings) (r : InitForHost) (heap : Heap) : World :=
  { World.initial with
    pc := .startTcp r.effects.asSlice
    settings := settings
    currentModel := r.m
    currentSubs := r.sub
    io := { World.initial.io with
      heap := heap
      terminal := [.enterAlternateScreen, .enableRawMode, .clearAll] } }

def World.tcpUp (w : World) (n : Net) (effects : List Effect) : World :=
  { w with pc := .effects effects none, net := n, io := { w.io with tcp := some .new } }

namespace Runs

theorem size : Runs cap [] { World.initial with
    pc := .size
    io := World.initial.io.emit [.enterAlternateScreen, .enableRawMode, .clearAll] } :=
  Run.nil.snoc_silent (.enterTerminal rfl)

theorem inited (settings : TerminalSettings) (r : InitForHost) (heap : Heap) :
    Runs cap [.terminalSize (some settings), .rocInit ⟨0⟩ (.returned r heap)]
      (.inited settings r heap) :=
  ((size.snoc_one (.sizeRead rfl)).snoc_one (.initReturns rfl))

theorem noTcp (h : Runs cap log w) (hpc : w.pc = .startTcp effects)
    (hr : initTcpFromSubs w.currentSubs = .ok none) :
    Runs cap log { w with pc := .effects effects none } :=
  h.snoc_silent (.goto (.tcpNotRequested hpc hr))

theorem noServer (h : Runs cap log w) (hpc : w.pc = .startTcp effects)
    (hr : initTcpFromSubs w.currentSubs = .ok (some request)) :
    Runs cap log { w with pc := .effects effects none } :=
  h.snoc_silent (.goto (.tcpFails hpc hr))

theorem server (h : Runs cap log w) (hpc : w.pc = .startTcp effects)
    (hr : initTcpFromSubs w.currentSubs = .ok (some (.server host port))) :
    Runs cap (log ++ [.tcpStarted .server]) (w.tcpUp w.net.startServer effects) :=
  h.snoc_one (.serverStarted hpc hr)

theorem client (h : Runs cap log w) (hpc : w.pc = .startTcp effects)
    (hr : initTcpFromSubs w.currentSubs = .ok (some (.client address port)))
    (hcap : w.net.pipe < cap) :
    Runs cap (log ++ [.net (.opened 0 w.net.accepted),
        .net (.sent (.Connected 0 w.net.accepted))] ++ [.tcpStarted .client])
      (w.tcpUp (w.net.startClient.clientReader w.net.accepted) effects) := by
  have connected := h.snoc (.clientConnects hpc hr)
  exact connected.snoc_one (.clientStarted rfl hcap)

theorem shown (h : Runs cap log w) (hpc : w.pc = .incref)
    (hstatic : counted w.io.heap .model w.currentModel = false) :
    Runs cap (log ++ [.rocView w.settings w.currentModel (.returned .Err w.io.heap)])
      { w with pc := .wait } := by
  have retained : Runs cap log { w with pc := .view } := h.snoc_silent (.increfStatic hpc hstatic)
  have viewed : Runs cap (log ++ [.rocView w.settings w.currentModel (.returned .Err w.io.heap)])
      { w with pc := .render .Err } := retained.snoc_one (.viewReturns rfl)
  have rendered := viewed.snoc_silent (.rendered rfl rfl)
  simpa only [HostIo.emit, List.append_nil] using rendered

theorem shownCounted (h : Runs cap log w) (hpc : w.pc = .incref)
    (hcounted : counted w.io.heap .model w.currentModel = true) (heap : Heap) :
    Runs cap (log ++ [.increfBox w.currentModel] ++
        [.rocView w.settings w.currentModel (.returned .Err heap)])
      { w with pc := .wait, io := { w.io with heap := heap } } := by
  have retained := h.snoc_one (.increfCounted hpc hcounted)
  have viewed : Runs cap (log ++ [.increfBox w.currentModel] ++
      [.rocView w.settings w.currentModel (.returned .Err heap)])
      { w with pc := .render .Err, io := { w.io with heap := heap } } :=
    retained.snoc_one (.viewReturns rfl)
  have rendered := viewed.snoc_silent (.rendered rfl rfl)
  simpa only [HostIo.emit, List.append_nil] using rendered

theorem waiting (h : Runs cap log w) (hpc : w.pc = .effects [] none)
    (hstatic : counted w.io.heap .model w.currentModel = false) :
    Runs cap (log ++ [.rocView w.settings w.currentModel (.returned .Err w.io.heap)])
      { w with pc := .wait } := by
  have done : Runs cap log { w with pc := .incref } :=
    h.snoc_silent (.goto (.initEffectsDone hpc))
  have viewed := shown done rfl hstatic
  exact viewed

theorem waitingAgain (h : Runs cap log w) (hpc : w.pc = .effects [] (some r))
    (hstatic : counted w.io.heap .model r.m = false) :
    Runs cap (log ++ [.rocView w.settings r.m (.returned .Err w.io.heap)])
      { w with pc := .wait, currentModel := r.m, currentSubs := r.sub } := by
  have done := h.snoc_silent (.updateEffectsDone hpc)
  have viewed := shown done rfl hstatic
  exact viewed

theorem timer (h : Runs cap log w) (hpc : w.pc = .wait) (ht : w.currentSubs.timer = .Ok p)
    (hdue : p.fireAt ≤ w.nowNanos) :
    Runs cap (log ++ [.event ⟨p.onFire, .timer⟩]) { w with pc := .update ⟨p.onFire, .timer⟩ } := by
  have has : w.hasTimer = true := by simp [World.hasTimer, ht]
  have active : w.nothingActive = false := by simp [World.nothingActive, has]
  have fired : ({ w with pc := .loop w.pollFds } : World).timerFired = .ok true := by
    change w.timerFired = .ok true
    simp [World.timerFired, has, ht, hdue, bind, Except.bind, pure, Except.pure]
  have begun := h.snoc_silent (.goto (.waitBegins hpc active))
  have due := begun.snoc_silent (.goto (.timerFired rfl fired))
  exact due.snoc_one (.timerEvent rfl (timerFireEvent_ok ht))

/-- With neither stdin nor a timer to wait for, a queued event that is announced is taken from
the channel and dispatched. -/
theorem tcp (h : Runs cap log w) (hpc : w.pc = .wait) (htcp : w.io.tcp = some t)
    (htimer : w.currentSubs.timer = .Err) (hstdin : w.currentSubs.stdin = .Err)
    (hpipe : w.net.pipe = bytes + 1) (hc : w.net.channel = ev :: queued)
    (hd : dispatch w.currentSubs ev = .ok (some call)) :
    Runs cap (log ++ [.dequeued w.currentSubs ev])
      { w with
        pc := .makeEvent call
        net := { w.net with pipe := bytes, channel := queued }
        io := { w.io with tcp := some (t.apply ev) } } := by
  have has : w.hasTcp = true := by simp [World.hasTcp, htcp]
  have noStdin : w.hasStdin = false := by simp [World.hasStdin, hstdin]
  have noTimer : w.hasTimer = false := by simp [World.hasTimer, htimer]
  have fds : w.pollFds = [⟨.notifyRx, .none⟩] := by simp [World.pollFds, has, noStdin]
  have active : w.nothingActive = false := by simp [World.nothingActive, has]
  have begins : Goto w (.loop [⟨.notifyRx, .none⟩]) := by
    rw [← fds]
    exact .waitBegins hpc active
  have pending : Goto { w with pc := .loop [⟨.notifyRx, .none⟩] }
      (.timeout [⟨.notifyRx, .none⟩]) := by
    refine .timerPending rfl ?_
    change w.timerFired = .ok false
    simp [World.timerFired, noTimer, pure, Except.pure]
  have forever : Goto { w with pc := .timeout [⟨.notifyRx, .none⟩] }
      (.poll [⟨.notifyRx, .none⟩] (-1)) := by
    refine .timeout rfl ?_
    change w.timeoutMs = .ok (-1)
    simp [World.timeoutMs, noTimer, pure, Except.pure]
  have polled : Polled w.net [⟨.notifyRx, .none⟩] [⟨.notifyRx, ⟨true, false⟩⟩] 1 :=
    ⟨rfl, rfl, by simp [hpipe]⟩
  have readable : Goto { w with pc := .poll [⟨.notifyRx, .none⟩] (-1) }
      (.readByte [⟨.notifyRx, ⟨true, false⟩⟩]) := by
    refine .pollTcp rfl polled (by simp) ?_
    change w.tcpReadable _ = true
    simp [World.tcpReadable, World.tcpFdIdx, has, noStdin]
  have reading := (((h.snoc_silent (.goto begins)).snoc_silent (.goto pending)).snoc_silent
    (.goto forever)).snoc_silent (.goto readable)
  have taken := reading.snoc_silent (.byteRead rfl htcp hpipe)
  exact taken.snoc_one (.recvDispatched rfl htcp hc hd)

theorem updated (h : Runs cap log w) (hpc : w.pc = .update event) (r : UpdateForHost)
    (heap : Heap) :
    Runs cap (log ++ [.rocUpdate w.makeContext w.currentModel event (.returned r heap)])
      { w with
        pc := .effects r.effects.asSlice (some r)
        io := { w.io with heap := heap } } :=
  h.snoc_one (.updateReturns hpc)

theorem made (h : Runs cap log w) (hpc : w.pc = .makeEvent call) (box : RocBox) :
    Runs cap (log ++ [.makeEvent call (.returned box w.io.heap), .event ⟨box, .made call⟩])
      { w with pc := .update ⟨box, .made call⟩ } :=
  h.snoc (.eventMade hpc)

end Runs

/-- A step outside `poll` and the read of stdin, in which no time passes. -/
structure Calm (cap : Nat) (w : World) (es : List Obs) (w' : World) : Prop where
  step : Step cap w es w'
  clock : w'.clock = w.clock
  poll : ∀ fds timeoutMs, w.pc ≠ .poll fds timeoutMs
  read : ∀ fds, w.pc ≠ .readStdin fds

def CalmReached (cap : Nat) (w : World) : Prop := ∃ log, Run (Calm cap) World.initial log w

theorem CalmReached.step (h : CalmReached cap w) (hs : Calm cap w es w') : CalmReached cap w' :=
  h.elim fun _ hr => ⟨_, hr.snoc hs⟩

theorem CalmReached.waiting {r : InitForHost} (heffects : r.effects.asSlice = [])
    (htcp : initTcpFromSubs r.sub = .ok none) (settings : TerminalSettings) {heap : Heap}
    (hstatic : counted heap .model r.m = false) :
    CalmReached cap { World.inited settings r heap with pc := .wait } := by
  let io := World.initial.io.emit [.enterAlternateScreen, .enableRawMode, .clearAll]
  have start : CalmReached cap World.initial := ⟨[], .nil⟩
  have size : CalmReached cap { World.initial with pc := .size, io := io } :=
    start.step ⟨.enterTerminal rfl, rfl, by simp [World.initial], by simp [World.initial]⟩
  have sized : CalmReached cap
      { World.initial with pc := .init, io := io, settings := settings } :=
    size.step ⟨.sizeRead rfl, rfl, by simp, by simp⟩
  have inited : CalmReached cap (.inited settings r heap) :=
    sized.step ⟨.initReturns rfl, rfl, by simp, by simp⟩
  have noTcp : CalmReached cap { World.inited settings r heap with pc := .effects [] none } := by
    have hgoto : Goto (.inited settings r heap) (.effects r.effects.asSlice none) :=
      .tcpNotRequested rfl htcp
    rw [heffects] at hgoto
    exact inited.step ⟨.goto hgoto, rfl, by simp [World.inited], by simp [World.inited]⟩
  have done : CalmReached cap { World.inited settings r heap with pc := .incref } :=
    noTcp.step ⟨.goto (.initEffectsDone rfl), rfl, by simp, by simp⟩
  have retained : CalmReached cap { World.inited settings r heap with pc := .view } :=
    done.step ⟨.increfStatic rfl hstatic, rfl, by simp, by simp⟩
  have viewed : CalmReached cap { World.inited settings r heap with pc := .render .Err } :=
    retained.step ⟨.viewReturns rfl, rfl, by simp, by simp⟩
  exact viewed.step ⟨.rendered rfl rfl, rfl, by simp, by simp⟩

def clientSubs : Subscriptions :=
  { Subscriptions.none with
    tcpConnect := .Ok ⟨⟨.null, "localhost"⟩, .readOnly 1, .readOnly 2, 8080⟩ }

def clientInit : InitForHost := ⟨clientSubs, ⟨.null, []⟩, .readOnly 0⟩

def World.clientWaiting : World :=
  { (World.inited ⟨80, 24⟩ clientInit World.initial.io.heap).tcpUp
      (Net.idle.startClient.clientReader 0) [] with pc := .wait }

def clientLog : List Obs :=
  [.terminalSize (some ⟨80, 24⟩), .rocInit ⟨0⟩ (.returned clientInit World.initial.io.heap),
    .net (.opened 0 0), .net (.sent (.Connected 0 0)), .tcpStarted .client,
    .rocView ⟨80, 24⟩ (.readOnly 0) (.returned .Err World.initial.io.heap)]

theorem Runs.clientWaiting : Runs 65536 clientLog .clientWaiting := by
  have inited : Runs 65536 _ (.inited ⟨80, 24⟩ clientInit World.initial.io.heap) :=
    Runs.inited ⟨80, 24⟩ clientInit World.initial.io.heap
  have up := inited.client rfl rfl (by decide)
  exact up.waiting rfl rfl

def serverInit : InitForHost :=
  ⟨{ Subscriptions.none with
      acceptTcpConnection := .Ok ⟨⟨.null, "localhost"⟩, .readOnly 1, .readOnly 2, 8080⟩ },
    ⟨.null, []⟩, .readOnly 0⟩

def World.serving (next k : Nat) (readers : List Reader) (t : TcpState) : World :=
  { (World.inited ⟨80, 24⟩ serverInit World.initial.io.heap).tcpUp
      { Net.idle with listener := some ⟨next, .accepting⟩, readers := readers, accepted := k } []
    with
    pc := .wait
    io := { World.initial.io with
      tcp := some t
      terminal := [.enterAlternateScreen, .enableRawMode, .clearAll] } }

def serverLog : List Obs :=
  [.terminalSize (some ⟨80, 24⟩), .rocInit ⟨0⟩ (.returned serverInit World.initial.io.heap),
    .tcpStarted .server,
    .rocView ⟨80, 24⟩ (.readOnly 0) (.returned .Err World.initial.io.heap)]

theorem Runs.serverWaiting : Runs 65536 serverLog (.serving 0 0 [] .new) := by
  have inited : Runs 65536 _ (.inited ⟨80, 24⟩ serverInit World.initial.io.heap) :=
    Runs.inited ⟨80, 24⟩ serverInit World.initial.io.heap
  exact (inited.server rfl rfl).waiting rfl rfl

theorem Runs.connected {next k : Nat} (h : Runs 65536 log (.serving next k readers t)) :
    Runs 65536
      (log ++ [.net (.opened next k)] ++ [.net (.sent (.Connected next k))] ++
        [.dequeued serverInit.sub (.Connected next k)] ++
        [.makeEvent (.tcpConnected .server (.readOnly 1) next)
            (.returned (.readOnly 6) World.initial.io.heap),
          .event ⟨.readOnly 6, .made (.tcpConnected .server (.readOnly 1) next)⟩])
      { World.serving ((next + 1) % 2 ^ 64) (k + 1) (readers ++ [⟨next, k, .reading⟩])
          (t.apply (.Connected next k)) with
        pc := .update ⟨.readOnly 6, .made (.tcpConnected .server (.readOnly 1) next)⟩ } := by
  have accepted := h.snoc_one (.thread rfl (.accept rfl))
  have cloned := accepted.snoc_silent (.thread rfl (.clone rfl))
  have sent := cloned.snoc_one (.thread rfl (.sendConnected rfl))
  have room : 0 < 65536 := by decide
  have notified := sent.snoc_silent (.thread rfl (.notifyConnected rfl room))
  have spawned := notified.snoc_silent (.thread rfl (.spawn rfl))
  have dequeued := Runs.tcp spawned rfl rfl rfl rfl rfl rfl rfl
  exact dequeued.made rfl (.readOnly 6)

theorem Runs.disconnected {next k id stream : Nat}
    (h : Runs 65536 log (.serving next k (readers ++ [⟨id, stream, .reading⟩]) t)) :
    Runs 65536
      (log ++ [.net (.sent (.Disconnected id))] ++ [.dequeued serverInit.sub (.Disconnected id)] ++
        [.makeEvent (.tcpDisconnected .server (.readOnly 2) id)
            (.returned (.readOnly 6) World.initial.io.heap),
          .event ⟨.readOnly 6, .made (.tcpDisconnected .server (.readOnly 2) id)⟩])
      { World.serving next k (readers ++ [⟨id, stream, .finished⟩])
          (t.apply (.Disconnected id)) with
        pc := .update ⟨.readOnly 6, .made (.tcpDisconnected .server (.readOnly 2) id)⟩ } := by
  have ended := h.snoc_silent (.thread rfl (.readEnds rfl))
  have sent := ended.snoc_one (.thread rfl (.send rfl))
  have room : 0 < 65536 := by decide
  have notified := sent.snoc_silent (.thread rfl (.notify rfl room))
  have dequeued := Runs.tcp notified rfl rfl rfl rfl rfl rfl rfl
  exact dequeued.made rfl (.readOnly 6)

end RocTui.Host
