import RocTui.Host

namespace RocTui.Host

open RocTui.Lib RocTui.Abi RocTui.Tcp RocTui.Dispatch RocTui.Effects

/-- What `rust_main` can rely on at each place. -/
def World.Placed (w : World) : Prop :=
  match w.pc with
  | .start | .size | .init | .startTcp _ => w.net = .idle ∧ w.io.tcp = none
  | .clientNotify stream _ => w.net = Net.idle.startClient ∧ stream = 0 ∧ w.io.tcp = none
  | .timerFire => w.hasTimer = true
  | .readByte _ | .tryRecv _ => w.hasTcp = true
  | .readStdin _ => w.hasStdin = true
  | .misread => False
  | _ => True

theorem ThreadStep.awake (h : ThreadStep cap n os n') : n.listener ≠ none ∨ n.readers ≠ [] := by
  cases h with
  | accept hl | acceptFails hl | cloneFails hl | clone hl | sendConnected hl | notifyConnected hl
  | spawn hl => simp [hl]
  | read hr | readEnds hr | send hr | notify hr => simp [hr]

theorem isOk_of_tag {t : TryResult α} (h : (t.tag == .Ok) = true) : ∃ p, t = .Ok p :=
  TryResult.exists_of_isOk h

theorem dispatch_ok (subs : Subscriptions) (ev : TcpEvent) : ∃ r, dispatch subs ev = .ok r := by
  rcases dispatch_cases subs ev with ⟨_, h⟩ | ⟨call, _, h, _⟩
  · exact ⟨_, h⟩
  · exact ⟨_, h⟩

theorem render_Ok (rows : RocList RocStr) : render (.Ok rows) = .ok ([.clearAll, .moveTo 0 0] ++
    rows.asSlice.flatMap fun row => [.write row.text, .moveToNextLine 1]) := rfl

theorem render_Err : render .Err = .ok [] := rfl

theorem World.timerFired_ok (w : World) : ∃ b, w.timerFired = .ok b := by
  by_cases ht : w.hasTimer = true
  · obtain ⟨p, hp⟩ := isOk_of_tag ht
    exact ⟨decide (p.fireAt ≤ w.nowNanos), by simp only [timerFired, ht, hp]; rfl⟩
  · exact ⟨false, by simp only [timerFired, ht]; rfl⟩

theorem World.timeoutMs_ok (w : World) : ∃ t, w.timeoutMs = .ok t := by
  by_cases ht : w.hasTimer = true
  · obtain ⟨p, hp⟩ := isOk_of_tag ht
    by_cases hd : p.fireAt ≤ w.nowNanos
    · exact ⟨0, by simp [timeoutMs, ht, hp, hd, bind, Except.bind, pure, Except.pure]⟩
    · exact ⟨(min ((p.fireAt - w.nowNanos) / 1000000) (2 ^ 31 - 1) : Nat), by
        simp [timeoutMs, ht, hp, hd, bind, Except.bind, pure, Except.pure]⟩
  · exact ⟨-1, by simp only [timeoutMs, ht]; rfl⟩

theorem World.Placed.reads_ok {w : World} (h : w.Placed) : w.reads = .ok () := by
  cases hpc : w.pc with
  | startTcp effects =>
    obtain ⟨r, hr⟩ := initTcpFromSubs_ok w.currentSubs
    simp only [reads, hpc, hr]
    rfl
  | render result =>
    cases result with
    | Ok rows => simp only [reads, hpc, render_Ok]; rfl
    | Err => simp only [reads, hpc, render_Err]; rfl
  | loop fds =>
    obtain ⟨b, hb⟩ := w.timerFired_ok
    simp only [reads, hpc, hb]
    rfl
  | timeout fds =>
    obtain ⟨t, ht⟩ := w.timeoutMs_ok
    simp only [reads, hpc, ht]
    rfl
  | timerFire =>
    simp only [Placed, hpc] at h
    obtain ⟨p, hp⟩ := isOk_of_tag h
    simp only [reads, hpc, timerFireEvent_ok hp]
    rfl
  | readStdin fds =>
    simp only [Placed, hpc] at h
    obtain ⟨p, hp⟩ := isOk_of_tag h
    simp only [reads, hpc, hp]
    rfl
  | tryRecv fds =>
    cases hc : w.net.channel with
    | nil => simp only [reads, hpc, hc]; rfl
    | cons ev queued =>
      obtain ⟨r, hr⟩ := dispatch_ok w.currentSubs ev
      simp only [reads, hpc, hc, hr]
      rfl
  | _ => simp only [reads, hpc]; rfl

theorem tcpReadable_hasTcp {w : World} (h : w.tcpReadable fds = true) : w.hasTcp = true := by
  simp only [World.tcpReadable, Bool.and_eq_true] at h
  exact h.1

theorem stdinReadable_hasStdin {w : World} (h : w.stdinReadable fds = true) :
    w.hasStdin = true := by
  simp only [World.stdinReadable, Bool.and_eq_true] at h
  exact h.1

theorem Goto.placed {w : World} (h : w.Placed) (hg : Goto w pc) :
    ({ w with pc := pc } : World).Placed := by
  cases hg with
  | pollTimesOut _ _ ht => exact ht
  | pollTcp _ _ _ hr => exact tcpReadable_hasTcp hr
  | pollStdin _ _ _ _ hr => exact stdinReadable_hasStdin hr
  | timerFired hpc hf =>
    cases ht : w.hasTimer with
    | true => exact ht
    | false => simp [World.timerFired, ht, pure, Except.pure] at hf
  | misread hm =>
    rw [h.reads_ok] at hm
    simp at hm
  | _ => trivial

theorem Step.placed (h : w.Placed) (hs : Step cap w es w') : w'.Placed := by
  cases hs with
  | enterTerminal hpc | sizeRead hpc | initReturns hpc =>
    simp only [World.Placed, hpc] at h
    exact h
  | clientConnects hpc hr =>
    simp only [World.Placed, hpc] at h
    obtain ⟨hn, ht⟩ := h
    simp [World.Placed, hn, ht, Net.idle]
  | byteRead hpc ht => simp [World.Placed, World.hasTcp, ht]
  | goto hg => exact hg.placed h
  | thread hrun hstep =>
    have awake := ThreadStep.awake hstep
    cases hpc : w.pc with
    | start | size | init | startTcp effects | clientNotify stream effects =>
      simp only [World.Placed, hpc] at h
      rw [h.1] at awake
      simp [Net.idle, Net.startClient] at awake
    | misread => simp [World.Placed, hpc] at h
    | timerFire | readByte fds | tryRecv fds | readStdin fds =>
      simp only [World.Placed, hpc] at h ⊢
      exact h
    | _ => trivial
  | tick hrun =>
    cases hpc : w.pc with
    | misread => simp [World.Placed, hpc] at h
    | start | size | init | startTcp effects | clientNotify stream effects | timerFire
    | readByte fds | tryRecv fds | readStdin fds =>
      simp only [World.Placed, hpc] at h ⊢
      exact h
    | _ => trivial
  | _ => trivial

def Pc.connecting : Pc → Bool
  | .clientNotify _ _ => true
  | _ => false

def World.Attached (w : World) : Prop :=
  w.hasTcp = false → w.net = .idle ∨ w.pc.connecting = true

theorem Step.attached (hp : w.Placed) (h : w.Attached) (hs : Step cap w es w') : w'.Attached := by
  cases hs with
  | clientConnects hpc hr => exact fun _ => .inr rfl
  | effect hpc he =>
    have same := (handled he).isSome_tcp
    simp_all [World.Attached, World.hasTcp, Pc.connecting]
  | exit hpc he =>
    obtain ⟨_, rfl, _⟩ := (handled he).exit_eq
    simp_all [World.Attached, World.hasTcp, Pc.connecting, HostIo.cleanupTerminal, HostIo.emit]
  | goto hg =>
    have reads := hp.reads_ok
    cases hg <;> simp_all [World.Attached, World.hasTcp, Pc.connecting]
  | thread hrun ht =>
    have awake := ThreadStep.awake ht
    intro hno
    rcases h hno with idle | connecting
    · simp [idle, Net.idle] at awake
    · exact .inr connecting
  | noEvent hn =>
    cases hn <;>
      simp_all [World.Attached, World.hasTcp, Pc.connecting, HostIo.cleanupTerminal, HostIo.emit]
  | _ => simp_all [World.Attached, World.hasTcp, Pc.connecting, HostIo.emit]

theorem map_fd_resetRevents (fds : List PollFd) (idx : Nat) :
    (resetRevents fds idx).map PollFd.fd = fds.map PollFd.fd := by
  apply List.ext_getElem?
  intro i
  by_cases hi : idx = i <;> cases hf : fds[i]? <;> simp [resetRevents, hi, hf]

/-- Every list handed to `poll` watches what `wait_for_next_event` set out to watch. -/
def World.Watching (w : World) : Prop :=
  match w.pc with
  | .loop fds | .timeout fds | .poll fds _ | .readByte fds | .tryRecv fds | .readStdin fds =>
    fds.map PollFd.fd = w.pollFds.map PollFd.fd
  | _ => True

theorem Goto.watching {w : World} (h : w.Watching) (hg : Goto w pc) :
    ({ w with pc := pc } : World).Watching := by
  cases hg with
  | waitBegins => rfl
  | timerPending hpc | timeout hpc =>
    simp only [World.Watching, hpc] at h
    exact h
  | pollTcp hpc hpolled | pollStdin hpc hpolled | pollAgain hpc hpolled =>
    simp only [World.Watching, hpc] at h
    exact hpolled.fds.trans h
  | recvEmpty hpc | stdinEmpty hpc =>
    simp only [World.Watching, hpc] at h
    exact (map_fd_resetRevents _ _).trans h
  | _ => trivial

theorem Step.watching (h : w.Watching) (hs : Step cap w es w') : w'.Watching := by
  cases hs with
  | byteRead hpc =>
    simp only [World.Watching, hpc] at h
    exact h
  | recvDiscarded hpc ht =>
    simp only [World.Watching, hpc] at h
    refine (map_fd_resetRevents _ _).trans (h.trans ?_)
    simp [World.pollFds, World.hasTcp, World.hasStdin, ht]
  | goto hg => exact hg.watching h
  | thread | tick =>
    unfold World.Watching at h ⊢
    exact h
  | _ => trivial

theorem World.notify_at {w : World} (ht : w.hasTcp = true) :
    (w.pollFds.map PollFd.fd)[w.tcpFdIdx]? = some .notifyRx := by
  cases hs : w.hasStdin <;> simp [pollFds, tcpFdIdx, hs, ht]

theorem Polled.reports {w : World} {fds fds' : List PollFd} (hp : Polled w.net fds fds' ret)
    (hfds : fds.map PollFd.fd = w.pollFds.map PollFd.fd) (ht : w.hasTcp = true)
    (hpipe : 0 < w.net.pipe) : w.tcpReadable fds' = true ∧ ret ≠ 0 := by
  have at_idx := World.notify_at ht
  rw [← hfds, ← hp.fds, List.getElem?_map, Option.map_eq_some_iff] at at_idx
  cases at_idx with
  | intro f hf =>
    have mem : f ∈ fds' := List.mem_of_getElem? hf.1
    have pollin : f.revents.pollin = true := (hp.notify f mem hf.2).mpr hpipe
    constructor
    · simp [World.tcpReadable, ht, hf.1, pollin]
    · rw [hp.ready]
      simp only [ne_eq, List.length_eq_zero_iff, List.filter_eq_nil_iff]
      intro silent
      simpa [pollin] using silent f mem

theorem Goto.of_poll {w : World} (hp : w.Placed) (hw : w.Watching) (ht : w.hasTcp = true)
    (hpc : w.pc = .poll fds timeoutMs) (hpipe : 0 < w.net.pipe) (hg : Goto w pc) :
    ∃ fds', pc = .readByte fds' := by
  have hfds : fds.map PollFd.fd = w.pollFds.map PollFd.fd := by
    simp only [World.Watching, hpc] at hw
    exact hw
  cases hg with
  | pollTcp => exact ⟨_, rfl⟩
  | pollTimesOut hpc' hpolled =>
    rw [hpc] at hpc'
    cases hpc'
    exact ((hpolled.reports hfds ht hpipe).2 rfl).elim
  | pollStdin hpc' hpolled _ hunread | pollAgain hpc' hpolled _ hunread =>
    rw [hpc] at hpc'
    cases hpc'
    rw [(hpolled.reports hfds ht hpipe).1] at hunread
    cases hunread
  | misread hm =>
    rw [hp.reads_ok] at hm
    cases hm
  | _ hpc' => simp [hpc] at hpc'

structure World.WellFormed (w : World) : Prop where
  placed : w.Placed
  attached : w.Attached
  watching : w.Watching

theorem Runs.wellFormed (h : Runs cap log w) : w.WellFormed := by
  refine h.invariant (I := fun _ w => w.WellFormed) ⟨⟨rfl, rfl⟩, fun _ => .inl rfl, trivial⟩ ?_
  intro past s es t hi hs
  exact ⟨hs.placed hi.placed, hs.attached hi.placed hi.attached, hs.watching hi.watching⟩

end RocTui.Host
