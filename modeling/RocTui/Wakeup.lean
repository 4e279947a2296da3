import RocTui.Lib.NotifyQueue
import RocTui.Places
import RocTui.Rounds

namespace RocTui.Wakeup

open RocTui.Lib RocTui.Tcp RocTui.Host

def announcesReader (r : Reader) : Bool :=
  match r.pc with
  | .notifying _ => true
  | _ => false

def announcesListener (l : Listener) : Bool :=
  match l.pc with
  | .notifying _ _ => true
  | _ => false

def netUnannounced (n : Net) : Nat :=
  n.readers.countP announcesReader + n.listener.toList.countP announcesListener

def mainUnannounced : Pc → Nat
  | .clientNotify _ _ => 1
  | _ => 0

def unannounced (w : World) : Nat := netUnannounced w.net + mainUnannounced w.pc

def fetching : Pc → Nat
  | .tryRecv _ => 1
  | _ => 0

def netCounters (n : Net) (pc : Pc) : NotifyQueue.Counters where
  items := n.channel.length
  tokens := n.pipe
  announcing := netUnannounced n + mainUnannounced pc
  fetching := fetching pc

def counters (w : World) : NotifyQueue.Counters := netCounters w.net w.pc

section
variable (id : Nat) (stream : Socket) (ev : TcpEvent)

@[simp] theorem announcesReader_reading : announcesReader ⟨id, stream, .reading⟩ = false := rfl
@[simp] theorem announcesReader_sending :
    announcesReader ⟨id, stream, .sending ev⟩ = false := rfl
@[simp] theorem announcesReader_notifying :
    announcesReader ⟨id, stream, .notifying ev⟩ = true := rfl

@[simp] theorem announcesReader_afterNotify :
    announcesReader ⟨id, stream, afterNotify ev⟩ = false := by
  cases ev <;> rfl

end

theorem thread_moves (h : ThreadStep cap n os n') (pc : Pc) :
    netCounters n' pc = netCounters n pc ∨
      NotifyQueue.Step (netCounters n pc) (netCounters n' pc) := by
  cases h with
  | accept hl =>
    left
    simp [netCounters, netUnannounced, announcesListener, hl]
  | acceptFails hl => exact .inl rfl
  | cloneFails hl | clone hl | spawn hl =>
    left
    simp [netCounters, netUnannounced, announcesListener, hl]
  | sendConnected hl =>
    right
    convert NotifyQueue.Step.put using 1
    simp [netCounters, netUnannounced, announcesListener, hl]
    omega
  | notifyConnected hl hp =>
    right
    convert NotifyQueue.Step.announce ?_ using 1
    · simp [netCounters, netUnannounced, announcesListener, hl]
    · simp [netCounters, netUnannounced, announcesListener, hl]
  | read hr | readEnds hr =>
    left
    simp [netCounters, netUnannounced, hr]
  | send hr =>
    right
    convert NotifyQueue.Step.put using 1
    simp [netCounters, netUnannounced, List.countP_cons, hr]
    omega
  | notify hr hp =>
    right
    convert NotifyQueue.Step.announce ?_ using 1
    · simp [netCounters, netUnannounced, List.countP_cons, hr]
      omega
    · simp [netCounters, netUnannounced, List.countP_cons, hr]

/-- A step of the whole host is a step of the counted queue, or none. -/
theorem step_moves (hw : w.WellFormed) (h : Step cap w es w') :
    counters w' = counters w ∨ NotifyQueue.Step (counters w) (counters w') := by
  have hp := hw.placed
  cases h with
  | serverStarted hpc =>
    simp only [World.Placed, hpc] at hp
    left
    simp [counters, netCounters, netUnannounced, announcesListener, Net.startServer, Net.idle,
      mainUnannounced, fetching, hpc, hp.1]
  | clientConnects hpc =>
    right
    convert NotifyQueue.Step.put using 1
    simp [counters, netCounters, netUnannounced, Net.startClient, mainUnannounced, fetching, hpc]
  | clientStarted hpc hcap =>
    right
    convert NotifyQueue.Step.announce ?_ using 1
    · simp [counters, netCounters, netUnannounced, Net.clientReader, mainUnannounced, fetching,
        hpc]
    · simp [counters, netCounters, mainUnannounced, hpc]
  | byteRead hpc ht hpipe =>
    right
    convert NotifyQueue.Step.take ?_ using 1
    · simp [counters, netCounters, netUnannounced, mainUnannounced, fetching, hpc, hpipe]
    · simp [counters, netCounters, hpipe]
  | recvDiscarded hpc ht hc | recvDispatched hpc ht hc =>
    right
    convert NotifyQueue.Step.fetch ?_ ?_ using 1
    · simp [counters, netCounters, netUnannounced, mainUnannounced, fetching, hpc, hc]
    · simp [counters, netCounters, fetching, hpc]
    · simp [counters, netCounters, hc]
  | goto hg =>
    cases hg with
    | recvEmpty hpc hc =>
      right
      convert NotifyQueue.Step.miss ?_ ?_ using 1
      · simp [counters, netCounters, mainUnannounced, fetching, hpc]
      · simp [counters, netCounters, fetching, hpc]
      · simp [counters, netCounters, hc]
    | misread hm => simp [hp.reads_ok] at hm
    | _ => simp_all [counters, netCounters, mainUnannounced, fetching]
  | noEvent hn => cases hn <;> simp_all [counters, netCounters, mainUnannounced, fetching]
  | thread hrun ht => exact thread_moves ht w.pc
  | tick => exact .inl rfl
  | _ => simp_all [counters, netCounters, mainUnannounced, fetching]

theorem balanced (h : Runs cap log w) : (counters w).Balanced := by
  refine NotifyQueue.balanced_of_simulation counters ?_ ?_ h
  · rfl
  · intro past s es t hr hs
    exact step_moves (Runs.wellFormed hr) hs

/-- Every queued event is accounted for by a byte in the pipe, by the thread about to write it
or by the main loop that has just read it; so no wake-up is lost and no event is stranded. -/
theorem no_wakeup_lost (h : Runs cap log w) :
    w.net.channel.length = w.net.pipe + unannounced w + fetching w.pc ∧
    (∀ fds, w.pc = .tryRecv fds → w.net.channel ≠ []) ∧
    (unannounced w = 0 → w.net.channel ≠ [] →
      0 < w.net.pipe ∨ ∃ fds, w.pc = .tryRecv fds) ∧
    (∀ fds timeoutMs pc, w.pc = .poll fds timeoutMs → 0 < w.net.pipe → Goto w pc →
      ∃ fds', pc = .readByte fds') := by
  have hb := balanced h
  have hw := Runs.wellFormed h
  refine ⟨hb, ?_, ?_, ?_⟩
  · intro fds hpc
    have fetches : 0 < (counters w).fetching := by simp [counters, netCounters, fetching, hpc]
    exact List.length_pos_iff.mp (hb.available fetches)
  · intro hall hne
    cases hf : fetching w.pc with
    | zero => exact .inl (hb.readable hall hf (List.length_pos_iff.mpr hne))
    | succ n =>
      cases hpc : w.pc with
      | tryRecv fds => exact .inr ⟨fds, rfl⟩
      | _ => simp [fetching, hpc] at hf
  · intro fds timeoutMs pc hpc hpipe hg
    have ht : w.hasTcp = true := by
      by_contra hno
      rcases hw.attached (by simpa using hno) with idle | connecting
      · simp [idle, Net.idle] at hpipe
      · simp [hpc, Pc.connecting] at connecting
    exact Goto.of_poll hw.placed hw.watching ht hpc hpipe hg

theorem no_wakeup_lost_client :
    World.clientWaiting.net.channel ≠ [] ∧ 0 < World.clientWaiting.net.pipe :=
  have waiting := no_wakeup_lost Runs.clientWaiting
  ⟨List.cons_ne_nil _ _, (waiting.2.2.1 rfl (List.cons_ne_nil _ _)).resolve_right nofun⟩

end RocTui.Wakeup
