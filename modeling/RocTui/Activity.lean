import RocTui.Execution

namespace RocTui.Activity

open RocTui.Lib RocTui.Abi RocTui.Tcp RocTui.Dispatch RocTui.Effects RocTui.Host
  RocTui.Execution

def startedAs : Obs → Option TcpMode
  | .tcpStarted mode => some mode
  | _ => none

def startedModes (log : List Obs) : List TcpMode := log.filterMap startedAs

theorem startedModes_append (log es : List Obs) :
    startedModes (log ++ es) = startedModes log ++ startedModes es := List.filterMap_append

/-- What the host waits for: TCP once it was started, stdin and the timer as the latest
`Subscriptions` has them. -/
def Active (log : List Obs) : Prop :=
  startedModes log ≠ [] ∨
    ∃ r, latest log = some r ∧ (r.sub.stdin.isOk = true ∨ r.sub.timer.isOk = true)

structure Started (log : List Obs) (w : World) : Prop where
  has : startedModes log = [] ↔ w.hasTcp = false
  once : (startedModes log).length ≤ 1
  first : w.hasTcp = false → dequeued log = []

theorem Started.quiet {w w' : World} (h : Started log w) (hes : startedModes es = [])
    (ht : w'.hasTcp = w.hasTcp) (hd : w.hasTcp = false → dequeued es = []) :
    Started (log ++ es) w' := by
  refine ⟨?_, ?_, ?_⟩
  · rw [startedModes_append, hes, List.append_nil, ht]
    exact h.has
  · rw [startedModes_append, hes, List.append_nil]
    exact h.once
  · intro hno
    rw [ht] at hno
    rw [dequeued_append, h.first hno, hd hno, List.append_nil]

theorem Started.start {w w' : World} (h : Started log w) (hes : startedModes es = [mode])
    (hno : w.hasTcp = false) (ht : w'.hasTcp = true) : Started (log ++ es) w' := by
  refine ⟨?_, ?_, ?_⟩
  · simp [startedModes_append, hes, ht]
  · simp [startedModes_append, hes, h.has.mpr hno]
  · intro hno'
    rw [ht] at hno'
    cases hno'

theorem step_started (hw : w.WellFormed) (h : Started past w) (hs : Step cap w es w') :
    Started (past ++ es) w' := by
  have hp := hw.placed
  cases hs with
  | serverStarted hpc | clientStarted hpc =>
    simp only [World.Placed, hpc] at hp
    exact h.start rfl (by simp [World.hasTcp, hp]) rfl
  | effect hpc he => exact h.quiet rfl (handled he).isSome_tcp fun _ => rfl
  | exit hpc he => exact h.quiet rfl (handled he).isSome_tcp fun _ => rfl
  | recvDiscarded hpc ht | recvDispatched hpc ht =>
    refine h.quiet rfl ?_ ?_
    · simp [World.hasTcp, ht]
    · simp [World.hasTcp, ht]
  | thread hrun ht =>
    refine h.quiet ?_ rfl fun _ => ?_
    · exact filterMap_net (fun _ => rfl) _
    · exact filterMap_net (fun _ => rfl) _
  | _ => exact h.quiet rfl rfl fun _ => rfl

theorem started (h : Runs cap log w) : Started log w := by
  refine h.invariant_of (I := Started) Runs.wellFormed ?_ fun hw hi hs => step_started hw hi hs
  exact ⟨⟨fun _ => rfl, fun _ => rfl⟩, Nat.zero_le _, fun _ => rfl⟩

def Awaiting (w : World) : Prop :=
  match w.pc with
  | .loop _ | .timeout _ | .poll _ _ | .timerFire | .readByte _ | .tryRecv _ | .readStdin _
  | .makeEvent _ => w.nothingActive = false
  | _ => True

theorem step_awaiting (h : Awaiting w) (hs : Step cap w es w') : Awaiting w' := by
  cases hs with
  | byteRead hpc =>
    simp only [Awaiting, hpc] at h
    exact h
  | recvDiscarded | recvDispatched => simp [Awaiting, World.nothingActive, World.hasTcp]
  | goto hg =>
    cases hg with
    | waitBegins _ hactive => exact hactive
    | timerFired hpc | timerPending hpc | timeout hpc | pollTimesOut hpc | pollTcp hpc
    | pollStdin hpc | pollAgain hpc | recvEmpty hpc | stdinRead hpc | stdinEmpty hpc =>
      simp only [Awaiting, hpc] at h
      exact h
    | _ => trivial
  | thread | tick =>
    unfold Awaiting at h ⊢
    exact h
  | _ => trivial

theorem awaiting (h : Runs cap log w) : Awaiting w := by
  refine h.invariant (I := fun _ w => Awaiting w) ?_ fun hi hs => step_awaiting hi hs
  trivial

def waiting : Pc → Bool
  | .wait | .loop _ | .timeout _ | .poll _ _ | .timerFire | .readByte _ | .tryRecv _
  | .readStdin _ | .makeEvent _ => true
  | _ => false

theorem active_iff (h : Runs cap log w) (hpc : waiting w.pc = true) :
    Active log ↔ w.nothingActive = false := by
  have now : ∃ r, latest log = some r ∧ r.m = w.currentModel ∧ r.sub = w.currentSubs := by
    have cur := current h
    unfold Current at cur
    cases hc : w.pc with
    | wait | loop | timeout | poll | timerFire | readByte | tryRecv | readStdin | makeEvent =>
      simp only [hc] at cur
      exact cur
    | _ => simp [waiting, hc] at hpc
  obtain ⟨r, hl, _, hsub⟩ := now
  have tcp := (started h).has
  cases hm : startedModes log with
  | nil =>
    have hno := tcp.mp hm
    cases hstdin : w.hasStdin with
    | true =>
      have stdin : w.currentSubs.stdin.isOk = true := hstdin
      simp [Active, hm, hl, hsub, World.nothingActive, hstdin, stdin]
    | false =>
      have stdin : w.currentSubs.stdin.isOk = false := hstdin
      cases htimer : w.hasTimer with
      | true =>
        have timer : w.currentSubs.timer.isOk = true := htimer
        simp [Active, hm, hl, hsub, World.nothingActive, htimer, timer]
      | false =>
        have timer : w.currentSubs.timer.isOk = false := htimer
        simp [Active, hm, hl, hsub, World.nothingActive, hno, hstdin, stdin, htimer, timer]
  | cons mode rest =>
    have has : w.hasTcp = true := by
      rw [← Bool.not_eq_false, ← tcp, hm]
      exact List.cons_ne_nil _ _
    simp [Active, hm, World.nothingActive, has]

def Starting (log : List Obs) (w : World) : Prop :=
  match w.pc with
  | .start | .size | .init => receipts log = []
  | .startTcp _ => ∃ r, receipts log = [r] ∧ r.sub = w.currentSubs
  | .clientNotify _ _ => ∃ r, receipts log = [r] ∧ r.sub.acceptTcpConnection.isOk = false
  | _ => True

theorem requested_server {subs : Subscriptions}
    (h : initTcpFromSubs subs = .ok (some (.server host port))) :
    subs.acceptTcpConnection.isOk = true := by
  unfold initTcpFromSubs at h
  rcases acceptOrConnect_cases subs (fun p => TcpRequest.server p.host.text p.port)
      (fun p => .client p.address.text p.port) with ⟨_, _, hr⟩ | ⟨p, ha, hr⟩ | ⟨p, _, _, hr⟩
  · rw [hr] at h
    cases h
  · rw [ha]
    rfl
  · rw [hr] at h
    cases h

theorem requested_client {subs : Subscriptions}
    (h : initTcpFromSubs subs = .ok (some (.client address port))) :
    subs.acceptTcpConnection.isOk = false := by
  unfold initTcpFromSubs at h
  rcases acceptOrConnect_cases subs (fun p => TcpRequest.server p.host.text p.port)
      (fun p => .client p.address.text p.port) with ⟨_, _, hr⟩ | ⟨p, _, hr⟩ | ⟨p, ha, _, hr⟩
  · rw [hr] at h
    cases h
  · rw [hr] at h
    cases h
  · rw [ha]
    rfl

theorem Starting.quiet {w w' : World} (h : Starting log w) (hes : receipts es = [])
    (hpc : w'.pc = w.pc) (hsubs : w'.currentSubs = w.currentSubs) : Starting (log ++ es) w' := by
  unfold Starting
  rw [hpc, hsubs, receipts_append, hes, List.append_nil]
  exact h

theorem step_starting (h : Starting past w) (hs : Step cap w es w') :
    Starting (past ++ es) w' := by
  cases hs with
  | enterTerminal hpc | sizeRead hpc =>
    simp only [Starting, hpc] at h
    change receipts (past ++ _) = []
    rw [receipts_append, h]
    rfl
  | initReturns hpc =>
    simp only [Starting, hpc] at h
    refine ⟨_, ?_, rfl⟩
    rw [receipts_append, h]
    rfl
  | clientConnects hpc hr =>
    simp only [Starting, hpc] at h
    obtain ⟨r, hlog, hsub⟩ := h
    refine ⟨r, ?_, ?_⟩
    · rw [receipts_append, hlog]
      rfl
    · rw [hsub]
      exact requested_client hr
  | goto hg => cases hg <;> trivial
  | thread hrun ht =>
    refine h.quiet ?_ rfl rfl
    exact filterMap_net (fun _ => rfl) _
  | tick => exact h.quiet rfl rfl rfl
  | _ => trivial

theorem starting (h : Runs cap log w) : Starting log w := by
  refine h.invariant (I := Starting) ?_ fun hi hs => step_starting hi hs
  rfl

/-- `None` is returned, but for a failing `poll`, where nothing is active; an event where
something is; and TCP is only ever started as the record of `roc_init` asks. -/
def EndsInactive (past : List Obs) : Obs → Prop
  | .noEvent why => why ≠ .pollFailed → ¬Active past
  | .event _ => Active past
  | .tcpStarted mode => ∃ r, receipts past = [r] ∧
      (mode = .server ↔ r.sub.acceptTcpConnection.isOk = true)
  | _ => True

theorem active_snoc_makeEvent (past : List Obs) (call : EventCall) (reply : Reply RocBox) :
    Active (past ++ [.makeEvent call reply]) ↔ Active past := by
  unfold Active
  rw [startedModes_append, latest_of_quiet rfl, show startedModes [_] = [] from rfl,
    List.append_nil]

theorem endsInactive (h : Runs cap log w) : Always EndsInactive log := by
  refine h.always ?_
  intro past w es w' hr hs
  have waits := awaiting hr
  have begins := starting hr
  cases hs with
  | noEvent hn =>
    refine ⟨fun hne => ?_, trivial⟩
    cases hn with
    | nothingActive hpc hidle => simp [active_iff hr, hpc, waiting, hidle]
    | pollFailed => exact (hne rfl).elim
    | timerErr hpc hnone =>
      have placed := (Runs.wellFormed hr).placed
      simp only [World.Placed, hpc] at placed
      obtain ⟨p, hp⟩ := isOk_of_tag placed
      rw [timerFireEvent_ok hp] at hnone
      cases hnone
  | eventMade hpc =>
    simp only [Awaiting, hpc] at waits
    refine ⟨trivial, ?_, trivial⟩
    rw [EndsInactive, active_snoc_makeEvent, active_iff hr (by simp [hpc, waiting])]
    exact waits
  | timerEvent hpc =>
    simp only [Awaiting, hpc] at waits
    refine ⟨?_, trivial⟩
    rw [EndsInactive, active_iff hr (by simp [hpc, waiting])]
    exact waits
  | serverStarted hpc hreq =>
    simp only [Starting, hpc] at begins
    obtain ⟨r, hlog, hsub⟩ := begins
    refine ⟨⟨r, hlog, fun _ => ?_, fun _ => rfl⟩, trivial⟩
    rw [hsub]
    exact requested_server hreq
  | clientStarted hpc =>
    simp only [Starting, hpc] at begins
    obtain ⟨r, hlog, hconnect⟩ := begins
    refine ⟨⟨r, hlog, by simp, fun haccept => ?_⟩, trivial⟩
    rw [hconnect] at haccept
    cases haccept
  | thread hrun ht =>
    apply after_net
    intro o past'
    trivial
  | _ => simp [Always.After, EndsInactive]

/-- `wait_for_next_event` gives up, other than over a failing `poll`, exactly where no TCP was
started and the latest `Subscriptions` has neither stdin nor a timer. -/
theorem none_iff_inactive (h : Runs cap log w) :
    Always EndsInactive log ∧
    (w.pc = .wait → ¬Active log →
      Step cap w [.noEvent .nothingActive]
        { w with pc := .exited 2, io := w.io.cleanupTerminal } ∧
      ∀ es w', Step cap w es w' → w'.pc = .wait ∨
        (es = [.noEvent .nothingActive] ∧ w'.pc = .exited 2)) := by
  refine ⟨endsInactive h, ?_⟩
  intro hpc hidle
  have nothing : w.nothingActive = true := by
    rw [active_iff h (by simp [hpc, waiting])] at hidle
    simpa using hidle
  refine ⟨.noEvent (.nothingActive hpc nothing), ?_⟩
  intro es w' hs
  cases hs with
  | noEvent hn =>
    cases hn with
    | nothingActive => exact .inr ⟨rfl, rfl⟩
    | pollFailed hpc' | timerErr hpc' =>
      rw [hpc] at hpc'
      cases hpc'
  | thread | tick => exact .inl hpc
  | goto hg =>
    cases hg with
    | waitBegins _ hactive =>
      rw [nothing] at hactive
      cases hactive
    | misread hm => simp [(Runs.wellFormed h).placed.reads_ok] at hm
    | _ hpc' =>
      rw [hpc] at hpc'
      cases hpc'
  | _ hpc' =>
    rw [hpc] at hpc'
    cases hpc'

def idleInit : InitForHost := ⟨.none, ⟨.null, []⟩, .readOnly 0⟩

theorem none_iff_inactive_idle : ∃ log w, Runs 65536 log w ∧ w.pc = .wait ∧
    Step 65536 w [.noEvent .nothingActive]
      { w with pc := .exited 2, io := w.io.cleanupTerminal } := by
  have inited : Runs 65536 _ (.inited ⟨80, 24⟩ idleInit World.initial.io.heap) :=
    Runs.inited ⟨80, 24⟩ idleInit World.initial.io.heap
  have waits := (inited.noTcp rfl rfl).waiting rfl rfl
  refine ⟨_, _, waits, rfl, ((none_iff_inactive waits).2 rfl ?_).1⟩
  intro active
  have stuck : true = false := (active_iff waits rfl).mp active
  cases stuck

theorem none_is_not_enough :
    (∃ log w, Runs 65536 log w ∧ w.pc = .wait ∧ w.currentSubs = .none ∧
      ∀ es w', Run (Step 65536) w es w' → ∀ why, .noEvent why ∈ es → why = .pollFailed) ∧
    (∃ log w, Runs 65536 log w ∧ w.pc = .wait ∧ w.currentSubs = serverInit.sub ∧
      Step 65536 w [.noEvent .nothingActive]
        { w with pc := .exited 2, io := w.io.cleanupTerminal }) := by
  constructor
  · have dequeued := Runs.clientWaiting.tcp rfl rfl rfl rfl rfl rfl rfl
    have updated := (dequeued.made rfl (.readOnly 6)).updated rfl idleInit
      World.initial.io.heap
    have waits := updated.waitingAgain rfl rfl
    refine ⟨_, _, waits, rfl, rfl, ?_⟩
    intro es w' hrun why hmem
    by_contra hne
    obtain ⟨pre, post, rfl⟩ := List.append_of_mem hmem
    refine endsInactive (waits.trans hrun) _ _ post (List.append_assoc _ _ _).symm hne (.inl ?_)
    rw [startedModes_append]
    intro hnil
    have none := (List.append_eq_nil_iff.mp hnil).1
    cases none
  · have inited : Runs 65536 _
        (.inited ⟨80, 24⟩ serverInit World.initial.io.heap) :=
      Runs.inited ⟨80, 24⟩ serverInit World.initial.io.heap
    have waits := (inited.noServer rfl rfl).waiting rfl rfl
    exact ⟨_, _, waits, rfl, rfl, .noEvent (.nothingActive rfl rfl)⟩

end RocTui.Activity
