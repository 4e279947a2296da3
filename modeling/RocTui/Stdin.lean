import RocTui.Rounds
import RocTui.Execution
import RocTui.Lib.BufRead

namespace RocTui.Stdin

open RocTui.Lib RocTui.Abi RocTui.Tcp RocTui.Dispatch RocTui.Effects RocTui.Host

/-- File descriptor 0 as the kernel has it: the bytes not read yet, what `poll` reports when
there are none (nothing, end of file, a hang-up), and whether a read may fail. -/
structure Descriptor where
  pending : List UInt8
  idle : Revents
  failing : Bool
  deriving DecidableEq, Repr

def Descriptor.revents (d : Descriptor) : Revents :=
  if d.pending = [] then d.idle else { d.idle with pollin := true }

/-- How the kernel answers a read of up to `n` bytes.  One that would block does not return. -/
inductive SysRead (d : Descriptor) (n : Nat) : List UInt8 → Descriptor → Prop
  | bytes : d.pending = chunk ++ rest → chunk ≠ [] → chunk.length ≤ n →
      SysRead d n chunk { d with pending := rest }
  | eof : d.pending = [] → d.idle ≠ .none → SysRead d n [] d
  | error : d.failing = true → SysRead d n [] d

def Pulls (d : Descriptor) (request : Option Nat) (chunk : List UInt8) (d' : Descriptor) : Prop :=
  match request with
  | none => chunk = [] ∧ d' = d
  | some n => SysRead d n chunk d'

/-- Counts over a call of `wait_for_next_event`: the polls that did not sleep and the bytes of
stdin and of the notification pipe that were consumed, since its start and in the present turn
of its loop. -/
structure Meter where
  slept : Bool
  ate : Nat
  awake : Nat
  eaten : Nat
  deriving DecidableEq, Repr

def Meter.fresh : Meter := ⟨true, 0, 0, 0⟩

def Meter.eat (m : Meter) (n : Nat) : Meter := { m with ate := m.ate + n, eaten := m.eaten + n }

def Meter.poll (m : Meter) (ready : Bool) : Meter :=
  { m with slept := !ready, ate := 0, awake := m.awake + ready.toNat }

/-- The process, its standard input and the buffer std keeps for it; `reads` are the byte lists
that came from the descriptor. -/
structure Console where
  world : World
  stdin : Descriptor
  buffer : List UInt8
  reads : List (List UInt8)
  meter : Meter

def record (reads : List (List UInt8)) (chunk : List UInt8) : List (List UInt8) :=
  if chunk = [] then reads else reads ++ [chunk]

def Console.initial : Console := ⟨World.initial, ⟨[], .none, false⟩, [], [], .fresh⟩

def Console.ready (c : Console) (timeoutMs : Int) : Bool :=
  timeoutMs == 0 || c.world.hasStdin && c.stdin.revents != .none ||
    c.world.hasTcp && decide (0 < c.world.net.pipe)

def Console.next (c : Console) (w : World) : Console :=
  { c with
    world := w
    meter := match c.world.pc, w.pc with
      | .wait, .loop _ => .fresh
      | .timeout _, .poll _ timeoutMs => c.meter.poll (c.ready timeoutMs)
      | .readByte _, .tryRecv _ => c.meter.eat 1
      | _, _ => c.meter }

def afterPoll (w : World) (fds : List PollFd) (ret : Nat) : Pc :=
  if ret = 0 ∧ w.hasTimer = true then .timerFire
  else if w.tcpReadable fds = true then .readByte fds
  else if w.stdinReadable fds = true then .readStdin fds
  else .loop fds

/-- Steps that leave descriptor 0 alone: `poll` returns in them only to fail. -/
def offStdin : Pc → Pc → Prop
  | .poll fds timeoutMs, pc => pc = .poll fds timeoutMs ∨ pc = .exited 2
  | .readStdin fds, pc => pc = .readStdin fds
  | _, _ => True

inductive ConsoleStep (cap : Nat) : Console → List Obs → Console → Prop
  | host {c : Console} : Step cap c.world es w → offStdin c.world.pc w.pc →
      ConsoleStep cap c es (c.next w)
  | polled {c : Console} : c.world.pc = .poll fds timeoutMs → Polled c.world.net fds fds' ret →
      (∀ f ∈ fds', f.fd = .stdin → f.revents = c.stdin.revents) →
      (∀ f ∈ fds', f.fd = .notifyRx → f.revents.other = false) →
      (ret = 0 → 0 ≤ timeoutMs) →
      ConsoleStep cap c [] { c with world := { c.world with pc := afterPoll c.world fds' ret } }
  | stdinRead {c : Console} {closure : RocErasedCallable} : c.world.pc = .readStdin fds →
      c.world.currentSubs.stdin.payloadOk = .ok closure →
      Pulls c.stdin (BufRead.request 8192 16384 c.buffer) chunk d →
      BufRead.answer 8192 16384 c.buffer chunk = (data, buffer) → data ≠ [] →
      ConsoleStep cap c []
        { world := { c.world with pc := .makeEvent (.listU8 closure data) }
          stdin := d
          buffer := buffer
          reads := record c.reads chunk
          meter := c.meter.eat chunk.length }
  | stdinEmpty {c : Console} {closure : RocErasedCallable} : c.world.pc = .readStdin fds →
      c.world.currentSubs.stdin.payloadOk = .ok closure →
      Pulls c.stdin (BufRead.request 8192 16384 c.buffer) chunk d →
      BufRead.answer 8192 16384 c.buffer chunk = ([], buffer) →
      ConsoleStep cap c []
        { world := { c.world with pc := .loop (resetRevents fds 0) }
          stdin := d
          buffer := buffer
          reads := record c.reads chunk
          meter := c.meter.eat chunk.length }
  | kernel {c : Console} : d.pending = c.stdin.pending ++ bytes →
      ConsoleStep cap c [] { c with stdin := d }

abbrev ConsoleRuns (cap : Nat) : List Obs → Console → Prop :=
  Run (ConsoleStep cap) Console.initial

inductive AfterPoll (w : World) (fds : List PollFd) (ret : Nat) : Pc → Prop
  | timesOut : ret = 0 → w.hasTimer = true → AfterPoll w fds ret .timerFire
  | tcp : ¬(ret = 0 ∧ w.hasTimer = true) → w.tcpReadable fds = true →
      AfterPoll w fds ret (.readByte fds)
  | stdin : ¬(ret = 0 ∧ w.hasTimer = true) → w.tcpReadable fds = false →
      w.stdinReadable fds = true → AfterPoll w fds ret (.readStdin fds)
  | again : ¬(ret = 0 ∧ w.hasTimer = true) → w.tcpReadable fds = false →
      w.stdinReadable fds = false → AfterPoll w fds ret (.loop fds)

theorem afterPoll_cases (w : World) (fds : List PollFd) (ret : Nat) :
    AfterPoll w fds ret (afterPoll w fds ret) := by
  by_cases htimer : ret = 0 ∧ w.hasTimer = true
  · rw [afterPoll, if_pos htimer]
    exact .timesOut htimer.1 htimer.2
  · rw [afterPoll, if_neg htimer]
    cases htcp : w.tcpReadable fds with
    | true => exact .tcp htimer htcp
    | false =>
      cases hstdin : w.stdinReadable fds with
      | true => exact .stdin htimer htcp hstdin
      | false => exact .again htimer htcp hstdin

theorem Goto.afterPoll {w : World} (hpc : w.pc = .poll fds timeoutMs)
    (hp : Polled w.net fds fds' ret) : Goto w (afterPoll w fds' ret) := by
  have hafter := afterPoll_cases w fds' ret
  generalize Stdin.afterPoll w fds' ret = pc at hafter ⊢
  cases hafter with
  | timesOut hret htimer => exact .pollTimesOut hpc (hret ▸ hp) htimer
  | tcp hno htcp => exact .pollTcp hpc hp hno htcp
  | stdin hno htcp hstdin => exact .pollStdin hpc hp hno htcp hstdin
  | again hno htcp hstdin => exact .pollAgain hpc hp hno htcp hstdin

theorem SysRead.length_le (h : SysRead d n chunk d') : chunk.length ≤ n := by
  cases h with
  | bytes _ _ hlen => exact hlen
  | eof | error => exact Nat.zero_le _

theorem Pulls.length_le (h : Pulls d request chunk d') :
    ∀ n, request = some n → chunk.length ≤ n := by
  rintro n rfl
  exact SysRead.length_le h

theorem ConsoleStep.world {c c' : Console} (h : ConsoleStep cap c es c') :
    Step cap c.world es c'.world ∨ es = [] ∧ c'.world = c.world := by
  cases h with
  | host hs => exact .inl hs
  | polled hpc hp => exact .inl (.goto (Goto.afterPoll hpc hp))
  | stdinRead hpc hclosure hpull hanswer hdata =>
    have hlen := BufRead.answer_length 8192 16384 hpull.length_le
    rw [hanswer] at hlen
    exact .inl (.goto (.stdinRead hpc hclosure (List.length_pos_of_ne_nil hdata) hlen))
  | stdinEmpty hpc hclosure => exact .inl (.goto (.stdinEmpty hpc hclosure))
  | kernel => exact .inr ⟨rfl, rfl⟩

theorem ConsoleRuns.runs {c : Console} (h : ConsoleRuns cap log c) : Runs cap log c.world :=
  h.project Console.world ConsoleStep.world

def passed (log : List Obs) : List (List UInt8) :=
  log.filterMap fun
    | .makeEvent (.listU8 _ data) _ => some data
    | _ => none

def inFlight : Pc → List (List UInt8)
  | .makeEvent (.listU8 _ data) => [data]
  | _ => []

theorem passed_append (log es : List Obs) : passed (log ++ es) = passed log ++ passed es :=
  List.filterMap_append

structure PassedOn (log : List Obs) (c : Console) : Prop where
  buffer : c.buffer = []
  reads : passed log ++ inFlight c.world.pc = c.reads

theorem inFlight_dispatch {w : World} (h : dispatch w.currentSubs ev = .ok (some call)) :
    inFlight (.makeEvent call) = [] := by
  obtain ⟨-, hnotice, -⟩ := dispatched h
  cases call with
  | listU8 closure data => simp [EventCall.notice] at hnotice
  | _ => rfl

theorem inFlight_afterPoll (w : World) (fds : List PollFd) (ret : Nat) :
    inFlight (afterPoll w fds ret) = [] := by
  have hafter := afterPoll_cases w fds ret
  generalize afterPoll w fds ret = pc at hafter ⊢
  cases hafter <;> rfl

theorem passed_host {w w' : World} (hs : Step cap w es w') (hoff : offStdin w.pc w'.pc)
    (hw : w.WellFormed) : passed es ++ inFlight w'.pc = inFlight w.pc := by
  cases hs with
  | goto hg =>
    cases hg with
    | stdinRead hpc => simp [offStdin, hpc] at hoff
    | misread hm => simp [hw.placed.reads_ok] at hm
    | _ hpc => simp [passed, inFlight, hpc]
  | eventMade hpc | makeEventCrashes hpc =>
    rename EventCall => call
    cases call <;> simp [passed, inFlight, hpc]
  | recvDispatched hpc _ _ hd =>
    simp only [inFlight_dispatch hd, hpc]
    rfl
  | noEvent hn => cases hn <;> simp [passed, inFlight, *]
  | thread =>
    have hnone : ∀ os : List NetObs, passed (os.map .net) = [] := by
      intro os
      simp [passed]
    rw [hnone, List.nil_append]
  | tick => rfl
  | _ hpc => simp [passed, inFlight, hpc]

theorem PassedOn.step {c c' : Console} (hw : c.world.WellFormed) (h : PassedOn past c)
    (hs : ConsoleStep cap c es c') : PassedOn (past ++ es) c' := by
  have hroom : (8192 : Nat) ≤ 16384 := by decide
  cases hs with
  | host hs hoff =>
    refine ⟨h.buffer, ?_⟩
    rw [passed_append, List.append_assoc]
    exact (congrArg (passed past ++ ·) (passed_host hs hoff hw)).trans h.reads
  | polled hpc =>
    refine ⟨h.buffer, ?_⟩
    have hreads := h.reads
    simp only [inFlight, hpc] at hreads
    simpa [inFlight_afterPoll] using hreads
  | stdinRead hpc hclosure hpull hanswer hdata =>
    have hreads := h.reads
    rw [h.buffer, BufRead.answer_direct hroom] at hanswer
    obtain ⟨rfl, rfl⟩ := Prod.mk.inj hanswer
    refine ⟨rfl, ?_⟩
    simp only [inFlight, hpc] at hreads
    simpa [inFlight, record, hdata] using hreads
  | stdinEmpty hpc hclosure hpull hanswer =>
    have hreads := h.reads
    rw [h.buffer, BufRead.answer_direct hroom] at hanswer
    obtain ⟨rfl, rfl⟩ := Prod.mk.inj hanswer
    refine ⟨rfl, ?_⟩
    simp only [inFlight, hpc] at hreads
    simpa [inFlight, record] using hreads
  | kernel => exact ⟨h.buffer, by simpa using h.reads⟩

theorem passedOn {c : Console} (h : ConsoleRuns cap log c) : PassedOn log c :=
  h.invariant_of (I := PassedOn) (fun hr => (ConsoleRuns.runs hr).wellFormed) ⟨rfl, rfl⟩
    fun hw hi hs => hi.step hw hs

/-- Whatever the app subscribes to and whenever bytes arrive, the calls get what the descriptor
gave, read by read, and no `poll` waits on bytes that std already holds. -/
theorem stdin_in_order {c : Console} (h : ConsoleRuns cap log c) :
    passed log ++ inFlight c.world.pc = c.reads ∧
    (passed log).flatten ++ (inFlight c.world.pc).flatten = c.reads.flatten ∧
    ∀ fds timeoutMs, c.world.pc = .poll fds timeoutMs →
      c.buffer = [] ∧ (passed log).flatten = c.reads.flatten := by
  have hpassed := passedOn h
  refine ⟨hpassed.reads, ?_, fun fds timeoutMs hpc => ⟨hpassed.buffer, ?_⟩⟩
  · rw [← hpassed.reads, List.flatten_append]
  · rw [← hpassed.reads, hpc]
    simp [inFlight]

def keysInit : InitForHost :=
  ⟨{ Subscriptions.none with stdin := .Ok (.readOnly 1) }, ⟨.null, []⟩, .readOnly 0⟩

def keysWorld : World := .inited ⟨80, 24⟩ keysInit World.initial.io.heap

def atKeys (pc : Pc) (d : Descriptor) (reads : List (List UInt8)) (m : Meter) : Console :=
  ⟨{ keysWorld with pc := pc }, d, [], reads, m⟩

theorem offStdin_calm (h : Calm cap w es w') : offStdin w.pc w'.pc := by
  cases hpc : w.pc with
  | poll fds timeoutMs => exact absurd hpc (h.poll fds timeoutMs)
  | readStdin fds => exact absurd hpc (h.read fds)
  | _ => trivial

def Local (P : Console → Console → Prop) : Prop :=
  ∀ c c', (∀ fds timeoutMs, c.world.pc ≠ .poll fds timeoutMs) →
    (∀ fds, c.world.pc ≠ .readStdin fds) → P c c'

abbrev RunsWith (cap : Nat) (P : Console → Console → Prop) : List Obs → Console → Prop :=
  Run (fun c es c' => ConsoleStep cap c es c' ∧ P c c') Console.initial

theorem keys_loop {P : Console → Console → Prop} (hP : Local P) :
    ∃ log, RunsWith cap P log
      (atKeys (.loop [⟨.stdin, .none⟩]) ⟨[], .none, false⟩ [] .fresh) := by
  have waiting : CalmReached cap { keysWorld with pc := .wait } :=
    CalmReached.waiting rfl rfl ⟨80, 24⟩ rfl
  obtain ⟨log, hcalm⟩ := waiting
  have hlift : ∃ c, RunsWith cap P log c ∧
      ∃ m, c = (⟨{ keysWorld with pc := .wait }, ⟨[], .none, false⟩, [], [], m⟩ : Console) :=
    hcalm.lift (fun w c => ∃ m, c = (⟨w, ⟨[], .none, false⟩, [], [], m⟩ : Console))
      ⟨.fresh, rfl⟩ fun hrel hs => by
        obtain ⟨m, rfl⟩ := hrel
        exact ⟨_, ⟨.host hs.step (offStdin_calm hs), hP _ _ hs.poll hs.read⟩, _, rfl⟩
  obtain ⟨_, hrun, m, rfl⟩ := hlift
  have hbegin : Step cap { keysWorld with pc := .wait } []
      { keysWorld with pc := .loop [⟨.stdin, .none⟩] } := .goto (.waitBegins rfl rfl)
  exact ⟨_, hrun.snoc ⟨.host hbegin trivial, hP _ _ (by simp) (by simp)⟩⟩

theorem keys_pending (fds : List PollFd) :
    ConsoleStep cap (atKeys (.loop fds) d reads m) [] (atKeys (.timeout fds) d reads m) :=
  .host (.goto (.timerPending rfl rfl)) trivial

theorem keys_poll {d : Descriptor} (hd : d.revents.pollin = true) :
    ConsoleStep cap (atKeys (.timeout [⟨.stdin, r⟩]) d reads m) []
      (atKeys (.poll [⟨.stdin, r⟩] (-1)) d reads (m.poll true)) := by
  have hready : (atKeys (.timeout [⟨.stdin, r⟩]) d reads m).ready (-1) = true := by
    have hstdin : (d.revents != .none) = true := by
      refine bne_iff_ne.mpr fun hnone => ?_
      simp [hnone, Revents.none] at hd
    have hhas : (atKeys (.timeout [⟨.stdin, r⟩]) d reads m).world.hasStdin = true := rfl
    simp only [Console.ready, hhas, Bool.true_and, Bool.or_eq_true]
    exact .inl (.inr hstdin)
  have hs : Step cap (atKeys (.timeout [⟨.stdin, r⟩]) d reads m).world []
      { keysWorld with pc := .poll [⟨.stdin, r⟩] (-1) } := .goto (.timeout rfl rfl)
  rw [← hready]
  exact .host hs trivial

theorem keys_polled {d : Descriptor} (hd : d.revents.pollin = true) :
    ConsoleStep cap (atKeys (.poll [⟨.stdin, r⟩] (-1)) d reads m) []
      (atKeys (.readStdin [⟨.stdin, d.revents⟩]) d reads m) := by
  have hafter : afterPoll { keysWorld with pc := .poll [⟨.stdin, r⟩] (-1) }
      [⟨.stdin, d.revents⟩] 1 = .readStdin [⟨.stdin, d.revents⟩] := by
    have hreadable : World.stdinReadable { keysWorld with pc := .poll [⟨.stdin, r⟩] (-1) }
        [⟨.stdin, d.revents⟩] = true := by
      have hhas : World.hasStdin { keysWorld with pc := .poll [⟨.stdin, r⟩] (-1) } = true := rfl
      simp only [World.stdinReadable, hhas, Bool.true_and]
      exact hd
    have hsilent : World.tcpReadable { keysWorld with pc := .poll [⟨.stdin, r⟩] (-1) }
        [⟨.stdin, d.revents⟩] = false := rfl
    simp only [afterPoll, hreadable, hsilent, Nat.one_ne_zero, false_and, if_false, if_true,
      Bool.false_eq_true]
  have hp : Polled keysWorld.net [⟨.stdin, r⟩] [⟨.stdin, d.revents⟩] 1 :=
    ⟨rfl, by simp [hd], by simp⟩
  rw [← hafter]
  exact .polled (c := atKeys _ d reads m) rfl hp (by simp [atKeys]) (by simp) (by simp)

theorem keys_read {bytes : List UInt8} (hne : bytes ≠ []) (hlen : bytes.length ≤ 16384)
    (fds : List PollFd) :
    ConsoleStep cap (atKeys (.readStdin fds) ⟨bytes, idle, failing⟩ reads m) []
      (atKeys (.makeEvent (.listU8 (.readOnly 1) bytes)) ⟨[], idle, failing⟩ (reads ++ [bytes])
        (m.eat bytes.length)) := by
  have hsys : SysRead ⟨bytes, idle, failing⟩ 16384 bytes ⟨[], idle, failing⟩ :=
    .bytes (by simp) hne hlen
  have hrecord : record reads bytes = reads ++ [bytes] := if_neg hne
  rw [← hrecord]
  exact .stdinRead (c := atKeys _ _ reads m) rfl rfl hsys rfl hne

theorem keys_typed {P : Console → Console → Prop} (hP : Local P)
    (hbytes : ∀ c c', c.stdin.pending ≠ [] → c.stdin.failing = false → P c c')
    {bytes : List UInt8} (hne : bytes ≠ []) (hlen : bytes.length ≤ 16384) :
    ∃ log d m, RunsWith cap P log
      (atKeys (.makeEvent (.listU8 (.readOnly 1) bytes)) d [bytes] m) := by
  have hloop : ∃ log, RunsWith cap P log
      (atKeys (.loop [⟨.stdin, .none⟩]) ⟨[], .none, false⟩ [] .fresh) := keys_loop hP
  obtain ⟨log, hloop⟩ := hloop
  have hd : (⟨bytes, .none, false⟩ : Descriptor).revents.pollin = true := by
    simp [Descriptor.revents, hne]
  have arrived := hloop.snoc_silent
    (t := atKeys (.loop [⟨.stdin, .none⟩]) ⟨bytes, .none, false⟩ [] .fresh)
    ⟨.kernel rfl, hP _ _ (by simp [atKeys]) (by simp [atKeys])⟩
  have pending := arrived.snoc_silent ⟨keys_pending _, hbytes _ _ hne rfl⟩
  have polling := pending.snoc_silent ⟨keys_poll hd, hbytes _ _ hne rfl⟩
  have polled := polling.snoc_silent ⟨keys_polled hd, hbytes _ _ hne rfl⟩
  have read := polled.snoc_silent ⟨keys_read hne hlen _, hbytes _ _ hne rfl⟩
  exact ⟨log, _, _, read⟩

theorem keys_typed_run {bytes : List UInt8} (hne : bytes ≠ []) (hlen : bytes.length ≤ 16384) :
    ∃ log d m, ConsoleRuns cap log
      (atKeys (.makeEvent (.listU8 (.readOnly 1) bytes)) d [bytes] m) := by
  have htyped : ∃ log d m, RunsWith cap (fun _ _ => True) log
      (atKeys (.makeEvent (.listU8 (.readOnly 1) bytes)) d [bytes] m) :=
    keys_typed (fun _ _ _ _ => trivial) (fun _ _ _ _ => trivial) hne hlen
  obtain ⟨log, d, m, hrun⟩ := htyped
  exact ⟨log, d, m, hrun.mono And.left⟩

theorem stdin_in_order_typed : ∃ log c, ConsoleRuns 65536 log c ∧ c.reads = [[104, 105]] ∧
    passed log ++ inFlight c.world.pc = c.reads := by
  have hread : ∃ log d m, ConsoleRuns 65536 log
      (atKeys (.makeEvent (.listU8 (.readOnly 1) [104, 105])) d [[104, 105]] m) :=
    keys_typed_run (by simp) (by simp)
  obtain ⟨log, d, m, hrun⟩ := hread
  exact ⟨log, _, hrun, rfl, (stdin_in_order hrun).1⟩

end RocTui.Stdin
