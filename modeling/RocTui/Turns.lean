import RocTui.Stdin

namespace RocTui.Turns

open RocTui.Lib RocTui.Abi RocTui.Tcp RocTui.Dispatch RocTui.Effects RocTui.Host RocTui.Stdin

/-- Where a turn of the loop could come to nothing: without sleeping, `poll` returns to no
notification byte and to a descriptor hung up without `POLLIN`, or the read of stdin takes
nothing.  `Fed` runs have no such turn. -/
structure Fed (c c' : Console) : Prop where
  poll : ∀ fds timeoutMs, c.world.pc = .poll fds timeoutMs → c'.world.pc ≠ c.world.pc →
    c.meter.slept = false → c.world.hasStdin = true → c.world.net.pipe = 0 →
    c.stdin.pending = [] → c.stdin.idle.pollin = false → c.stdin.idle = .none
  read : ∀ fds, c.world.pc = .readStdin fds → c'.world.pc ≠ c.world.pc →
    c.meter.slept = false → c.stdin.pending ≠ [] ∧ c.stdin.failing = false

def Patient (c : Console) : Prop :=
  match c.world.pc with
  | .poll _ timeoutMs => c.world.hasTimer = false → timeoutMs = -1
  | _ => True

theorem Patient.step {c c' : Console} (h : Patient c) (hs : ConsoleStep cap c es c') :
    Patient c' := by
  cases hs with
  | host hs hoff =>
    cases hs with
    | goto hg =>
      cases hg with
      | timeout hpc hms =>
        intro hno
        change c.world.hasTimer = false at hno
        simp only [World.timeoutMs, hno, Bool.false_eq_true, if_false, pure, Except.pure] at hms
        exact (Except.ok.inj hms).symm
      | _ => trivial
    | thread | tick =>
      cases hpc : c.world.pc with
      | poll fds timeoutMs =>
        simp only [Patient, hpc] at h
        simp only [Patient, Console.next, hpc]
        exact h
      | _ => simp only [Patient, Console.next, hpc]
    | _ => trivial
  | polled hpc =>
    rename_i fds' ret _ _ _ _
    have hafter := afterPoll_cases c.world fds' ret
    generalize afterPoll c.world fds' ret = pc at hafter ⊢
    cases hafter <;> trivial
  | stdinRead | stdinEmpty => trivial
  | kernel => exact h

theorem watched {w : World} (hw : w.WellFormed) (hpc : w.pc = .poll fds timeoutMs)
    (hp : Polled w.net fds fds' ret) : fds'.map PollFd.fd = w.pollFds.map PollFd.fd := by
  have hfds := hw.watching
  simp only [World.Watching, hpc] at hfds
  exact hp.fds.trans hfds

theorem pipe_eq_zero {w : World} (hw : w.WellFormed) (hpc : w.pc = .poll fds timeoutMs)
    (hp : Polled w.net fds fds' ret) (htcp : w.tcpReadable fds' = false) : w.net.pipe = 0 := by
  cases has : w.hasTcp with
  | false =>
    rcases hw.attached has with hidle | hconnecting
    · rw [hidle]
      rfl
    · simp [hpc, Pc.connecting] at hconnecting
  | true =>
    refine Nat.eq_zero_of_not_pos fun hpos => ?_
    have hread := (hp.reports (hp.fds.symm.trans (watched hw hpc hp)) has hpos).1
    simp [htcp] at hread

theorem revents_pollin {d : Descriptor} (h : d.revents.pollin = false) :
    d.pending = [] ∧ d.revents = d.idle := by
  by_cases hpending : d.pending = []
  · exact ⟨hpending, if_pos hpending⟩
  · simp [Descriptor.revents, hpending] at h

theorem silent_poll {w : World} {d : Descriptor} (hw : w.WellFormed)
    (hpc : w.pc = .poll fds timeoutMs) (hp : Polled w.net fds fds' ret)
    (hstdin : ∀ f ∈ fds', f.fd = .stdin → f.revents = d.revents)
    (hother : ∀ f ∈ fds', f.fd = .notifyRx → f.revents.other = false)
    (htcp : w.tcpReadable fds' = false) (hread : w.stdinReadable fds' = false)
    (hidle : w.hasStdin = true → w.net.pipe = 0 → d.pending = [] → d.idle.pollin = false →
      d.idle = .none) :
    ret = 0 := by
  have hwatch := watched hw hpc hp
  have hpipe := pipe_eq_zero hw hpc hp htcp
  have hquiet : w.hasStdin = true → d.revents = .none := by
    intro has
    have hhead : (fds'.map PollFd.fd)[0]? = some .stdin := by simp [hwatch, World.pollFds, has]
    obtain ⟨f, hf, hfd⟩ := Option.map_eq_some_iff.mp (List.getElem?_map ▸ hhead)
    have hrevents := hstdin f (List.mem_of_getElem? hf) hfd
    have hpollin : d.revents.pollin = false := by
      simpa [World.stdinReadable, has, hf, hrevents] using hread
    obtain ⟨hpending, heq⟩ := revents_pollin hpollin
    rw [heq, hidle has hpipe hpending (heq ▸ hpollin)]
  have hunread : ∀ f ∈ fds', f.revents.pollin = false ∧ f.revents.other = false := by
    intro f hf
    have hmem : f.fd ∈ w.pollFds.map PollFd.fd := hwatch ▸ List.mem_map_of_mem hf
    cases hfd : f.fd with
    | stdin =>
      have has : w.hasStdin = true := by
        cases has : w.hasStdin with
        | true => rfl
        | false => simp [hfd, World.pollFds, has] at hmem
      rw [hstdin f hf hfd, hquiet has]
      exact ⟨rfl, rfl⟩
    | notifyRx =>
      refine ⟨?_, hother f hf hfd⟩
      cases hpollin : f.revents.pollin with
      | false => rfl
      | true => exact absurd ((hp.notify f hf hfd).mp hpollin) (by omega)
  rw [hp.ready, List.length_eq_zero_iff, List.filter_eq_nil_iff]
  intro f hf
  simp [hunread f hf]

/-- The polls of a call that did not sleep are paid for by the bytes consumed in it, but for the
one the present turn began with. -/
def Paid (c : Console) : Prop :=
  match c.world.pc with
  | .loop _ => (c.meter.slept = true ∨ 0 < c.meter.ate) ∧ c.meter.awake ≤ c.meter.eaten
  | .timeout _ => c.meter.awake ≤ c.meter.eaten
  | .poll _ _ | .readByte _ | .readStdin _ =>
    c.meter.awake ≤ c.meter.eaten + (!c.meter.slept).toNat
  | .tryRecv _ => 0 < c.meter.ate ∧ c.meter.awake ≤ c.meter.eaten
  | _ => c.meter.awake ≤ c.meter.eaten + 1

theorem Paid.bound {c : Console} (h : Paid c) : c.meter.awake ≤ c.meter.eaten + 1 := by
  have hbool := Bool.toNat_le (!c.meter.slept)
  cases hpc : c.world.pc <;> simp only [Paid, hpc] at h <;> omega

theorem Paid.host {c : Console} {w : World} (hw : c.world.WellFormed) (h : Paid c)
    (hs : Step cap c.world es w) (hoff : offStdin c.world.pc w.pc) : Paid (c.next w) := by
  have hbound := h.bound
  cases hs with
  | goto hg =>
    cases hg with
    | waitBegins hpc =>
      simp only [Console.next, hpc]
      exact ⟨.inl rfl, le_rfl⟩
    | timerPending hpc =>
      simp only [Paid, hpc] at h
      simp only [Console.next, hpc]
      exact h.2
    | timeout hpc =>
      simp only [Paid, hpc] at h
      simp only [Console.next, hpc, Paid, Meter.poll, Bool.not_not]
      omega
    | recvEmpty hpc =>
      simp only [Paid, hpc] at h
      simp only [Console.next, hpc]
      exact ⟨.inr h.1, h.2⟩
    | pollTimesOut hpc | pollTcp hpc | pollStdin hpc | pollAgain hpc | stdinRead hpc
    | stdinEmpty hpc => simp [offStdin, hpc] at hoff
    | misread hm => simp [hw.placed.reads_ok] at hm
    | _ hpc =>
      simp only [Console.next, hpc]
      exact hbound
  | byteRead hpc =>
    simp only [Paid, hpc] at h
    have hbool := Bool.toNat_le (!c.meter.slept)
    simp only [Console.next, hpc, Paid, Meter.eat]
    omega
  | recvDiscarded hpc =>
    simp only [Paid, hpc] at h
    simp only [Console.next, hpc]
    exact ⟨.inr h.1, h.2⟩
  | thread | tick =>
    cases hpc : c.world.pc <;> simp only [Paid, Console.next, hpc] at h ⊢ <;> exact h
  | noEvent hn =>
    cases hn with
    | nothingActive hpc | pollFailed hpc | timerErr hpc =>
      simp only [Console.next, hpc]
      exact hbound
  | _ hpc =>
    simp only [Console.next, hpc]
    exact hbound

theorem read_nothing {c : Console} (hbuffer : c.buffer = [])
    (hpull : Pulls c.stdin (BufRead.request 8192 16384 c.buffer) chunk d)
    (hanswer : BufRead.answer 8192 16384 c.buffer chunk = ([], buffer)) :
    chunk = [] ∧ (c.stdin.pending = [] ∨ c.stdin.failing = true) := by
  have hroom : (8192 : Nat) ≤ 16384 := by decide
  rw [hbuffer, BufRead.request_direct hroom] at hpull
  rw [hbuffer, BufRead.answer_direct hroom] at hanswer
  obtain ⟨rfl, -⟩ := Prod.mk.inj hanswer
  refine ⟨rfl, ?_⟩
  cases hpull with
  | bytes _ hne => exact absurd rfl hne
  | eof hpending => exact .inl hpending
  | error hfailing => exact .inr hfailing

theorem Paid.step {c c' : Console} (hw : c.world.WellFormed) (hbuffer : c.buffer = [])
    (hpatient : Patient c) (h : Paid c) (hs : ConsoleStep cap c es c') (hfed : Fed c c') :
    Paid c' := by
  have hbound := h.bound
  cases hs with
  | host hs hoff => exact h.host hw hs hoff
  | polled hpc hp hstdin hother hforever =>
    rename_i fds timeoutMs fds' ret
    simp only [Paid, hpc] at h
    have hafter := afterPoll_cases c.world fds' ret
    generalize afterPoll c.world fds' ret = pc at hafter hfed ⊢
    cases hafter with
    | timesOut => exact hbound
    | tcp => exact h
    | stdin => exact h
    | again hno htcp hread =>
      cases hslept : c.meter.slept with
      | true =>
        rw [hslept] at h
        exact ⟨.inl hslept, h⟩
      | false =>
        have hidle := hfed.poll fds timeoutMs hpc (by simp [hpc]) hslept
        have hret := silent_poll hw hpc hp hstdin hother htcp hread hidle
        have hno : c.world.hasTimer = false := by simpa [hret] using hno
        simp only [Patient, hpc] at hpatient
        have hms := hpatient hno
        have hge := hforever hret
        omega
  | stdinRead =>
    simp only [Paid, Meter.eat]
    omega
  | stdinEmpty hpc hclosure hpull hanswer =>
    obtain ⟨rfl, hnothing⟩ := read_nothing hbuffer hpull hanswer
    simp only [Paid, hpc] at h
    cases hslept : c.meter.slept with
    | true =>
      rw [hslept] at h
      exact ⟨.inl hslept, h⟩
    | false =>
      have hgot := hfed.read _ hpc (by simp [hpc]) hslept
      rcases hnothing with hpending | hfailing
      · exact absurd hpending hgot.1
      · simp [hgot.2] at hfailing
  | kernel => exact h

/-- Every turn of the loop that goes round again slept or consumed a byte, as long as no turn is
left without anything to consume; the polls that do not sleep are then at most one more than the
bytes. -/
theorem turns_progress {c : Console} (h : RunsWith cap Fed log c) :
    (∀ fds, c.world.pc = .loop fds → c.meter.slept = true ∨ 0 < c.meter.ate) ∧
      c.meter.awake ≤ c.meter.eaten + 1 := by
  have hpaid : Paid c := by
    refine h.invariant_of (I := fun _ c => Paid c)
      (J := fun log c => c.world.WellFormed ∧ c.buffer = [] ∧ Patient c) ?_
      (Nat.zero_le _) fun hj hi hs => hi.step hj.1 hj.2.1 hj.2.2 hs.1 hs.2
    intro past s hr
    have hconsole : ConsoleRuns cap past s := hr.mono fun hs => hs.1
    refine ⟨(ConsoleRuns.runs hconsole).wellFormed, (passedOn hconsole).buffer, ?_⟩
    exact hconsole.invariant (I := fun _ c => Patient c) (by trivial) fun hi hs => hi.step hs
  refine ⟨fun fds hpc => ?_, hpaid.bound⟩
  simp only [Paid, hpc] at hpaid
  exact hpaid.1

theorem turns_progress_typed : ∃ log c, RunsWith 65536 Fed log c ∧ c.reads = [[104, 105]] ∧
    c.meter.awake ≤ c.meter.eaten + 1 := by
  have hlocal : Local Fed := fun c c' hpoll hread =>
    ⟨fun fds timeoutMs hpc => absurd hpc (hpoll fds timeoutMs),
      fun fds hpc => absurd hpc (hread fds)⟩
  have htyped : ∃ log d m, RunsWith 65536 Fed log
      (atKeys (.makeEvent (.listU8 (.readOnly 1) [104, 105])) d [[104, 105]] m) :=
    keys_typed hlocal (fun _ _ hpending hfailing =>
      ⟨fun _ _ _ _ _ _ _ hnone => absurd hnone hpending, fun _ _ _ _ => ⟨hpending, hfailing⟩⟩)
      (by simp) (by simp)
  obtain ⟨log, d, m, hrun⟩ := htyped
  exact ⟨log, _, hrun, rfl, (turns_progress hrun).2⟩

def atEnd : Descriptor := ⟨[], ⟨true, false⟩, false⟩

theorem turn_at_end (h : ConsoleRuns cap log (atKeys (.loop [⟨.stdin, r⟩]) atEnd [] m)) :
    ConsoleRuns cap log (atKeys (.loop [⟨.stdin, .none⟩]) atEnd [] ((m.poll true).eat 0)) := by
  have hd : atEnd.revents.pollin = true := rfl
  have reading := ((h.snoc_silent (keys_pending _)).snoc_silent (keys_poll hd)).snoc_silent
    (keys_polled hd)
  have hsys : SysRead atEnd 16384 [] atEnd := .eof rfl (by decide)
  have hs : ConsoleStep cap (atKeys (.readStdin [⟨.stdin, atEnd.revents⟩]) atEnd [] (m.poll true))
      [] (atKeys (.loop [⟨.stdin, .none⟩]) atEnd [] ((m.poll true).eat 0)) :=
    .stdinEmpty (c := atKeys _ atEnd [] (m.poll true)) rfl rfl hsys rfl
  exact reading.snoc_silent hs

theorem turns_at_end (n : Nat) : ∃ log m, ConsoleRuns cap log
    (atKeys (.loop [⟨.stdin, .none⟩]) atEnd [] m) ∧ m.awake = n ∧ m.eaten = 0 ∧ m.ate = 0 ∧
      m.slept = decide (n = 0) := by
  induction n with
  | zero =>
    have hloop : ∃ log, RunsWith cap (fun _ _ => True) log
        (atKeys (.loop [⟨.stdin, .none⟩]) ⟨[], .none, false⟩ [] .fresh) :=
      keys_loop fun _ _ _ _ => trivial
    obtain ⟨log, hloop⟩ := hloop
    have ended : ConsoleRuns cap log (atKeys (.loop [⟨.stdin, .none⟩]) atEnd [] .fresh) :=
      (hloop.mono And.left).snoc_silent (.kernel (List.append_nil []).symm)
    exact ⟨log, .fresh, ended, rfl, rfl, rfl, rfl⟩
  | succ n ih =>
    obtain ⟨log, m, hrun, hawake, heaten, -, -⟩ := ih
    refine ⟨log, _, turn_at_end hrun, ?_, heaten, rfl, rfl⟩
    simp [Meter.eat, Meter.poll, hawake]

/-- At the end of its input the loop polls without sleeping, and consumes nothing, for ever. -/
theorem spins_at_end :
    (∃ log c, ConsoleRuns 65536 log c ∧ c.world.pc = .loop [⟨.stdin, .none⟩] ∧
      ¬(c.meter.slept = true ∨ 0 < c.meter.ate)) ∧
    ¬∃ bound, ∀ log c, ConsoleRuns 65536 log c → c.meter.eaten = 0 → c.meter.awake ≤ bound := by
  constructor
  · have hturn : ∃ log m, ConsoleRuns 65536 log (atKeys (.loop [⟨.stdin, .none⟩]) atEnd [] m) ∧
        m.awake = 1 ∧ m.eaten = 0 ∧ m.ate = 0 ∧ m.slept = decide (1 = 0) := turns_at_end 1
    obtain ⟨log, m, hrun, -, -, hate, hslept⟩ := hturn
    exact ⟨log, _, hrun, rfl, by simp [atKeys, hate, hslept]⟩
  · rintro ⟨bound, hbound⟩
    have hturns : ∃ log m, ConsoleRuns 65536 log (atKeys (.loop [⟨.stdin, .none⟩]) atEnd [] m) ∧
        m.awake = bound + 1 ∧ m.eaten = 0 ∧ m.ate = 0 ∧ m.slept = decide (bound + 1 = 0) :=
      turns_at_end (bound + 1)
    obtain ⟨log, m, hrun, hawake, heaten, -, -⟩ := hturns
    have hle := hbound log _ hrun heaten
    simp only [atKeys, hawake] at hle
    omega

end RocTui.Turns
