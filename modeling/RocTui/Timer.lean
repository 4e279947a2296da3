import RocTui.Rounds
import RocTui.Places

namespace RocTui.Timer

open RocTui.Lib RocTui.Abi RocTui.Tcp RocTui.Dispatch RocTui.Effects RocTui.Host

/-- A process with what the clock read when `wait_for_next_event` was entered and when `poll`
was last called. -/
structure Timed where
  world : World
  entered : Nat
  polled : Nat

def Timed.initial : Timed := ⟨World.initial, 0, 0⟩

def Timed.next (t : Timed) (w : World) : Timed where
  world := w
  entered := match t.world.pc with
    | .wait => t.world.nowNanos
    | _ => t.entered
  polled := match t.world.pc with
    | .timeout _ => t.world.nowNanos
    | _ => t.polled

inductive TimedStep (cap : Nat) (allowed : Timed → World → Prop) :
    Timed → List Obs → Timed → Prop
  | mk : Step cap t.world es w → allowed t w → TimedStep cap allowed t es (t.next w)

abbrev TimedRuns (cap : Nat) (allowed : Timed → World → Prop) : List Obs → Timed → Prop :=
  Run (TimedStep cap allowed) Timed.initial

/-- The readings never go back, and `poll` returns 0 only after its full timeout. -/
structure Monotone (t : Timed) (w : World) : Prop where
  now : t.world.nowNanos ≤ w.nowNanos
  timesOut : ∀ fds timeoutMs, t.world.pc = .poll fds timeoutMs → w.pc = .timerFire →
    t.polled + timeoutMs.toNat * 1000000 ≤ t.world.nowNanos

def waiting : Pc → Bool
  | .loop _ | .timeout _ | .poll _ _ | .timerFire | .readByte _ | .tryRecv _ | .readStdin _ => true
  | _ => false

/-- Inside `wait_for_next_event` time passes only in `poll`, and no longer than its timeout. -/
def OnlyInPoll (t : Timed) (w : World) : Prop :=
  waiting t.world.pc = true → w.nowNanos = t.world.nowNanos ∨
    ∃ fds timeoutMs, t.world.pc = .poll fds timeoutMs ∧ t.world.nowNanos ≤ w.nowNanos ∧
      (0 ≤ timeoutMs → w.nowNanos ≤ t.polled + timeoutMs.toNat * 1000000)

def pendingMs (fireAt now : Nat) : Nat := min ((fireAt - now) / 1000000) (2 ^ 31 - 1)

theorem timerFired_eq {w : World} {p : SubscriptionsTimerOk} (hp : w.currentSubs.timer = .Ok p) :
    w.timerFired = .ok (decide (p.fireAt ≤ w.nowNanos)) := by
  simp [World.timerFired, World.hasTimer, hp, bind, Except.bind, pure, Except.pure]

theorem timeoutMs_due {w : World} {p : SubscriptionsTimerOk} (hp : w.currentSubs.timer = .Ok p)
    (hdue : p.fireAt ≤ w.nowNanos) : w.timeoutMs = .ok 0 := by
  simp [World.timeoutMs, World.hasTimer, hp, hdue, bind, Except.bind, pure, Except.pure]

theorem timeoutMs_pending {w : World} {p : SubscriptionsTimerOk}
    (hp : w.currentSubs.timer = .Ok p) (hpending : w.nowNanos < p.fireAt) :
    w.timeoutMs = .ok (pendingMs p.fireAt w.nowNanos) := by
  have hdue : ¬p.fireAt ≤ w.nowNanos := by omega
  simp [World.timeoutMs, World.hasTimer, hp, hdue, pendingMs, bind, Except.bind, pure,
    Except.pure]

theorem exists_timer {w : World} (h : w.hasTimer = true) :
    ∃ p, w.currentSubs.timer = .Ok p := isOk_of_tag h

def Polling (t : Timed) : Prop :=
  match t.world.pc with
  | .poll _ timeoutMs => ∀ p, t.world.currentSubs.timer = .Ok p →
      (p.fireAt ≤ t.polled ∧ timeoutMs = 0) ∨
      (t.polled < p.fireAt ∧ timeoutMs = pendingMs p.fireAt t.polled)
  | _ => True

theorem Polling.step (h : Polling t) (hs : TimedStep cap allowed t es t') : Polling t' := by
  obtain ⟨hs, -⟩ := hs
  cases hs with
  | goto hg =>
    cases hg with
    | timeout hpc hms =>
      simp only [Polling, Timed.next, hpc]
      intro p hp
      rcases Nat.lt_or_ge t.world.nowNanos p.fireAt with hpending | hdue
      · rw [timeoutMs_pending hp hpending] at hms
        exact .inr ⟨hpending, (Except.ok.inj hms).symm⟩
      · rw [timeoutMs_due hp hdue] at hms
        exact .inl ⟨hdue, (Except.ok.inj hms).symm⟩
    | _ => trivial
  | thread | tick =>
    cases hpc : t.world.pc with
    | poll fds timeoutMs =>
      simp only [Polling, Timed.next, hpc] at h ⊢
      exact h
    | _ => simp only [Polling, Timed.next, hpc]
  | _ => trivial

theorem polling (h : TimedRuns cap allowed log t) : Polling t :=
  h.invariant (I := fun _ t => Polling t) (by trivial) fun hi hs => hi.step hs

/-- `poll` times out only where the time left was a whole number of milliseconds, and no more of
them than an `i32` holds. -/
def WholeMillis (t : Timed) (w : World) : Prop :=
  ∀ fds timeoutMs p, t.world.pc = .poll fds timeoutMs → w.pc = .timerFire →
    t.world.currentSubs.timer = .Ok p → t.polled < p.fireAt →
    (p.fireAt - t.polled) % 1000000 = 0 ∧ (p.fireAt - t.polled) / 1000000 ≤ 2 ^ 31 - 1

theorem pendingMs_reaches_iff {fireAt now : Nat} (h : now < fireAt) :
    fireAt ≤ now + pendingMs fireAt now * 1000000 ↔
      (fireAt - now) % 1000000 = 0 ∧ (fireAt - now) / 1000000 ≤ 2 ^ 31 - 1 := by
  simp only [pendingMs]
  omega

def Due (t : Timed) : Prop :=
  match t.world.pc with
  | .timerFire => ∃ p, t.world.currentSubs.timer = .Ok p ∧ p.fireAt ≤ t.world.nowNanos
  | .update event => event.source = .timer →
      ∃ p, t.world.currentSubs.timer = .Ok p ∧ p.fireAt ≤ t.world.nowNanos
  | _ => True

theorem Due.step (hpoll : Polling t) (h : Due t)
    (hs : TimedStep cap (fun t w => Monotone t w ∧ WholeMillis t w) t es t') : Due t' := by
  obtain ⟨hs, hmono, hwhole⟩ := hs
  cases hs with
  | goto hg =>
    cases hg with
    | timerFired hpc hfired =>
      simp only [Due, Timed.next]
      cases ht : t.world.hasTimer with
      | false => simp [World.timerFired, ht, pure, Except.pure] at hfired
      | true =>
        obtain ⟨p, hp⟩ := exists_timer ht
        rw [timerFired_eq hp] at hfired
        exact ⟨p, hp, of_decide_eq_true (Except.ok.inj hfired)⟩
    | pollTimesOut hpc _ ht =>
      obtain ⟨p, hp⟩ := exists_timer ht
      refine ⟨p, hp, ?_⟩
      have helapsed := hmono.timesOut _ _ hpc rfl
      simp only [Polling, hpc] at hpoll
      rcases hpoll p hp with ⟨hdue, rfl⟩ | ⟨hpending, rfl⟩
      · exact hdue.trans (by simpa [Timed.next, World.nowNanos] using helapsed)
      · have hreach := (pendingMs_reaches_iff hpending).mpr (hwhole _ _ p hpc rfl hp hpending)
        exact hreach.trans (by simpa [Timed.next, World.nowNanos] using helapsed)
    | _ => trivial
  | timerEvent hpc hbox =>
    simp only [Due, hpc] at h
    exact fun _ => h
  | eventMade hpc => exact fun hsource => absurd hsource (by simp)
  | thread | tick =>
    have hnow := hmono.now
    cases hpc : t.world.pc with
    | timerFire =>
      simp only [Due, Timed.next, hpc] at h ⊢
      obtain ⟨p, hp, hdue⟩ := h
      exact ⟨p, hp, hdue.trans hnow⟩
    | update event =>
      simp only [Due, Timed.next, hpc] at h ⊢
      intro hsource
      obtain ⟨p, hp, hdue⟩ := h hsource
      exact ⟨p, hp, hdue.trans hnow⟩
    | _ => simp only [Due, Timed.next, hpc]
  | _ => trivial

/-- A timer event is returned at or after its `fire_at`, and so is the time its update gets. -/
def NotEarly (t : Timed) : Obs → Prop
  | .event event => event.source = .timer →
      ∃ p, t.world.currentSubs.timer = .Ok p ∧ event.box = p.onFire ∧
        p.fireAt ≤ t.world.nowNanos
  | .rocUpdate ctx _ event _ => event.source = .timer →
      ∃ p, t.world.currentSubs.timer = .Ok p ∧ p.fireAt ≤ ctx.nowNanos
  | _ => True

theorem Due.notEarly (h : Due t) (hs : TimedStep cap allowed t es t') :
    ∀ o ∈ es, NotEarly t o := by
  obtain ⟨hs, -⟩ := hs
  cases hs with
  | timerEvent hpc hbox =>
    simp only [Due, hpc] at h
    obtain ⟨p, hp, hdue⟩ := h
    rw [timerFireEvent_ok hp] at hbox
    simp only [List.mem_singleton, forall_eq]
    exact fun _ => ⟨p, hp, (Option.some.inj (Except.ok.inj hbox)).symm, hdue⟩
  | updateReturns hpc | updateCrashes hpc =>
    simp only [Due, hpc] at h
    simp only [List.mem_singleton, forall_eq]
    exact h
  | thread =>
    intro o ho
    obtain ⟨n, -, rfl⟩ := List.mem_map.mp ho
    trivial
  | _ => simp [NotEarly]

/-- The timer does not fire early while `poll` times out on whole milliseconds only, and whole
milliseconds are what it takes for a timeout to reach up to `fire_at`. -/
theorem timer_not_early (cap : Nat) :
    (∀ log t es t',
      TimedRuns cap (fun t w => Monotone t w ∧ WholeMillis t w) log t →
      TimedStep cap (fun t w => Monotone t w ∧ WholeMillis t w) t es t' →
      ∀ o ∈ es, NotEarly t o) ∧
    ∀ (w : World) (p : SubscriptionsTimerOk), w.currentSubs.timer = .Ok p →
      w.nowNanos < p.fireAt → ∃ ms : Nat, w.timeoutMs = .ok ms ∧
        (p.fireAt ≤ w.nowNanos + ms * 1000000 ↔
          (p.fireAt - w.nowNanos) % 1000000 = 0 ∧
          (p.fireAt - w.nowNanos) / 1000000 ≤ 2 ^ 31 - 1) := by
  refine ⟨fun log t es t' hrun hs => ?_, fun w p hp hpending => ?_⟩
  · have hdue : Due t := hrun.invariant_of (I := fun _ t => Due t) polling trivial
      fun hpoll hi hs => hi.step hpoll hs
    exact hdue.notEarly hs
  · exact ⟨_, timeoutMs_pending hp hpending, pendingMs_reaches_iff hpending⟩

/-- Clock disciplines that let every step pass in which no time passes outside `poll`. -/
def Lenient (allowed : Timed → World → Prop) : Prop :=
  ∀ t w, w.nowNanos = t.world.nowNanos → (∀ fds timeoutMs, t.world.pc ≠ .poll fds timeoutMs) →
    allowed t w

def Reached (cap : Nat) (allowed : Timed → World → Prop) (w : World) : Prop :=
  w.clock = 0 ∧ ∃ log, TimedRuns cap allowed log ⟨w, 0, 0⟩

theorem Lenient.calm (hok : Lenient allowed) (hclock : w.clock = 0) (hs : Calm cap w es w') :
    TimedStep cap allowed ⟨w, 0, 0⟩ es ⟨w', 0, 0⟩ := by
  have hnow : w'.nowNanos = w.nowNanos := by rw [World.nowNanos, hs.clock, World.nowNanos]
  have hnext : Timed.next ⟨w, 0, 0⟩ w' = ⟨w', 0, 0⟩ := by
    simp only [Timed.next, World.nowNanos, hclock, Nat.zero_mod, Timed.mk.injEq, true_and]
    constructor <;> split <;> rfl
  exact hnext ▸ .mk hs.step (hok ⟨w, 0, 0⟩ w' hnow hs.poll)

theorem Reached.of_calm (hok : Lenient allowed) (h : CalmReached cap w) :
    Reached cap allowed w := by
  obtain ⟨log, hcalm⟩ := h
  have hlift : ∃ t, TimedRuns cap allowed log t ∧ w.clock = 0 ∧ t = ⟨w, 0, 0⟩ :=
    hcalm.lift (fun w t => w.clock = 0 ∧ t = (⟨w, 0, 0⟩ : Timed)) ⟨rfl, rfl⟩ fun hrel hs => by
      obtain ⟨hclock, rfl⟩ := hrel
      exact ⟨_, hok.calm hclock hs, hs.clock.trans hclock, rfl⟩
  obtain ⟨t, hrun, hclock, rfl⟩ := hlift
  exact ⟨hclock, log, hrun⟩

theorem Reached.step (hok : Lenient allowed) (h : Reached cap allowed w)
    (hs : Calm cap w es w') : Reached cap allowed w' := by
  obtain ⟨hzero, log, hrun⟩ := h
  exact ⟨hs.clock.trans hzero, _, hrun.snoc (hok.calm hzero hs)⟩

def timerInit (fireAt : Nat) : InitForHost :=
  ⟨{ Subscriptions.none with timer := .Ok ⟨fireAt, .readOnly 1⟩ }, ⟨.null, []⟩, .readOnly 0⟩

def ticking (fireAt : Nat) : World := .inited ⟨80, 24⟩ (timerInit fireAt) World.initial.io.heap

theorem loop_reached (hok : Lenient allowed) (fireAt : Nat) :
    Reached cap allowed { ticking fireAt with pc := .loop [] } := by
  have waiting : CalmReached cap { ticking fireAt with pc := .wait } :=
    CalmReached.waiting rfl rfl ⟨80, 24⟩ rfl
  exact (Reached.of_calm hok waiting).step hok ⟨.goto (.waitBegins rfl rfl), rfl, by simp, by simp⟩

theorem poll_reached (hok : Lenient allowed) (hfire : 0 < fireAt) :
    Reached cap allowed { ticking fireAt with pc := .poll [] (pendingMs fireAt 0) } := by
  have looping : Reached cap allowed { ticking fireAt with pc := .loop [] } :=
    loop_reached hok fireAt
  have pending : Reached cap allowed { ticking fireAt with pc := .timeout [] } := by
    refine looping.step hok ⟨.goto (.timerPending rfl ?_), rfl, by simp, by simp⟩
    have hnot : ¬fireAt ≤ 0 := by omega
    rw [timerFired_eq (w := { ticking fireAt with pc := .loop [] }) rfl]
    exact congrArg Except.ok (decide_eq_false hnot)
  refine pending.step hok ⟨.goto (.timeout rfl ?_), rfl, by simp, by simp⟩
  exact timeoutMs_pending (w := { ticking fireAt with pc := .timeout [] }) rfl hfire

theorem Monotone.lenient : Lenient Monotone :=
  fun _ _ hnow hpc => ⟨hnow.ge, fun fds timeoutMs hpoll _ => absurd hpoll (hpc fds timeoutMs)⟩

theorem WholeMillis.lenient : Lenient fun t w => Monotone t w ∧ WholeMillis t w :=
  fun t w hnow hpc => ⟨Monotone.lenient t w hnow hpc,
    fun fds timeoutMs _ hpoll _ _ _ => absurd hpoll (hpc fds timeoutMs)⟩

theorem timesOut_step {w : World} (hpc : w.pc = .poll [] timeoutMs)
    (hp : w.currentSubs.timer = .Ok p) :
    Step cap w [] { w with pc := .timerFire } :=
  .goto (.pollTimesOut hpc ⟨rfl, rfl, by simp⟩ (by simp [World.hasTimer, hp]))

theorem timer_fires_early :
    ∃ log t t', TimedRuns 65536 Monotone log t ∧
      TimedStep 65536 Monotone t [.event ⟨.readOnly 1, .timer⟩] t' ∧
      ¬NotEarly t (.event ⟨.readOnly 1, .timer⟩) := by
  have polling : Reached 65536 Monotone { ticking 500000 with pc := .poll [] (0 : Nat) } :=
    poll_reached Monotone.lenient (by decide)
  obtain ⟨-, log, hrun⟩ := polling
  have hout : Monotone ⟨{ ticking 500000 with pc := .poll [] (0 : Nat) }, 0, 0⟩
      { ticking 500000 with pc := .timerFire } := by
    refine ⟨le_rfl, fun fds timeoutMs hpc _ => ?_⟩
    obtain ⟨-, rfl⟩ := Pc.poll.inj hpc
    exact Nat.zero_le _
  refine ⟨_, _, _, hrun.snoc (.mk (timesOut_step rfl rfl) hout),
    .mk (.timerEvent rfl rfl) ⟨le_rfl, fun fds timeoutMs hpc => by simp [Timed.next] at hpc⟩, ?_⟩
  rintro hearly
  obtain ⟨p, hp, -, hdue⟩ := hearly rfl
  obtain rfl := TryResult.Ok.inj hp
  exact absurd hdue (by decide)

theorem timer_not_early_two : ∃ log t t',
    TimedRuns 65536 (fun t w => Monotone t w ∧ WholeMillis t w) log t ∧
    TimedStep 65536 (fun t w => Monotone t w ∧ WholeMillis t w) t
      [.event ⟨.readOnly 1, .timer⟩] t' ∧
    t.world.nowNanos = 2000000 ∧ NotEarly t (.event ⟨.readOnly 1, .timer⟩) := by
  have polling : Reached 65536 (fun t w => Monotone t w ∧ WholeMillis t w)
      { ticking 2000000 with pc := .poll [] (2 : Nat) } :=
    poll_reached WholeMillis.lenient (by decide)
  obtain ⟨-, log, hrun⟩ := polling
  have htick : Monotone ⟨{ ticking 2000000 with pc := .poll [] (2 : Nat) }, 0, 0⟩
      { ticking 2000000 with pc := .poll [] (2 : Nat), clock := 2000000 } :=
    ⟨by decide, by simp⟩
  have ticked := hrun.snoc (.mk (.tick rfl) ⟨htick, by simp [WholeMillis]⟩)
  have hout : Monotone ⟨{ ticking 2000000 with pc := .poll [] (2 : Nat), clock := 2000000 }, 0, 0⟩
      { ticking 2000000 with pc := .timerFire, clock := 2000000 } := by
    refine ⟨le_rfl, fun fds timeoutMs hpc _ => ?_⟩
    obtain ⟨-, rfl⟩ := Pc.poll.inj hpc
    decide
  have hwhole : WholeMillis
      ⟨{ ticking 2000000 with pc := .poll [] (2 : Nat), clock := 2000000 }, 0, 0⟩
      { ticking 2000000 with pc := .timerFire, clock := 2000000 } := by
    intro fds timeoutMs p _ _ hp _
    obtain rfl := TryResult.Ok.inj hp
    decide
  have fired := ticked.snoc (.mk (timesOut_step rfl rfl) ⟨hout, hwhole⟩)
  have returned : Step 65536 { ticking 2000000 with pc := .timerFire, clock := 2000000 }
      [.event ⟨.readOnly 1, .timer⟩]
      { ticking 2000000 with pc := .update ⟨.readOnly 1, .timer⟩, clock := 2000000 } :=
    .timerEvent rfl rfl
  have hs : TimedStep 65536 (fun t w => Monotone t w ∧ WholeMillis t w)
      ⟨{ ticking 2000000 with pc := .timerFire, clock := 2000000 }, 0, 0⟩
      [.event ⟨.readOnly 1, .timer⟩] _ :=
    .mk returned ⟨⟨le_rfl, by simp⟩, by simp [WholeMillis]⟩
  have hevent := (timer_not_early 65536).1 _ _ _ _ fired hs
  exact ⟨_, _, _, fired, hs, rfl, hevent _ (by simp)⟩

/-- While `wait_for_next_event` runs, its timer is not overdue by more than it was on entry. -/
def Punctual (t : Timed) : Prop :=
  ∀ p, t.world.currentSubs.timer = .Ok p →
    match t.world.pc with
    | .loop _ | .readByte _ | .tryRecv _ | .readStdin _ | .timerFire =>
      t.world.nowNanos ≤ max t.entered p.fireAt
    | .timeout _ => t.world.nowNanos < p.fireAt
    | .poll _ _ => t.polled < p.fireAt ∧ t.world.nowNanos ≤ p.fireAt
    | _ => True

theorem pendingMs_le {fireAt now : Nat} (h : now < fireAt) :
    now + pendingMs fireAt now * 1000000 ≤ fireAt := by
  simp only [pendingMs]
  omega

theorem OnlyInPoll.still (h : OnlyInPoll t w) (hwait : waiting t.world.pc = true)
    (hpc : ∀ fds timeoutMs, t.world.pc ≠ .poll fds timeoutMs) :
    w.nowNanos = t.world.nowNanos := by
  rcases h hwait with heq | ⟨fds, timeoutMs, hpoll, -⟩
  · exact heq
  · exact absurd hpoll (hpc fds timeoutMs)

theorem OnlyInPoll.not_late (h : OnlyInPoll t w) (hpoll : Polling t)
    (hpc : t.world.pc = .poll fds timeoutMs) (hp : t.world.currentSubs.timer = .Ok p)
    (hpending : t.polled < p.fireAt) (hnow : t.world.nowNanos ≤ p.fireAt) :
    w.nowNanos ≤ p.fireAt := by
  simp only [Polling, hpc] at hpoll
  rcases hpoll p hp with ⟨hdue, -⟩ | ⟨-, rfl⟩
  · omega
  · rcases h (by simp [waiting, hpc]) with heq | ⟨fds', timeoutMs', hpc', -, hbound⟩
    · omega
    · obtain ⟨rfl, rfl⟩ := Pc.poll.inj (hpc.symm.trans hpc')
      have hreach := pendingMs_le hpending
      exact (hbound (by omega)).trans (by simpa using hreach)

theorem Punctual.step (hpoll : Polling t) (h : Punctual t)
    (hs : TimedStep cap OnlyInPoll t es t') : Punctual t' := by
  obtain ⟨hs, honly⟩ := hs
  cases hs with
  | goto hg =>
    intro p hp
    have ht := h p hp
    replace hp : t.world.currentSubs.timer = .Ok p := hp
    cases hg with
    | waitBegins hpc =>
      simp only [Timed.next, hpc]
      exact le_max_left _ _
    | timerFired hpc | recvEmpty hpc | stdinEmpty hpc =>
      simp only [hpc] at ht
      simp only [Timed.next, hpc]
      exact ht
    | timerPending hpc hfired =>
      rw [timerFired_eq hp] at hfired
      exact Nat.lt_of_not_le (of_decide_eq_false (Except.ok.inj hfired))
    | timeout hpc =>
      simp only [hpc] at ht
      simp only [Timed.next, hpc]
      exact ⟨ht, ht.le⟩
    | pollTimesOut hpc | pollTcp hpc | pollStdin hpc | pollAgain hpc =>
      simp only [hpc] at ht
      exact ht.2.trans (le_max_right _ _)
    | _ => trivial
  | byteRead hpc | recvDiscarded hpc =>
    intro p hp
    have ht := h p hp
    simp only [hpc] at ht
    simp only [Timed.next, hpc]
    exact ht
  | thread =>
    intro p hp
    have ht := h p hp
    cases hpc : t.world.pc <;> simp only [Timed.next, hpc] at ht ⊢ <;> exact ht
  | tick =>
    intro p hp
    have ht := h p hp
    replace hp : t.world.currentSubs.timer = .Ok p := hp
    cases hpc : t.world.pc with
    | loop fds | readByte fds | tryRecv fds | readStdin fds | timerFire =>
      have hnow := honly.still (by simp [waiting, hpc]) (by simp [hpc])
      simp only [hpc] at ht
      simp only [Timed.next, hpc]
      exact hnow.trans_le ht
    | timeout fds =>
      have hnow := honly.still (by simp [waiting, hpc]) (by simp [hpc])
      simp only [hpc] at ht
      exact hnow.trans_lt ht
    | poll fds timeoutMs =>
      simp only [hpc] at ht
      simp only [Timed.next, hpc]
      exact ⟨ht.1, honly.not_late hpoll hpc hp ht.1 ht.2⟩
    | _ => simp only [Timed.next, hpc]
  | _ => intro p hp; trivial

theorem punctual (h : TimedRuns cap OnlyInPoll log t) : Punctual t :=
  h.invariant_of (I := fun _ t => Punctual t) polling (fun p hp => by trivial)
    fun hpoll hi hs => hi.step hpoll hs

def mainObs (log : List Obs) : List Obs :=
  log.filter fun
    | .net _ => false
    | _ => true

theorem mainObs_append (log es : List Obs) : mainObs (log ++ es) = mainObs log ++ mainObs es :=
  List.filter_append ..

theorem mainObs_net (os : List NetObs) : mainObs (os.map .net) = [] := by
  simp [mainObs, List.filter_eq_nil_iff]

def AboutToFire (p : SubscriptionsTimerOk) (t : Timed) : Prop :=
  t.world.currentSubs.timer = .Ok p ∧
    ((∃ fds, t.world.pc = .loop fds ∧ p.fireAt ≤ t.world.nowNanos) ∨ t.world.pc = .timerFire)

theorem AboutToFire.step (h : AboutToFire p t) (hs : TimedStep cap OnlyInPoll t es t') :
    (mainObs es = [] ∧ AboutToFire p t') ∨ mainObs es = [.event ⟨p.onFire, .timer⟩] := by
  obtain ⟨hs, honly⟩ := hs
  obtain ⟨hp, hat⟩ := h
  have hpoll : ∀ fds timeoutMs, t.world.pc ≠ .poll fds timeoutMs := by
    rcases hat with ⟨fds, hpc, -⟩ | hpc <;> simp [hpc]
  have hwait : waiting t.world.pc = true := by
    rcases hat with ⟨fds, hpc, -⟩ | hpc <;> simp [waiting, hpc]
  have hnow := honly.still hwait hpoll
  rcases hat with ⟨fds, hpc, hdue⟩ | hpc
  · have hfired : t.world.timerFired = .ok true := by
      rw [timerFired_eq hp, decide_eq_true hdue]
    cases hs with
    | goto hg =>
      cases hg with
      | timerFired => exact .inl ⟨rfl, hp, .inr rfl⟩
      | timerPending _ hnot => simp [hfired] at hnot
      | misread hm => simp [World.reads, hpc, hfired, bind, Except.bind, pure, Except.pure] at hm
      | _ hpc' => simp [hpc] at hpc'
    | noEvent hn => cases hn <;> simp_all
    | thread => exact .inl ⟨mainObs_net _, hp, .inl ⟨fds, hpc, hdue⟩⟩
    | tick => exact .inl ⟨rfl, hp, .inl ⟨fds, hpc, hdue.trans hnow.ge⟩⟩
    | _ hpc' => simp [hpc] at hpc'
  · have hfire := timerFireEvent_ok hp
    cases hs with
    | goto hg =>
      cases hg with
      | misread hm => simp [World.reads, hpc, hfire, bind, Except.bind, pure, Except.pure] at hm
      | _ hpc' => simp [hpc] at hpc'
    | noEvent hn => cases hn <;> simp_all
    | timerEvent _ hbox =>
      rw [hfire] at hbox
      obtain rfl := Option.some.inj (Except.ok.inj hbox)
      exact .inr rfl
    | thread => exact .inl ⟨mainObs_net _, hp, .inr hpc⟩
    | tick => exact .inl ⟨rfl, hp, .inr hpc⟩
    | _ hpc' => simp [hpc] at hpc'

theorem AboutToFire.first (h : AboutToFire p t) (hr : Run (TimedStep cap OnlyInPoll) t es t') :
    (mainObs es = [] ∧ AboutToFire p t') ∨
      ∃ rest, mainObs es = .event ⟨p.onFire, .timer⟩ :: rest := by
  induction hr with
  | nil => exact .inl ⟨rfl, h⟩
  | snoc _ hs ih =>
    rw [mainObs_append]
    rcases ih with ⟨hnone, hat⟩ | ⟨rest, hfirst⟩
    · rw [hnone, List.nil_append]
      rcases hat.step hs with hstill | hevent
      · exact .inl hstill
      · exact .inr ⟨[], hevent⟩
    · exact .inr ⟨_, by rw [hfirst, List.cons_append]⟩

theorem AboutToFire.returns (h : AboutToFire p t) :
    ∃ t', Run (TimedStep cap OnlyInPoll) t [.event ⟨p.onFire, .timer⟩] t' := by
  obtain ⟨hp, hat⟩ := h
  have fire : ∀ s : Timed, s.world.pc = .timerFire → s.world.currentSubs.timer = .Ok p →
      ∃ t', TimedStep cap OnlyInPoll s [.event ⟨p.onFire, .timer⟩] t' := by
    intro s hpc hs
    exact ⟨_, .mk (.timerEvent hpc (timerFireEvent_ok hs)) fun _ => .inl rfl⟩
  rcases hat with ⟨fds, hpc, hdue⟩ | hpc
  · have hfired : t.world.timerFired = .ok true := by
      rw [timerFired_eq hp, decide_eq_true hdue]
    have atFire : Run (TimedStep cap OnlyInPoll) t []
        (t.next { t.world with pc := .timerFire }) :=
      Run.nil.snoc_silent (.mk (.goto (.timerFired hpc hfired)) fun _ => .inl rfl)
    obtain ⟨t', hs⟩ := fire (t.next { t.world with pc := .timerFire }) rfl hp
    exact ⟨t', atFire.snoc hs⟩
  · obtain ⟨t', hs⟩ := fire t hpc hp
    exact ⟨t', Run.nil.snoc hs⟩

/-- Whatever wakes `poll`, the loop reaches no time past its timer's (or its own entry), gives
`poll` a timeout that an `i32` holds, and serves a due timer before anything else. -/
theorem timer_never_late (h : TimedRuns cap OnlyInPoll log t)
    (hp : t.world.currentSubs.timer = .Ok p) :
    (waiting t.world.pc = true → t.world.nowNanos ≤ max t.entered p.fireAt ∧
      (t.world.clock < 2 ^ 64 → t.world.clock ≤ max t.entered p.fireAt)) ∧
    (∀ fds, t.world.pc = .timeout fds → t.world.nowNanos < p.fireAt ∧
      ∃ timeoutMs : Int, t.world.timeoutMs = .ok timeoutMs ∧
        timeoutMs = min (((p.fireAt : Int) - t.world.nowNanos) / 1000000) (2 ^ 31 - 1) ∧
        0 ≤ timeoutMs ∧ timeoutMs ≤ 2 ^ 31 - 1) ∧
    (∀ fds, t.world.pc = .loop fds → p.fireAt ≤ t.world.nowNanos →
      (∀ es t', Run (TimedStep cap OnlyInPoll) t es t' →
        mainObs es = [] ∨ ∃ rest, mainObs es = .event ⟨p.onFire, .timer⟩ :: rest) ∧
      ∃ t', Run (TimedStep cap OnlyInPoll) t [.event ⟨p.onFire, .timer⟩] t') := by
  have hpunctual := punctual h p hp
  refine ⟨fun hwait => ?_, fun fds hpc => ?_, fun fds hpc hdue => ?_⟩
  · have hnow : t.world.nowNanos ≤ max t.entered p.fireAt := by
      cases hpc : t.world.pc with
      | loop fds | readByte fds | tryRecv fds | readStdin fds | timerFire =>
        simp only [hpc] at hpunctual
        exact hpunctual
      | timeout fds =>
        simp only [hpc] at hpunctual
        exact hpunctual.le.trans (le_max_right _ _)
      | poll fds timeoutMs =>
        simp only [hpc] at hpunctual
        exact hpunctual.2.trans (le_max_right _ _)
      | _ => simp [waiting, hpc] at hwait
    refine ⟨hnow, fun hclock => ?_⟩
    rwa [World.nowNanos, Nat.mod_eq_of_lt hclock] at hnow
  · simp only [hpc] at hpunctual
    refine ⟨hpunctual, _, timeoutMs_pending hp hpunctual, ?_, ?_, ?_⟩ <;>
      simp only [pendingMs] <;> omega
  · have hat : AboutToFire p t := ⟨hp, .inl ⟨fds, hpc, hdue⟩⟩
    exact ⟨fun es t' hr => (hat.first hr).imp And.left id, hat.returns⟩

theorem OnlyInPoll.lenient : Lenient OnlyInPoll := fun _ _ hnow _ _ => .inl hnow

def alarm : World :=
  .inited ⟨80, 24⟩ { timerInit 5000000 with
    sub := { Subscriptions.none with
      stdin := .Ok (.readOnly 2)
      timer := .Ok ⟨5000000, .readOnly 1⟩ } } World.initial.io.heap

def alarmAt (pc : Pc) (clock : Nat) : World := { alarm with pc := pc, clock := clock }

theorem alarm_now (pc : Pc) (hnow : now ≤ 5000000) : (alarmAt pc now).nowNanos = now :=
  Nat.mod_eq_of_lt (Nat.lt_of_le_of_lt hnow (by decide))

theorem alarm_silent (h : TimedRuns cap OnlyInPoll log ⟨alarmAt pc now, 0, polled⟩)
    (hg : Goto (alarmAt pc now) pc') (hwait : pc ≠ .wait) (htimeout : ∀ fds, pc ≠ .timeout fds) :
    TimedRuns cap OnlyInPoll log ⟨alarmAt pc' now, 0, polled⟩ := by
  have hnext : Timed.next ⟨alarmAt pc now, 0, polled⟩ (alarmAt pc' now) =
      ⟨alarmAt pc' now, 0, polled⟩ := by
    cases pc with
    | wait => exact absurd rfl hwait
    | timeout fds => exact absurd rfl (htimeout fds)
    | _ => rfl
  have hs : TimedStep cap OnlyInPoll ⟨alarmAt pc now, 0, polled⟩ []
      (Timed.next ⟨alarmAt pc now, 0, polled⟩ (alarmAt pc' now)) :=
    .mk (.goto hg) fun _ => .inl rfl
  exact hnext ▸ h.snoc_silent hs

theorem asleep
    (h : TimedRuns cap OnlyInPoll log ⟨alarmAt (.loop [⟨.stdin, .none⟩]) now, 0, polled⟩)
    (hpending : now < 5000000) (hnow : now ≤ later)
    (hlater : later ≤ now + pendingMs 5000000 now * 1000000) :
    TimedRuns cap OnlyInPoll log
      ⟨alarmAt (.poll [⟨.stdin, .none⟩] (pendingMs 5000000 now)) later, 0, now⟩ := by
  have hread (pc : Pc) : (alarmAt pc now).nowNanos = now := alarm_now pc hpending.le
  have hnotDue : (alarmAt (.loop [⟨.stdin, .none⟩]) now).timerFired = .ok false := by
    rw [timerFired_eq (p := ⟨5000000, .readOnly 1⟩) rfl, hread]
    exact congrArg Except.ok (decide_eq_false hpending.not_ge)
  have pending : TimedRuns cap OnlyInPoll log
      ⟨alarmAt (.timeout [⟨.stdin, .none⟩]) now, 0, polled⟩ :=
    alarm_silent h (.timerPending rfl hnotDue) (by simp) (by simp)
  have hms : (alarmAt (.timeout [⟨.stdin, .none⟩]) now).timeoutMs =
      .ok (pendingMs 5000000 now) := by
    have hlt : (alarmAt (.timeout [⟨.stdin, .none⟩]) now).nowNanos < 5000000 :=
      (hread _).trans_lt hpending
    rw [timeoutMs_pending (p := ⟨5000000, .readOnly 1⟩) rfl hlt, hread]
  have hnext : Timed.next ⟨alarmAt (.timeout [⟨.stdin, .none⟩]) now, 0, polled⟩
      (alarmAt (.poll [⟨.stdin, .none⟩] (pendingMs 5000000 now)) now) =
      ⟨alarmAt (.poll [⟨.stdin, .none⟩] (pendingMs 5000000 now)) now, 0, now⟩ :=
    congrArg (Timed.mk _ 0) (hread _)
  have called := hnext ▸ pending.snoc_silent (.mk (.goto (.timeout rfl hms)) fun _ => .inl rfl)
  have hthen : World.nowNanos
      (alarmAt (.poll [⟨.stdin, .none⟩] (pendingMs 5000000 now)) later) = later :=
    alarm_now _ (hlater.trans (pendingMs_le hpending))
  refine called.snoc_silent (.mk (.tick rfl) fun _ => .inr ⟨_, _, rfl, ?_, fun _ => ?_⟩)
  · exact (hread _).trans_le (hnow.trans hthen.ge)
  · exact hthen.trans_le (by simpa using hlater)

theorem woken
    (h : TimedRuns cap OnlyInPoll log ⟨alarmAt (.loop [⟨.stdin, .none⟩]) now, 0, polled⟩)
    (hpending : now < 5000000) (hnow : now ≤ later)
    (hlater : later ≤ now + pendingMs 5000000 now * 1000000) :
    TimedRuns cap OnlyInPoll log ⟨alarmAt (.loop [⟨.stdin, .none⟩]) later, 0, now⟩ := by
  have hp : Polled alarm.net [⟨.stdin, .none⟩] [⟨.stdin, ⟨true, false⟩⟩] 1 :=
    ⟨rfl, rfl, by simp⟩
  have reading : TimedRuns cap OnlyInPoll log
      ⟨alarmAt (.readStdin [⟨.stdin, ⟨true, false⟩⟩]) later, 0, now⟩ :=
    alarm_silent (asleep h hpending hnow hlater) (.pollStdin rfl hp (by simp) rfl rfl) (by simp)
      (by simp)
  have found : Goto (alarmAt (.readStdin [⟨.stdin, ⟨true, false⟩⟩]) later)
      (.loop (resetRevents [⟨.stdin, ⟨true, false⟩⟩] 0)) := .stdinEmpty rfl rfl
  exact alarm_silent reading found (by simp) (by simp)

theorem timer_never_late_due : ∃ log t, TimedRuns 65536 OnlyInPoll log t ∧
    t.world.pc = .loop [⟨.stdin, .none⟩] ∧ t.polled = 2000000 ∧ t.world.clock = 5000000 ∧
    t.world.clock ≤ max t.entered 5000000 ∧
    (∀ es t', Run (TimedStep 65536 OnlyInPoll) t es t' →
      mainObs es = [] ∨ ∃ rest, mainObs es = .event ⟨.readOnly 1, .timer⟩ :: rest) ∧
    ∃ t', Run (TimedStep 65536 OnlyInPoll) t [.event ⟨.readOnly 1, .timer⟩] t' := by
  have waiting : CalmReached 65536 { alarm with pc := .wait } :=
    CalmReached.waiting rfl rfl ⟨80, 24⟩ rfl
  have looping : Reached 65536 OnlyInPoll (alarmAt (.loop [⟨.stdin, .none⟩]) 0) :=
    (Reached.of_calm OnlyInPoll.lenient waiting).step OnlyInPoll.lenient
      ⟨.goto (.waitBegins rfl rfl), rfl, by simp, by simp⟩
  obtain ⟨-, log, hrun⟩ := looping
  have first : TimedRuns 65536 OnlyInPoll log ⟨alarmAt (.loop [⟨.stdin, .none⟩]) 2000000, 0, 0⟩ :=
    woken hrun (by decide) (by decide) (by decide)
  have second : TimedRuns 65536 OnlyInPoll log
      ⟨alarmAt (.loop [⟨.stdin, .none⟩]) 5000000, 0, 2000000⟩ :=
    woken first (by decide) (by decide) (by decide)
  have hlate := timer_never_late (p := ⟨5000000, .readOnly 1⟩) second rfl
  have hfirst := hlate.2.2 [⟨.stdin, .none⟩] rfl (alarm_now _ le_rfl).ge
  exact ⟨log, _, second, rfl, rfl, rfl, (hlate.1 rfl).2 (by decide), hfirst⟩

end RocTui.Timer
