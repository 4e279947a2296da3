import RocTui.Behaviour
import RocTui.History
import RocTui.Timer

namespace RocTui.Deadline

open RocTui.Lib RocTui.Abi RocTui.Tcp RocTui.Dispatch RocTui.Effects RocTui.Host RocTui.Timer
open RocTui.Lib.Elm
open RocTui.Platform (Boxes System seen seen_append signal visible)
open RocTui.App (Application Signal)

def givenTime : Obs → Option Nat
  | .rocInit ctx _ | .rocUpdate ctx _ _ _ => some ctx.nowNanos
  | _ => none

def given (log : List Obs) : List Nat := log.filterMap givenTime

theorem given_append (log es : List Obs) : given (log ++ es) = given log ++ given es :=
  List.filterMap_append

theorem given_net (os : List NetObs) : given (os.map .net) = [] := filterMap_net (fun _ => rfl) os

structure Elapsed (log : List Obs) (t : Timed) : Prop where
  now : ∀ c ∈ given log, c ≤ t.world.nowNanos
  polled : ∀ fds timeoutMs, t.world.pc = .poll fds timeoutMs → ∀ c ∈ given log, c ≤ t.polled

theorem given_step (hs : Step cap w es w') : ∀ c ∈ given es, c = w.nowNanos := by
  intro c hc
  cases hs with
  | initReturns | initCrashes | updateReturns | updateCrashes => exact List.mem_singleton.mp hc
  | thread =>
    rw [given_net] at hc
    cases hc
  | _ => cases hc

theorem Elapsed.step (h : Elapsed log t) (hs : TimedStep cap Monotone t es t') :
    Elapsed (log ++ es) t' := by
  obtain ⟨hs, hmono⟩ := hs
  have past : ∀ c ∈ given (log ++ es), c ≤ t.world.nowNanos := by
    intro c hc
    rw [given_append, List.mem_append] at hc
    rcases hc with hc | hc
    · exact h.now c hc
    · exact (given_step hs c hc).le
  refine ⟨fun c hc => (past c hc).trans hmono.now, ?_⟩
  cases hs with
  | goto hg =>
    cases hg with
    | timeout hpc =>
      intro fds timeoutMs _ c hc
      simp only [Timed.next, hpc]
      exact past c hc
    | _ => intro fds timeoutMs hpoll; cases hpoll
  | thread =>
    intro fds timeoutMs hpoll c hc
    replace hpoll : t.world.pc = .poll fds timeoutMs := hpoll
    rw [given_append, given_net, List.append_nil] at hc
    simp only [Timed.next, hpoll]
    exact h.polled fds timeoutMs hpoll c hc
  | tick =>
    intro fds timeoutMs hpoll c hc
    replace hpoll : t.world.pc = .poll fds timeoutMs := hpoll
    rw [List.append_nil] at hc
    simp only [Timed.next, hpoll]
    exact h.polled fds timeoutMs hpoll c hc
  | _ => intro fds timeoutMs hpoll; cases hpoll

theorem elapsed (h : TimedRuns cap Monotone log t) : Elapsed log t :=
  h.invariant (I := Elapsed)
    ⟨fun _ hc => absurd hc List.not_mem_nil, fun _ _ hpoll => by cases hpoll⟩ Elapsed.step

/-- Due in less than a millisecond, or due more than 2^31 milliseconds after all the times the
app was given. -/
def Near (log : List Obs) (fireAt now : Nat) : Prop :=
  fireAt < now + 1000000 ∨ ∀ c ∈ given log, c + 2 ^ 31 * 1000000 ≤ fireAt

theorem Near.later (h : Near log fireAt now) (hnow : now ≤ now') : Near log fireAt now' :=
  h.imp_left fun h => Nat.lt_of_lt_of_le h (Nat.add_le_add_right hnow _)

theorem near_pendingMs {fireAt polled now : Nat} (h : polled < fireAt)
    (hnow : polled + pendingMs fireAt polled * 1000000 ≤ now) :
    fireAt < now + 1000000 ∨ polled + 2 ^ 31 * 1000000 ≤ fireAt := by
  simp only [pendingMs] at hnow
  omega

def NearlyDue (log : List Obs) (t : Timed) : Prop :=
  match t.world.pc with
  | .timerFire => ∃ p, t.world.currentSubs.timer = .Ok p ∧ Near log p.fireAt t.world.nowNanos
  | .update event => event.source = .timer →
      ∃ p, t.world.currentSubs.timer = .Ok p ∧ Near log p.fireAt t.world.nowNanos
  | _ => True

theorem NearlyDue.later {t t' : Timed} (h : NearlyDue log t) (hquiet : given es = [])
    (hpc : t'.world.pc = t.world.pc) (hsubs : t'.world.currentSubs = t.world.currentSubs)
    (hnow : t.world.nowNanos ≤ t'.world.nowNanos) : NearlyDue (log ++ es) t' := by
  have near {fireAt : Nat} (hn : Near log fireAt t.world.nowNanos) :
      Near (log ++ es) fireAt t'.world.nowNanos := by
    rw [Near, given_append, hquiet, List.append_nil]
    exact hn.later hnow
  unfold NearlyDue at h ⊢
  rw [hpc, hsubs]
  cases hpc' : t.world.pc with
  | timerFire =>
    simp only [hpc'] at h ⊢
    obtain ⟨p, hp, hn⟩ := h
    exact ⟨p, hp, near hn⟩
  | update event =>
    simp only [hpc'] at h ⊢
    intro hsource
    obtain ⟨p, hp, hn⟩ := h hsource
    exact ⟨p, hp, near hn⟩
  | _ => trivial

theorem NearlyDue.step (hpoll : Polling t) (helapsed : Elapsed log t) (h : NearlyDue log t)
    (hs : TimedStep cap Monotone t es t') : NearlyDue (log ++ es) t' := by
  obtain ⟨hs, hmono⟩ := hs
  cases hs with
  | goto hg =>
    rw [List.append_nil]
    cases hg with
    | timerFired hpc hfired =>
      simp only [NearlyDue, Timed.next]
      cases ht : t.world.hasTimer with
      | false => simp [World.timerFired, ht, pure, Except.pure] at hfired
      | true =>
        obtain ⟨p, hp⟩ := exists_timer ht
        rw [timerFired_eq hp] at hfired
        have due : p.fireAt ≤ t.world.nowNanos := of_decide_eq_true (Except.ok.inj hfired)
        exact ⟨p, hp, .inl (Nat.lt_of_le_of_lt due (Nat.lt_add_of_pos_right (by decide)))⟩
    | pollTimesOut hpc _ ht =>
      obtain ⟨p, hp⟩ := exists_timer ht
      refine ⟨p, hp, ?_⟩
      have waited := hmono.timesOut _ _ hpc rfl
      simp only [Polling, hpc] at hpoll
      rcases hpoll p hp with ⟨hdue, rfl⟩ | ⟨hpending, rfl⟩
      · have due : p.fireAt ≤ t.world.nowNanos := hdue.trans (Nat.le_of_add_right_le waited)
        exact .inl (Nat.lt_of_le_of_lt due (Nat.lt_add_of_pos_right (by decide)))
      · refine (near_pendingMs hpending waited).imp_right fun far c hc => ?_
        exact (Nat.add_le_add_right (helapsed.polled _ _ hpc c hc) _).trans far
    | _ => trivial
  | timerEvent hpc hbox =>
    simp only [NearlyDue, hpc] at h
    obtain ⟨p, hp, hnear⟩ := h
    refine fun _ => ⟨p, hp, ?_⟩
    rw [Near, given_append, show given [_] = [] from rfl, List.append_nil]
    exact hnear
  | eventMade hpc => exact fun hsource => absurd hsource (by simp)
  | thread => exact h.later (given_net _) rfl rfl hmono.now
  | tick => exact h.later rfl rfl rfl hmono.now
  | _ => trivial

theorem nearlyDue (h : TimedRuns cap Monotone log t) : NearlyDue log t :=
  h.invariant_of (I := NearlyDue) (fun hr => And.intro (polling hr) (elapsed hr)) trivial
    fun known hi hs => hi.step known.1 known.2 hs

theorem monotone_timesOut {t : Timed} (timeoutMs : Int) (hpc : t.world.pc = .poll fds timeoutMs)
    (hclock : w.clock = t.world.clock)
    (waited : t.polled + timeoutMs.toNat * 1000000 ≤ t.world.nowNanos) : Monotone t w := by
  refine ⟨Nat.le_of_eq (congrArg (· % 2 ^ 64) hclock.symm), fun fds' timeoutMs' hpc' _ => ?_⟩
  obtain ⟨-, rfl⟩ := Pc.poll.inj (hpc.symm.trans hpc')
  exact waited

def AlmostOnTime (log : List Obs) (t : Timed) : Obs → Prop
  | .event event => event.source = .timer →
      ∃ p, t.world.currentSubs.timer = .Ok p ∧ event.box = p.onFire ∧
        Near log p.fireAt t.world.nowNanos
  | .rocUpdate ctx _ event _ => event.source = .timer →
      ∃ p, t.world.currentSubs.timer = .Ok p ∧ Near log p.fireAt ctx.nowNanos
  | _ => True

/-- A timer fires less than a millisecond early, unless it is set for more than 2^31 milliseconds
after all the times the app was given, which `poll` cannot wait for in one go. -/
theorem fires_almost_on_time (h : TimedRuns cap Monotone log t)
    (hs : TimedStep cap Monotone t es t') : ∀ o ∈ es, AlmostOnTime log t o := by
  have due := nearlyDue h
  obtain ⟨hs, -⟩ := hs
  cases hs with
  | timerEvent hpc hbox =>
    simp only [NearlyDue, hpc] at due
    obtain ⟨p, hp, hnear⟩ := due
    rw [timerFireEvent_ok hp] at hbox
    simp only [List.mem_singleton, forall_eq]
    exact fun _ => ⟨p, hp, (Option.some.inj (Except.ok.inj hbox)).symm, hnear⟩
  | updateReturns hpc | updateCrashes hpc =>
    simp only [NearlyDue, hpc] at due
    simp only [List.mem_singleton, forall_eq]
    exact due
  | thread =>
    intro o ho
    obtain ⟨n, -, rfl⟩ := List.mem_map.mp ho
    trivial
  | _ => simp [AlmostOnTime]

theorem fires_almost_on_time_early : ∃ log t t',
    TimedRuns 65536 Monotone log t ∧
    TimedStep 65536 Monotone t [.event ⟨.readOnly 1, .timer⟩] t' ∧
    t.world.nowNanos = 0 ∧ t.world.currentSubs.timer = .Ok ⟨999999, .readOnly 1⟩ ∧
    AlmostOnTime log t (.event ⟨.readOnly 1, .timer⟩) := by
  have polling : Reached 65536 Monotone { ticking 999999 with pc := .poll [] (0 : Nat) } :=
    poll_reached Monotone.lenient (by decide)
  obtain ⟨-, log, hrun⟩ := polling
  have hout : Monotone ⟨{ ticking 999999 with pc := .poll [] (0 : Nat) }, 0, 0⟩
      { ticking 999999 with pc := .timerFire } :=
    monotone_timesOut (0 : Nat) rfl rfl (Nat.zero_le _)
  have fired := hrun.snoc (.mk (timesOut_step rfl rfl) hout)
  refine ⟨_, _, _, fired,
    .mk (.timerEvent rfl rfl) ⟨le_rfl, fun fds timeoutMs hpc => by simp [Timed.next] at hpc⟩,
    rfl, rfl, ?_⟩
  exact fires_almost_on_time fired
    (.mk (.timerEvent rfl rfl) ⟨le_rfl, fun fds timeoutMs hpc => by simp [Timed.next] at hpc⟩) _
    List.mem_cons_self

/-- A process with its app, and what its clock has read. -/
structure Clocked (Model Input Event : Type) where
  timed : Timed
  boxes : Boxes Model Input Event

def Clocked.system {Model Input Event : Type} (x : Clocked Model Input Event) :
    System Model Input Event := ⟨x.timed.world, x.boxes⟩

section
variable {Model Input Event : Type} {app : Application Model Input Event}
  {parseRawStdin : List UInt8 → Input} {args : List String} {boxes : Boxes Model Input Event}

inductive ClockedStep (cap : Nat) (app : Application Model Input Event)
    (parseRawStdin : List UInt8 → Input) (args : List String) :
    Clocked Model Input Event → List Obs → Clocked Model Input Event → Prop
  | mk : Platform.Step cap app parseRawStdin args x.system es s → Monotone x.timed s.world →
      ClockedStep cap app parseRawStdin args x es ⟨x.timed.next s.world, s.boxes⟩

abbrev ClockedRuns (cap : Nat) (app : Application Model Input Event)
    (parseRawStdin : List UInt8 → Input) (args : List String)
    (boxes : Boxes Model Input Event) : List Obs → Clocked Model Input Event → Prop :=
  Run (ClockedStep cap app parseRawStdin args) ⟨Timed.initial, boxes⟩

theorem ClockedRuns.timed (h : ClockedRuns cap app parseRawStdin args boxes log x) :
    TimedRuns cap Monotone log x.timed := by
  refine Run.project Clocked.timed (fun hs => .inl ?_) h
  obtain ⟨hs, hmono⟩ := hs
  exact .mk (Platform.step_host hs) hmono

theorem ClockedRuns.system (h : ClockedRuns cap app parseRawStdin args boxes log x)
    (hsends : Platform.SendsNothing app args) :
    Platform.Runs cap app parseRawStdin args boxes log x.system := by
  refine Platform.spared_of_sendsNothing hsends
    (Run.project Clocked.system (fun hs => .inl ?_) h)
  obtain ⟨hs, -⟩ := hs
  exact hs

namespace ClockedRuns

def inPoll : Pc → Bool
  | .poll _ _ => true
  | _ => false

theorem still (h : ClockedRuns cap app parseRawStdin args boxes log x)
    (hs : Platform.Step cap app parseRawStdin args x.system es s)
    (hclock : s.world.clock = x.timed.world.clock)
    (hpc : inPoll x.timed.world.pc = false) :
    ClockedRuns cap app parseRawStdin args boxes (log ++ es) ⟨x.timed.next s.world, s.boxes⟩ := by
  have notPoll : ∀ fds timeoutMs, x.timed.world.pc ≠ .poll fds timeoutMs := by
    intro fds timeoutMs heq
    rw [heq] at hpc
    cases hpc
  exact h.snoc (.mk hs (Monotone.lenient _ _ (congrArg (· % 2 ^ 64) hclock) notPoll))

theorem silent (h : ClockedRuns cap app parseRawStdin args boxes log x)
    (hs : Host.Step cap x.timed.world [] w) (hclock : w.clock = x.timed.world.clock)
    (hpc : inPoll x.timed.world.pc = false) :
    ClockedRuns cap app parseRawStdin args boxes log ⟨x.timed.next w, x.boxes⟩ := by
  have all := h.still (.host hs (fun _ ho => absurd ho List.not_mem_nil) fun _ => rfl) hclock hpc
  rwa [List.append_nil] at all

theorem noted (h : ClockedRuns cap app parseRawStdin args boxes log x)
    (hs : Host.Step cap x.timed.world [o] w) (ho : Platform.isCall o = false)
    (hclock : w.clock = x.timed.world.clock)
    (hpc : inPoll x.timed.world.pc = false) :
    ClockedRuns cap app parseRawStdin args boxes (log ++ [o]) ⟨x.timed.next w, x.boxes⟩ :=
  h.still (.host hs (fun _ ho' => List.mem_singleton.mp ho' ▸ ho) fun _ => rfl) hclock hpc

end ClockedRuns

variable {settings : TerminalSettings} {c : Context}

theorem given_init (h : .init c ∈ seen log) : c.nowNanos ∈ given log := by
  obtain ⟨o, ho, hv⟩ := List.mem_flatMap.mp h
  refine List.mem_filterMap.mpr ⟨o, ho, ?_⟩
  cases o with
  | rocInit ctx reply =>
    cases reply <;> simp only [visible, List.mem_singleton, List.not_mem_nil] at hv
    cases hv
    rfl
  | rocView settings model reply | rocUpdate ctx model event reply =>
    cases reply <;> simp [visible] at hv
  | _ => simp [visible] at hv

inductive Tells : Obs → Context × Signal → Prop
  | update : Tells (.rocUpdate ctx model event (.returned r heap)) (ctx, signal event.source)

theorem tells {told : Context × Signal} (ho : entry ∈ visible o) (ht : toldOf entry = some told) :
    Tells o told := by
  cases o with
  | rocUpdate ctx model event reply =>
    cases reply <;> simp only [visible, List.mem_singleton, List.not_mem_nil] at ho
    cases ho
    cases ht
    exact .update
  | rocInit ctx reply | rocView settings model reply =>
    cases reply <;> simp only [visible, List.mem_singleton, List.not_mem_nil] at ho
    cases ho
    cases ht
  | effect =>
    cases List.mem_singleton.mp ho
    cases ht
  | _ => cases ho

theorem mem_told {log : List Obs} {next : Context × Signal} (h : next ∈ told (seen log)) :
    ∃ o ∈ log, Tells o next := by
  obtain ⟨entry, hentry, ht⟩ := List.mem_filterMap.mp h
  obtain ⟨o, ho, hv⟩ := List.mem_flatMap.mp hentry
  exact ⟨o, ho, tells hv ht⟩

theorem given_told {log : List Obs} {next : Context × Signal} (h : next ∈ told (seen log)) :
    next.1.nowNanos ∈ given log := by
  obtain ⟨o, ho, ht⟩ := mem_told h
  refine List.mem_filterMap.mpr ⟨o, ho, ?_⟩
  cases ht
  rfl

theorem told_step (hs : Platform.Step cap app parseRawStdin args s es s') :
    told (seen es) = [] ∨ ∃ ctx model event r heap,
      es = [.rocUpdate ctx model event (.returned r heap)] := by
  rcases List.eq_nil_or_concat (told (seen es)) with hnone | ⟨before, next, hnext⟩
  · exact .inl hnone
  · have mem : next ∈ told (seen es) := by rw [hnext]; simp
    obtain ⟨o, ho, ht⟩ := mem_told mem
    cases ht with
    | update =>
      cases hs with
      | host _ quiet => cases quiet _ ho
      | makeEvent hs' =>
        obtain ⟨-, -, -, -, ⟨_, _, -, rfl, -⟩ | ⟨-, rfl, -⟩⟩ := Platform.makeEvent_step hs'
        · simp at ho
        · simp at ho
      | init | view => cases List.mem_singleton.mp ho
      | update =>
        cases List.mem_singleton.mp ho
        exact .inr ⟨_, _, _, _, _, rfl⟩

def ToldOnTime (app : Application Model Input Event) (parseRawStdin : List UInt8 → Input)
    (args : List String) (settings : TerminalSettings) (c : Context)
    (past : List (Context × Signal)) (next : Context × Signal) : Prop :=
  next.2 = .timer → ∃ turn p,
    (app.program parseRawStdin args settings).reached c past = some turn ∧
    turn.sub.timer = some p ∧
    (p.fireAt < next.1.nowNanos + 1000000 ∨
      ∀ t ∈ c.nowNanos :: past.map fun told => told.1.nowNanos, t + 2 ^ 31 * 1000000 ≤ p.fireAt)

theorem timer_of_signal {source : EventSource} (h : signal source = .timer) : source = .timer := by
  cases source with
  | timer => rfl
  | made call => cases call <;> cases h

theorem ClockedRuns.toldOnTime (h : ClockedRuns cap app parseRawStdin args boxes log x)
    (hsends : Platform.SendsNothing app args) (hhead : (seen log).head? = some (.init c)) :
    Always (ToldOnTime app parseRawStdin args settings c) (told (seen log)) := by
  refine Run.invariant_of (I := fun log _ => ∀ c, (seen log).head? = some (.init c) →
    Always (ToldOnTime app parseRawStdin args settings c) (told (seen log))) (fun hr => hr)
    (fun _ hhead => by cases hhead) ?_ h c hhead
  intro past x es x' hr ih hs c hhead
  obtain ⟨hs, -⟩ := hs
  rw [seen_append, told_append]
  rw [seen_append, List.head?_append] at hhead
  rcases told_step hs with hquiet | ⟨ctx, model, event, r, heap, rfl⟩
  · rw [hquiet, List.append_nil]
    cases hpast : seen past with
    | nil => exact Always.nil
    | cons entry rest =>
      rw [hpast] at hhead
      rw [← hpast]
      exact ih c (by rw [hpast]; exact hhead)
  · obtain ⟨phase, hrun, hmeets⟩ := Platform.played (ClockedRuns.system hr hsends)
    have hhost := Platform.step_host hs
    have hpc : x.timed.world.pc = .update event := (Platform.update_step hhost).1
    have hsystem : x.system.world.pc = .update event := hpc
    simp only [Platform.Meets, hsystem] at hmeets
    obtain ⟨turn, ev, rfl, -, hdeadline, -⟩ := hmeets
    obtain ⟨c', hasked⟩ := asked hrun rfl
    rw [hasked.head] at hhead
    cases hhead
    refine (ih c hasked.head).concat fun htimer => ?_
    have due := nearlyDue (ClockedRuns.timed hr)
    simp only [NearlyDue, hpc] at due
    obtain ⟨p, hp, hnear⟩ := due (timer_of_signal htimer)
    obtain ⟨q, hq, hfire⟩ := hdeadline p hp
    have hnow : ctx.nowNanos = x.timed.world.nowNanos :=
      given_step hhost ctx.nowNanos List.mem_cons_self
    refine ⟨turn, q, hasked.reached, hq, ?_⟩
    rw [← hfire, hnow]
    refine hnear.imp_right fun far t ht => far t ?_
    rcases List.mem_cons.mp ht with rfl | ht
    · exact given_init (List.mem_of_mem_head? hasked.head)
    · obtain ⟨told, htold, rfl⟩ := List.mem_map.mp ht
      exact given_told htold

end

end RocTui.Deadline
