import RocTui.Deadline
import RocTui.Hearing

namespace RocTui.TimerExample

open RocTui.Lib RocTui.Lib.Elm
open RocTui.Abi RocTui.Markup RocTui.Frame RocTui.Timer RocTui.Deadline
open RocTui.Host (World)
open RocTui.Platform (Boxes visible waits seen)
open RocTui.App (Ansi Application Signal)

structure Model where
  count : Nat
  timer : Nat

inductive Event (Input : Type)
  | UserTyped (input : Input)
  | TimerFired

variable {Input : Type} (ansi : Ansi Input)

def inputToEvent (input : Input) : Event Input := .UserTyped input

def period : Nat := 5000000000

def subs (fireAt : Nat) : App.Subscriptions Input (Event Input) where
  stdin := some fun input => some (inputToEvent input)
  acceptTcpConnection := none
  tcpConnect := none
  tcpReceive := none
  timer := some ⟨fireAt, .TimerFired⟩

def plus (a b : Nat) : Option Nat := if a + b < 2 ^ 64 then some (a + b) else none

def init (ctx : Context) (_ : List String) : Option (App.Result Model Input (Event Input)) := do
  let fireAt ← plus ctx.nowNanos period
  pure ⟨⟨0, 0⟩, subs fireAt, []⟩

def update (ctx : Context) (model : Model) :
    Event Input → Option (App.Result Model Input (Event Input))
  | .UserTyped input =>
    if ansi.ctrlC input then some ⟨model, .none, []⟩
    else some ⟨model, subs model.timer, []⟩
  | .TimerFired => do
    let count ← plus model.count 1
    let timer ← plus ctx.nowNanos period
    pure ⟨⟨count, timer⟩, subs timer, []⟩

def view (_ : TerminalSettings) (model : Model) : View :=
  let countStr := toString model.count
  .RawMode
    [[.Fg .Green, .Text "═══ Timer Example ═══", .Reset],
      [.Text "", .Reset],
      [.Text "Timer has fired: ", .Fg .Yellow, .Text countStr, .Fg .White, .Text " times", .Reset],
      [.Text "", .Reset],
      [.Fg .Cyan, .Text "Press Ctrl+C to exit", .Reset],
      [.Text "", .Reset],
      [.Fg .BrightBlack, .Text "Timer fires every 5 seconds", .Reset]]

def application : Application Model Input (Event Input) where
  init := init
  update := update ansi
  view settings model := some (view settings model)

def fires (script : List (Context × Signal)) : List Nat :=
  script.filterMap fun told => if told.2 = .timer then some told.1.nowNanos else none

/-- When it is to fire next.  Keys read before it has fired at all make it due at once. -/
def deadline (start : Nat) (script : List (Context × Signal)) : Nat :=
  match (fires script).getLast? with
  | some fired => fired + period
  | none => if script = [] then start + period else 0

variable {ansi} {args : List String} {settings : TerminalSettings} {c : Context}
  {script : List (Context × Signal)} {turn : App.Result Model Input (Event Input)}

abbrev program (ansi : Ansi Input) (args : List String) (settings : TerminalSettings) :=
  (application ansi).program ansi.parseRawStdin args settings

structure Ticks (c : Context) (script : List (Context × Signal))
    (turn : App.Result Model Input (Event Input)) : Prop where
  count : turn.m.count = (fires script).length
  timer : turn.m.timer = ((fires script).getLast?.map (· + period)).getD 0
  sub : turn.sub = subs (deadline c.nowNanos script) ∨ turn.sub = .none

theorem plus_eq_some {a b n : Nat} (h : plus a b = some n) : n = a + b := by
  unfold plus at h
  split at h
  · exact (Option.some.inj h).symm
  · cases h

theorem fires_keys (c' : Context) (bytes : List UInt8) :
    fires (script ++ [(c', .keys bytes)]) = fires script := by
  simp [fires]

theorem fires_timer (c' : Context) :
    fires (script ++ [(c', .timer)]) = fires script ++ [c'.nowNanos] := by
  simp [fires]

theorem deadline_nil (start : Nat) : deadline start [] = start + period := by
  simp [deadline, fires]

theorem deadline_concat (start : Nat) (told : Context × Signal) :
    deadline start (script ++ [told]) =
      ((fires (script ++ [told])).getLast?.map (· + period)).getD 0 := by
  unfold deadline
  cases (fires (script ++ [told])).getLast? <;> simp

theorem ticks (h : (program ansi args settings).reached c script = some turn) :
    Ticks c script turn := by
  refine reached_induction (p := program ansi args settings) (I := Ticks c) (fun turn hi => ?_) ?_ h
  · have begun : init c args = some turn := hi
    unfold init at begun
    obtain ⟨fireAt, hplus, hturn⟩ := Option.bind_eq_some_iff.mp begun
    cases hturn
    refine ⟨rfl, rfl, .inl ?_⟩
    rw [deadline_nil, plus_eq_some hplus]
  · rintro script turn ⟨c', signal⟩ turn' - ih hanswer
    obtain ⟨event, hevent, hupdate⟩ := event_of_answer hanswer
    rcases ih.sub with hsub | hsub
    · rw [hsub] at hevent
      cases signal with
      | keys bytes =>
        cases hevent
        have typed : update ansi c' turn.m (.UserTyped (ansi.parseRawStdin bytes)) = some turn' :=
          hupdate
        rw [update] at typed
        split at typed <;> cases typed
        · refine ⟨?_, ?_, .inr rfl⟩ <;> rw [fires_keys]
          · exact ih.count
          · exact ih.timer
        · refine ⟨?_, ?_, .inl ?_⟩
          · rw [fires_keys]
            exact ih.count
          · rw [fires_keys]
            exact ih.timer
          · rw [deadline_concat, fires_keys, ← ih.timer]
      | timer =>
        cases hevent
        have fired : update ansi c' turn.m .TimerFired = some turn' := hupdate
        unfold update at fired
        obtain ⟨count, hcount, hrest⟩ := Option.bind_eq_some_iff.mp fired
        obtain ⟨timer, htimer, hturn⟩ := Option.bind_eq_some_iff.mp hrest
        cases hturn
        rw [plus_eq_some hcount, plus_eq_some htimer]
        refine ⟨?_, ?_, .inl ?_⟩
        · rw [fires_timer, List.length_append, ← ih.count]
          rfl
        · rw [fires_timer, List.getLast?_concat]
          rfl
        · rw [deadline_concat, fires_timer, List.getLast?_concat]
          rfl
      | connected | disconnected | received => cases hevent
    · rw [hsub] at hevent
      cases signal <;> cases hevent

theorem reached_timer {q : App.Timer (Event Input)}
    (h : (program ansi args settings).reached c script = some turn)
    (hq : turn.sub.timer = some q) : q.fireAt = deadline c.nowNanos script := by
  rcases (ticks h).sub with hsub | hsub
  · rw [hsub] at hq
    cases hq
    rfl
  · rw [hsub] at hq
    cases hq

theorem not_far (start : Nat) (script : List (Context × Signal)) :
    ¬∀ t ∈ start :: script.map fun told => told.1.nowNanos,
      t + 2 ^ 31 * 1000000 ≤ deadline start script := by
  intro far
  cases hlast : (fires script).getLast? with
  | none =>
    have late := far start List.mem_cons_self
    rw [deadline, hlast] at late
    simp only [period] at late
    split at late <;> omega
  | some fired =>
    obtain ⟨⟨c', signal⟩, hmem, hfired⟩ := List.mem_filterMap.mp (List.mem_of_getLast? hlast)
    have late := far c'.nowNanos (List.mem_cons_of_mem _ (List.mem_map_of_mem hmem))
    rw [deadline, hlast] at late
    dsimp only at hfired
    split at hfired
    · cases hfired
      simp only [period] at late
      omega
    · cases hfired

/-- A fire comes less than a millisecond before it is due. -/
def Due (start : Nat) (past : List (Context × Signal)) (next : Context × Signal) : Prop :=
  next.2 = .timer → deadline start past < next.1.nowNanos + 1000000

theorem due (h : ToldOnTime (application ansi) ansi.parseRawStdin args settings c past next) :
    Due c.nowNanos past next := by
  intro htimer
  obtain ⟨turn, q, hreached, hq, honTime⟩ := h htimer
  rw [reached_timer hreached hq] at honTime
  exact honTime.resolve_right (not_far c.nowNanos past)

def Apart (first second : Nat) : Prop := first + period < second + 1000000

theorem apart (h : Always (Due start) script) : (fires script).IsChain Apart := by
  induction script using List.reverseRecOn with
  | nil => exact .nil
  | append_singleton script told ih =>
    obtain ⟨hbefore, hdue⟩ := h.of_concat
    obtain ⟨c', signal⟩ := told
    by_cases htimer : signal = .timer
    · subst htimer
      rw [fires_timer, List.isChain_append]
      refine ⟨ih hbefore, .singleton _, fun fired hfired next hnext => ?_⟩
      have late := hdue rfl
      rw [deadline, hfired] at late
      cases hnext
      exact late
    · have same : fires (script ++ [(c', signal)]) = fires script := by simp [fires, htimer]
      rw [same]
      exact ih hbefore

theorem sendsNothing : Platform.SendsNothing (application ansi) args where
  init ctx turn hi stream data hmem := by
    have begun : TimerExample.init ctx args = some turn := hi
    rw [TimerExample.init] at begun
    obtain ⟨fireAt, -, hturn⟩ := Option.bind_eq_some_iff.mp begun
    cases hturn
    cases hmem
  update ctx m ev turn hu stream data hmem := by
    have updated : TimerExample.update ansi ctx m ev = some turn := hu
    cases ev with
    | UserTyped input =>
      rw [TimerExample.update] at updated
      split at updated <;> cases updated <;> cases hmem
    | TimerFired =>
      rw [TimerExample.update] at updated
      obtain ⟨count, -, hrest⟩ := Option.bind_eq_some_iff.mp updated
      obtain ⟨timer, -, hturn⟩ := Option.bind_eq_some_iff.mp hrest
      cases hturn
      cases hmem

/-- The timer fires at most every five seconds and the app counts how often. -/
theorem fires_every_five_seconds {cap : Nat} {boxes : Boxes Model Input (Event Input)}
    {log : List Host.Obs} {x : Clocked Model Input (Event Input)}
    (h : ClockedRuns cap (application ansi) ansi.parseRawStdin args boxes log x)
    (hhead : (seen log).head? = some (.init c)) :
    Always (Due c.nowNanos) (told (seen log)) ∧ (fires (told (seen log))).IsChain Apart ∧
    (waits x.timed.world.pc = true → ∃ m,
      x.boxes.model x.timed.world.currentModel = some m ∧
      m.count = (fires (told (seen log))).length ∧
      ∀ p, x.timed.world.currentSubs.timer = .Ok p →
        p.fireAt = deadline c.nowNanos (told (seen log))) := by
  have hears : Always (ToldOnTime (application ansi) ansi.parseRawStdin args
    x.timed.world.settings c) (told (seen log)) := h.toldOnTime sendsNothing hhead
  have onTime : Always (Due c.nowNanos) (told (seen log)) := hears.imp fun _ _ => due
  refine ⟨onTime, apart onTime, fun hwaits => ?_⟩
  obtain ⟨phase, hrun, hmeets⟩ := Platform.played (h.system sendsNothing)
  obtain ⟨turn, rfl, held⟩ := hmeets.waiting hwaits
  obtain ⟨c', hhead', -, hreached⟩ := complete hrun
  rw [hhead] at hhead'
  cases hhead'
  refine ⟨turn.m, held.model, (ticks hreached).count, fun p hp => ?_⟩
  obtain ⟨q, hq, hfire⟩ := Platform.sameDeadline held.subscribed p hp
  rw [hfire]
  exact reached_timer hreached hq

def keyboard : Ansi Unit := ⟨fun _ => (), fun _ => "x", fun _ => .other⟩

def holding (m : Model) : Boxes Model Unit (Event Unit) where
  model _ := some m
  event _ := some .TimerFired
  onInput _ := some fun input => some (inputToEvent input)
  onStream _ := none
  onData _ := none

def record (fireAt : Nat) : UpdateForHost where
  sub := { Subscriptions.none with
    stdin := .Ok (.readOnly 1)
    timer := .Ok ⟨fireAt, .readOnly 2⟩ }
  effects := ⟨.null, []⟩
  m := .readOnly 0

theorem holding_record (m : Model) (fireAt : Nat) :
    (holding m).Record ⟨m, subs fireAt, []⟩ (record fireAt) where
  held := ⟨rfl, ⟨rfl, trivial, trivial, trivial, ⟨rfl, rfl⟩⟩⟩
  effects := rfl

theorem update_fired (ctx : Context) (h : ctx.nowNanos + period < 2 ^ 64) :
    update keyboard ctx ⟨0, 0⟩ .TimerFired =
      some ⟨⟨1, ctx.nowNanos + period⟩, subs (ctx.nowNanos + period), []⟩ := by
  have hplus : plus ctx.nowNanos period = some (ctx.nowNanos + period) := if_pos h
  rw [update, hplus]
  rfl

theorem fired_at (t : Nat) (hdue : period ≤ t) (hfit : t + period < 2 ^ 64) : ∃ log x,
    ClockedRuns 65536 (application keyboard) keyboard.parseRawStdin [] (holding ⟨0, 0⟩) log x ∧
    (seen log).head? = some (.init ⟨0⟩) ∧ fires (told (seen log)) = [t] ∧
    waits x.timed.world.pc = true := by
  have hnow : t % 2 ^ 64 = t := Nat.mod_eq_of_lt (by omega)
  have begun : Platform.Answers (holding ⟨0, 0⟩).Record
      (Platform.initForHost (application keyboard) ⟨0⟩ [])
      (.returned (record period) World.initial.io.heap) := .value (holding_record ⟨0, 0⟩ period)
  have page (m : Model) : Platform.Answers (fun rows v => rowsOf v = rows)
      (Platform.viewForHost (application keyboard) (holding m) ⟨80, 24⟩ (.readOnly 0))
      (.returned (Platform.Runs.strings (view ⟨80, 24⟩ m)) World.initial.io.heap) :=
    .value (Platform.Runs.rowsOf_strings _)
  let fired : Model := ⟨1, t % 2 ^ 64 + period⟩
  have again : Platform.Answers (holding fired).Record
      (Platform.updateForHost (application keyboard) (holding ⟨0, 0⟩) ⟨t % 2 ^ 64⟩ (.readOnly 0)
        (.readOnly 2))
      (.returned (record (t % 2 ^ 64 + period)) World.initial.io.heap) := by
    have said := update_fired ⟨t % 2 ^ 64⟩ (by simpa only [hnow] using hfit)
    have model : (holding ⟨0, 0⟩).model (.readOnly 0) = some ⟨0, 0⟩ := rfl
    have event : (holding ⟨0, 0⟩).event (.readOnly 2) = some .TimerFired := rfl
    have updates : (application keyboard).update ⟨t % 2 ^ 64⟩ ⟨0, 0⟩ .TimerFired =
      some ⟨fired, subs (t % 2 ^ 64 + period), []⟩ := said
    rw [Platform.updateForHost, model, Script.expectSome_some, Script.ok_bind, event,
      Script.expectSome_some, Script.ok_bind, updates]
    exact .value (holding_record fired _)
  have start : ClockedRuns 65536 (application keyboard) keyboard.parseRawStdin [] (holding ⟨0, 0⟩)
      [] ⟨Timed.initial, holding ⟨0, 0⟩⟩ := .nil
  have entered := start.silent (.enterTerminal rfl) rfl rfl
  have sized := entered.noted (@Host.Step.sizeRead _ _ 80 24 rfl) rfl rfl rfl
  have inited := ClockedRuns.still sized (.init (.initReturns rfl) begun) rfl rfl
  have noTcp := ClockedRuns.silent inited (.goto (.tcpNotRequested rfl rfl)) rfl rfl
  have asked := ClockedRuns.silent noTcp (.goto (.initEffectsDone rfl)) rfl rfl
  have retained := ClockedRuns.silent asked (.increfStatic rfl rfl) rfl rfl
  have viewed := ClockedRuns.still retained (.view (.viewReturns rfl) (page ⟨0, 0⟩)
    fun _ held => held) rfl rfl
  have waits := ClockedRuns.silent viewed (.rendered rfl rfl) rfl rfl
  have loops := ClockedRuns.silent waits (.goto (.waitBegins rfl rfl)) rfl rfl
  have pending := ClockedRuns.silent loops (.goto (.timerPending rfl rfl)) rfl rfl
  have polls := ClockedRuns.silent pending (.goto (.timeout rfl rfl)) rfl rfl
  have quiet : ∀ o ∈ ([] : List Host.Obs), Platform.isCall o = false :=
    fun _ ho => absurd ho List.not_mem_nil
  have ticked := polls.snoc_silent (.mk (.host (@Host.Step.tick _ _ t rfl) quiet fun _ => rfl)
    ⟨Nat.zero_le _, fun _ _ _ hfire => by cases hfire⟩)
  have reached : 0 + (5000 : Nat) * 1000000 ≤ t % 2 ^ 64 := by
    unfold period at hdue
    omega
  have polled : Host.Polled World.initial.net [⟨.stdin, .none⟩] [⟨.stdin, .none⟩] 0 :=
    ⟨rfl, rfl, by simp⟩
  have timedOut := ticked.snoc_silent
    (.mk (.host (.goto (.pollTimesOut rfl polled rfl)) quiet fun _ => rfl)
    (monotone_timesOut (5000 : Nat) rfl rfl reached))
  have event := ClockedRuns.noted timedOut (.timerEvent rfl rfl) rfl rfl rfl
  have answered := ClockedRuns.still event (.update (.updateReturns rfl) again) rfl rfl
  have done := ClockedRuns.silent answered (.updateEffectsDone rfl) rfl rfl
  have retainedAgain := ClockedRuns.silent done (.increfStatic rfl rfl) rfl rfl
  have viewedAgain := ClockedRuns.still retainedAgain (.view (.viewReturns rfl) (page fired)
    fun _ held => held) rfl rfl
  have waitsAgain := ClockedRuns.silent viewedAgain (.rendered rfl rfl) rfl rfl
  exact ⟨_, _, waitsAgain, rfl, congrArg (fun t => [t]) hnow, rfl⟩

theorem fires_every_five_seconds_once : ∃ log x,
    ClockedRuns 65536 (application keyboard) keyboard.parseRawStdin [] (holding ⟨0, 0⟩) log x ∧
    fires (told (seen log)) = [period] ∧
    ∃ m, x.boxes.model x.timed.world.currentModel = some m ∧ m.count = 1 := by
  have hfit : period + period < 2 ^ 64 := by
    unfold period
    omega
  obtain ⟨log, x, hrun, hhead, hfires, hwaits⟩ := fired_at period le_rfl hfit
  obtain ⟨-, -, counts⟩ := fires_every_five_seconds hrun hhead
  obtain ⟨m, hm, hcount, -⟩ := counts hwaits
  rw [hfires] at hcount
  exact ⟨log, x, hrun, hfires, m, hm, hcount⟩

end RocTui.TimerExample
