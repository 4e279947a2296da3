import RocTui.Handover
import RocTui.Rounds

namespace RocTui.Platform

open RocTui.Lib RocTui.Lib.Script RocTui.Lib.Elm
open RocTui.Abi RocTui.Tcp RocTui.Dispatch RocTui.Effects RocTui.Host RocTui.Frame
open RocTui.App (Application Signal)

def waits : Pc → Bool
  | .render _ | .wait | .loop _ | .timeout _ | .poll _ _ | .timerFire | .readByte _ | .tryRecv _
  | .readStdin _ => true
  | _ => false

variable {Model Input Event : Type} {cap : Nat} {app : Application Model Input Event}
  {parseRawStdin : List UInt8 → Input} {args : List String}

theorem exits_of_continues {e : Abi.Effect} (h : handleEffect o io e = (none, io', outcome)) :
    (effectValue e).exits = false := by
  cases handled h <;> rfl

def SameDeadline (s : Abi.Subscriptions) (sub : App.Subscriptions Input Event) : Prop :=
  ∀ p, s.timer = .Ok p → ∃ q, sub.timer = some q ∧ p.fireAt = q.fireAt

/-- Where the host stands, seen from the app. -/
def Meets (parseRawStdin : List UInt8 → Input) (s : System Model Input Event)
    (phase : Phase Model (App.Subscriptions Input Event) App.Effect Event Signal) : Prop :=
  match s.world.pc with
  | .start | .size | .init => phase = .init
  | .startTcp effects | .clientNotify _ effects | .effects effects none => ∃ turn,
    phase = .effects (effects.map effectValue) turn ∧
    s.boxes.Held s.world.currentModel s.world.currentSubs turn
  | .effects rest (some r) => ∃ turn,
    phase = .effects (rest.map effectValue) turn ∧ s.boxes.Held r.m r.sub turn
  | .incref | .view => ∃ turn,
    phase = .view turn ∧ s.boxes.Held s.world.currentModel s.world.currentSubs turn
  | .makeEvent call => ∃ turn out,
    phase = .wait turn ∧ s.boxes.model s.world.currentModel = some turn.m ∧
    SameDeadline s.world.currentSubs turn.sub ∧
    turn.sub.event parseRawStdin (signalOf call) = some out ∧
    makeEvent parseRawStdin s.boxes call = expectSome out .crash
  | .update event => ∃ turn ev,
    phase = .update turn (signal event.source) ev ∧
    s.boxes.model s.world.currentModel = some turn.m ∧
    SameDeadline s.world.currentSubs turn.sub ∧ s.boxes.event event.box = some ev
  | .crashed _ => phase = .crashed
  | .exited _ | .panicked | .misread => phase = .ended
  | _ => ∃ turn,
    phase = .wait turn ∧ s.boxes.Held s.world.currentModel s.world.currentSubs turn

theorem meets_effects {s : System Model Input Event}
    {phase : Phase Model (App.Subscriptions Input Event) App.Effect Event Signal}
    (hpc : s.world.pc = .effects rest next) :
    Meets parseRawStdin s phase ↔ ∃ turn, phase = .effects (rest.map effectValue) turn ∧
      s.boxes.Held (next.elim s.world.currentModel UpdateForHost.m)
        (next.elim s.world.currentSubs UpdateForHost.sub) turn := by
  unfold Meets
  cases next with
  | none =>
    rw [hpc]
    rfl
  | some r =>
    rw [hpc]
    rfl

theorem Meets.waiting {s : System Model Input Event}
    {phase : Phase Model (App.Subscriptions Input Event) App.Effect Event Signal}
    (hmeets : Meets parseRawStdin s phase) (hwaits : waits s.world.pc = true) :
    ∃ turn, phase = .wait turn ∧ s.boxes.Held s.world.currentModel s.world.currentSubs turn := by
  cases hpc : s.world.pc <;> simp only [hpc, waits, Bool.false_eq_true] at hwaits <;>
    simpa only [Meets, hpc] using hmeets

theorem TryHolds.ok {α β : Type} {R : α → β → Prop} {a : α} {o : Option β}
    (h : TryHolds R (.Ok a) o) : ∃ b, o = some b ∧ R a b := by
  cases o with
  | none => exact h.elim
  | some b => exact ⟨b, rfl, h⟩

theorem TryHolds.err {α β : Type} {R : α → β → Prop} {o : Option β} (h : TryHolds R .Err o) :
    o = none := by
  cases o with
  | none => rfl
  | some b => exact h.elim

theorem sameDeadline {boxes : Boxes Model Input Event} {subs : Abi.Subscriptions}
    {sub : App.Subscriptions Input Event} (h : boxes.Subscribed subs sub) :
    SameDeadline subs sub := by
  intro p hp
  have holds := h.timer
  rw [hp] at holds
  obtain ⟨q, hq, heq, -⟩ := holds.ok
  exact ⟨q, hq, heq⟩

theorem payloadOk_eq_ok {α : Type} {t : TryResult α} {a : α} (h : t.payloadOk = .ok a) :
    t = .Ok a := by
  cases t with
  | Err => cases h
  | Ok p =>
    cases h
    rfl

theorem event_of_call (parseRawStdin : List UInt8 → Input) {boxes : Boxes Model Input Event}
    {subs : Abi.Subscriptions} {sub : App.Subscriptions Input Event}
    (hsub : boxes.Subscribed subs sub) (hc : FromSubs subs call) :
    ∃ out, sub.event parseRawStdin (signalOf call) = some out ∧
      makeEvent parseRawStdin boxes call = expectSome out .crash := by
  cases hc with
  | stdin h =>
    have holds := hsub.stdin
    rw [h] at holds
    obtain ⟨fn, hfn, hbox⟩ := holds.ok
    refine ⟨fn (parseRawStdin _), by simp only [signalOf, App.Subscriptions.event, hfn]; rfl, ?_⟩
    rw [makeEvent, makeEventFromListU8, hbox]
    rfl
  | acceptConnected h =>
    have holds := hsub.acceptTcpConnection
    rw [h] at holds
    obtain ⟨q, hq, -, -, hbox, -⟩ := holds.ok
    refine ⟨q.onConnected _, by simp only [signalOf, App.Subscriptions.event, hq]; rfl, ?_⟩
    rw [makeEvent, makeEventFromTcpConnected, makeEventFromTcpStream, hbox]
    rfl
  | connectConnected hno h =>
    have none := hsub.acceptTcpConnection
    have holds := hsub.tcpConnect
    rw [hno] at none
    rw [h] at holds
    obtain ⟨q, hq, -, -, hbox, -⟩ := holds.ok
    refine ⟨q.onConnected _, by
      simp only [signalOf, App.Subscriptions.event, none.err, hq]; rfl, ?_⟩
    rw [makeEvent, makeEventFromTcpConnected, makeEventFromTcpStream, hbox]
    rfl
  | acceptDisconnected h =>
    have holds := hsub.acceptTcpConnection
    rw [h] at holds
    obtain ⟨q, hq, -, -, -, hbox⟩ := holds.ok
    refine ⟨q.onDisconnected _, by simp only [signalOf, App.Subscriptions.event, hq]; rfl, ?_⟩
    rw [makeEvent, makeEventFromTcpDisconnected, makeEventFromTcpStream, hbox]
    rfl
  | connectDisconnected hno h =>
    have none := hsub.acceptTcpConnection
    have holds := hsub.tcpConnect
    rw [hno] at none
    rw [h] at holds
    obtain ⟨q, hq, -, -, -, hbox⟩ := holds.ok
    refine ⟨q.onDisconnected _, by
      simp only [signalOf, App.Subscriptions.event, none.err, hq]; rfl, ?_⟩
    rw [makeEvent, makeEventFromTcpDisconnected, makeEventFromTcpStream, hbox]
    rfl
  | receive h =>
    have holds := hsub.tcpReceive
    rw [h] at holds
    obtain ⟨fn, hfn, hbox⟩ := holds.ok
    refine ⟨fn _ _, by simp only [signalOf, App.Subscriptions.event, hfn]; rfl, ?_⟩
    rw [makeEvent, makeEventFromTcpReceive, hbox]
    rfl

section

variable {w w' : World} {es : List Host.Obs}

theorem init_step {reply : Reply InitForHost} (hs : Host.Step cap w [.rocInit ctx reply] w') :
    w.pc = .init ∧ w'.settings = w.settings ∧
    ((∃ r heap, reply = .returned r heap ∧ w'.pc = .startTcp r.effects.asSlice ∧
      w'.currentModel = r.m ∧ w'.currentSubs = r.sub) ∨
    (reply = .crashed ∧ w'.pc = .crashed .init)) := by
  generalize hes : [Host.Obs.rocInit ctx reply] = es at hs
  cases hs with
  | initReturns hpc =>
    cases hes
    exact ⟨hpc, rfl, .inl ⟨_, _, rfl, rfl, rfl, rfl⟩⟩
  | initCrashes hpc =>
    cases hes
    exact ⟨hpc, rfl, .inr ⟨rfl, rfl⟩⟩
  | thread hrun ht => cases ht <;> simp at hes
  | _ => simp at hes

theorem view_step {reply : Reply ViewForHostResult}
    (hs : Host.Step cap w [.rocView settings model reply] w') :
    w.pc = .view ∧ settings = w.settings ∧ model = w.currentModel ∧ w'.settings = w.settings ∧
    w'.currentModel = w.currentModel ∧ w'.currentSubs = w.currentSubs ∧
    ((∃ v heap, reply = .returned v heap ∧ w'.pc = .render v) ∨
    (reply = .crashed ∧ w'.pc = .crashed .view)) := by
  generalize hes : [Host.Obs.rocView settings model reply] = es at hs
  cases hs with
  | viewReturns hpc =>
    cases hes
    exact ⟨hpc, rfl, rfl, rfl, rfl, rfl, .inl ⟨_, _, rfl, rfl⟩⟩
  | viewCrashes hpc =>
    cases hes
    exact ⟨hpc, rfl, rfl, rfl, rfl, rfl, .inr ⟨rfl, rfl⟩⟩
  | thread hrun ht => cases ht <;> simp at hes
  | _ => simp at hes

theorem makeEvent_step {reply : Reply RocBox}
    (hs : Host.Step cap w (.makeEvent call reply :: es) w') :
    w.pc = .makeEvent call ∧ w'.settings = w.settings ∧ w'.currentModel = w.currentModel ∧
    w'.currentSubs = w.currentSubs ∧
    ((∃ box heap, reply = .returned box heap ∧ es = [.event ⟨box, .made call⟩] ∧
      w'.pc = .update ⟨box, .made call⟩) ∨
    (reply = .crashed ∧ es = [] ∧ w'.pc = .crashed (.makeEvent call))) := by
  generalize hes : Host.Obs.makeEvent call reply :: es = all at hs
  cases hs with
  | eventMade hpc =>
    cases hes
    exact ⟨hpc, rfl, rfl, rfl, .inl ⟨_, _, rfl, rfl, rfl⟩⟩
  | makeEventCrashes hpc =>
    cases hes
    exact ⟨hpc, rfl, rfl, rfl, .inr ⟨rfl, rfl, rfl⟩⟩
  | thread hrun ht => cases ht <;> simp at hes
  | _ => simp at hes

theorem update_step {reply : Reply UpdateForHost}
    (hs : Host.Step cap w [.rocUpdate ctx model event reply] w') :
    w.pc = .update event ∧ model = w.currentModel ∧ w'.settings = w.settings ∧
    ((∃ r heap, reply = .returned r heap ∧ w'.pc = .effects r.effects.asSlice (some r)) ∨
    (reply = .crashed ∧ w'.pc = .crashed (.update event))) := by
  generalize hes : [Host.Obs.rocUpdate ctx model event reply] = es at hs
  cases hs with
  | updateReturns hpc =>
    cases hes
    exact ⟨hpc, rfl, rfl, .inl ⟨_, _, rfl, rfl⟩⟩
  | updateCrashes hpc =>
    cases hes
    exact ⟨hpc, rfl, rfl, .inr ⟨rfl, rfl⟩⟩
  | thread hrun ht => cases ht <;> simp at hes
  | _ => simp at hes

end

def Played (app : Application Model Input Event) (parseRawStdin : List UInt8 → Input)
    (args : List String) (log : List Host.Obs) (s : System Model Input Event) : Prop :=
  ∃ phase, Run (app.program parseRawStdin args s.world.settings).Step .init (seen log) phase ∧
    Meets parseRawStdin s phase

theorem Played.still (h : Played app parseRawStdin args log s) (hquiet : seen es = [])
    (settings : s'.world.settings = s.world.settings)
    (meets : ∀ phase, Meets parseRawStdin s phase → Meets parseRawStdin s' phase) :
    Played app parseRawStdin args (log ++ es) s' := by
  obtain ⟨phase, hrun, hmeets⟩ := h
  refine ⟨phase, ?_, meets phase hmeets⟩
  rw [seen_append, hquiet, List.append_nil, settings]
  exact hrun

theorem Played.move (h : Played app parseRawStdin args log s)
    (settings : s'.world.settings = s.world.settings)
    (meets : ∀ phase, Meets parseRawStdin s phase → ∃ phase',
      (app.program parseRawStdin args s.world.settings).Step phase (seen es) phase' ∧
      Meets parseRawStdin s' phase') : Played app parseRawStdin args (log ++ es) s' := by
  obtain ⟨phase, hrun, hmeets⟩ := h
  obtain ⟨phase', hs, hmeets'⟩ := meets phase hmeets
  refine ⟨phase', ?_, hmeets'⟩
  rw [seen_append, settings]
  exact hrun.snoc hs

theorem Played.init {boxes : Boxes Model Input Event} {reply : Reply InitForHost}
    (h : Played app parseRawStdin args log s)
    (hs : Host.Step cap s.world [.rocInit ctx reply] w)
    (answer : Answers boxes.Record (initForHost app ctx args) reply) :
    Played app parseRawStdin args (log ++ [.rocInit ctx reply]) ⟨w, boxes⟩ := by
  obtain ⟨hpc, settings, hout⟩ := init_step hs
  refine h.move settings fun phase hmeets => ?_
  simp only [Meets, hpc] at hmeets
  subst hmeets
  unfold initForHost at answer
  cases hi : app.init ctx args with
  | none =>
    rw [hi] at answer
    cases answer with
    | crash =>
      rcases hout with ⟨r, heap, hr, -⟩ | ⟨-, hpc'⟩
      · cases hr
      · exact ⟨.crashed, .initCrashes hi, by simp only [Meets, hpc']⟩
  | some turn =>
    rw [hi] at answer
    cases answer with
    | value record =>
      rcases hout with ⟨r, heap, hr, hpc', hm, hsub⟩ | ⟨hr, -⟩
      · cases hr
        refine ⟨.effects turn.effects turn, .init hi, ?_⟩
        simp only [Meets, hpc', hm, hsub]
        exact ⟨turn, by rw [record.effects], record.held⟩
      · cases hr

theorem Played.view {boxes : Boxes Model Input Event} {reply : Reply ViewForHostResult}
    (h : Played app parseRawStdin args log s)
    (hs : Host.Step cap s.world [.rocView settings model reply] w)
    (answer : Answers (fun rows v => rowsOf v = rows) (viewForHost app s.boxes settings model)
      reply)
    (kept : ∀ turn, s.boxes.Held s.world.currentModel s.world.currentSubs turn →
      boxes.Held s.world.currentModel s.world.currentSubs turn) :
    Played app parseRawStdin args (log ++ [.rocView settings model reply]) ⟨w, boxes⟩ := by
  obtain ⟨hpc, rfl, rfl, settings, hm, hsub, hout⟩ := view_step hs
  refine h.move settings fun phase hmeets => ?_
  simp only [Meets, hpc] at hmeets
  obtain ⟨turn, rfl, held⟩ := hmeets
  rw [viewForHost, held.model, expectSome_some, ok_bind] at answer
  cases hv : app.view s.world.settings turn.m with
  | none =>
    rw [hv] at answer
    cases answer with
    | crash =>
      rcases hout with ⟨v, heap, hr, -⟩ | ⟨-, hpc'⟩
      · cases hr
      · have crashes : (app.program parseRawStdin args s.world.settings).view turn.m = none := by
          change (app.view s.world.settings turn.m).map _ = none
          rw [hv]
          rfl
        exact ⟨.crashed, .viewCrashes crashes, by simp only [Meets, hpc']⟩
  | some v =>
    rw [hv] at answer
    cases answer with
    | value rows =>
      rcases hout with ⟨v', heap, hr, hpc'⟩ | ⟨hr, -⟩
      · cases hr
        have shown : (app.program parseRawStdin args s.world.settings).view turn.m =
            some (Frame.viewForHost v) := by
          change (app.view s.world.settings turn.m).map _ = _
          rw [hv]
          rfl
        rw [← rows] at shown
        refine ⟨.wait turn, .view shown, ?_⟩
        simp only [Meets, hpc', hm, hsub]
        exact ⟨turn, rfl, kept turn held⟩
      · cases hr

theorem Played.makeEvent {boxes : Boxes Model Input Event} {reply : Reply RocBox}
    (h : Played app parseRawStdin args log s)
    (hs : Host.Step cap s.world (.makeEvent call reply :: es) w)
    (answer : Answers (fun event box => boxes.event box = some event)
      (makeEvent parseRawStdin s.boxes call) reply)
    (kept : boxes.model s.world.currentModel = s.boxes.model s.world.currentModel) :
    Played app parseRawStdin args (log ++ .makeEvent call reply :: es) ⟨w, boxes⟩ := by
  obtain ⟨hpc, settings, hm, hsub, hout⟩ := makeEvent_step hs
  refine h.move settings fun phase hmeets => ?_
  simp only [Meets, hpc] at hmeets
  obtain ⟨turn, out, rfl, hmodel, hdeadline, hevent, hmade⟩ := hmeets
  rw [hmade] at answer
  cases out with
  | none =>
    cases answer with
    | crash =>
      rcases hout with ⟨box, heap, hr, -⟩ | ⟨-, rfl, hpc'⟩
      · cases hr
      · exact ⟨.crashed, .eventCrashes hevent, by simp only [Meets, hpc']⟩
  | some ev =>
    cases answer with
    | value hbox =>
      rcases hout with ⟨box, heap, hr, rfl, hpc'⟩ | ⟨hr, -⟩
      · cases hr
        refine ⟨.update turn (signalOf call) ev, .event hevent, ?_⟩
        simp only [Meets, hpc', hm, hsub, kept]
        exact ⟨turn, ev, rfl, hmodel, hdeadline, hbox⟩
      · cases hr

theorem Played.update {boxes : Boxes Model Input Event} {reply : Reply UpdateForHost}
    (h : Played app parseRawStdin args log s)
    (hs : Host.Step cap s.world [.rocUpdate ctx model event reply] w)
    (answer : Answers boxes.Record (updateForHost app s.boxes ctx model event.box) reply) :
    Played app parseRawStdin args (log ++ [.rocUpdate ctx model event reply]) ⟨w, boxes⟩ := by
  obtain ⟨hpc, rfl, settings, hout⟩ := update_step hs
  refine h.move settings fun phase hmeets => ?_
  simp only [Meets, hpc] at hmeets
  obtain ⟨turn, ev, rfl, hmodel, -, hevent⟩ := hmeets
  rw [updateForHost, hmodel, expectSome_some, ok_bind, hevent, expectSome_some, ok_bind] at answer
  cases hu : app.update ctx turn.m ev with
  | none =>
    rw [hu] at answer
    cases answer with
    | crash =>
      rcases hout with ⟨r, heap, hr, -⟩ | ⟨-, hpc'⟩
      · cases hr
      · exact ⟨.crashed, .updateCrashes hu, by simp only [Meets, hpc']⟩
  | some turn' =>
    rw [hu] at answer
    cases answer with
    | value record =>
      rcases hout with ⟨r, heap, hr, hpc'⟩ | ⟨hr, -⟩
      · cases hr
        refine ⟨.effects turn'.effects turn', .update hu, ?_⟩
        simp only [Meets, hpc']
        exact ⟨turn', by rw [record.effects], record.held⟩
      · cases hr

theorem Meets.goto {s : System Model Input Event} (hw : s.world.WellFormed)
    (hg : Goto s.world pc) (hmeets : Meets parseRawStdin s phase) (args : List String) :
    Meets parseRawStdin { s with world := { s.world with pc := pc } } phase ∨
    ∃ phase', (app.program parseRawStdin args s.world.settings).Step phase [] phase' ∧
      Meets parseRawStdin { s with world := { s.world with pc := pc } } phase' := by
  cases hg with
  | initEffectsDone hpc =>
    simp only [Meets, hpc] at hmeets
    obtain ⟨turn, rfl, held⟩ := hmeets
    exact .inr ⟨.view turn, .effectsDone, turn, rfl, held⟩
  | unwrapsNone hpc =>
    simp only [Meets, hpc] at hmeets
    obtain ⟨turn, rfl, held⟩ := hmeets
    exact .inr ⟨.ended, .noEvent, rfl⟩
  | @stdinRead _ data closure hpc hclosure =>
    simp only [Meets, hpc] at hmeets
    obtain ⟨turn, rfl, held⟩ := hmeets
    have stdin : FromSubs s.world.currentSubs (.listU8 closure data) :=
      .stdin (payloadOk_eq_ok hclosure)
    obtain ⟨out, hevent, hmade⟩ := event_of_call parseRawStdin held.subscribed stdin
    exact .inl ⟨turn, out, rfl, held.model, sameDeadline held.subscribed, hevent, hmade⟩
  | misread hm => simp [hw.placed.reads_ok] at hm
  | _ hpc =>
    simp only [Meets, hpc] at hmeets
    exact .inl hmeets

theorem timerFireEvent_eq (parseRawStdin : List UInt8 → Input)
    {boxes : Boxes Model Input Event} {subs : Abi.Subscriptions}
    {sub : App.Subscriptions Input Event} (hsub : boxes.Subscribed subs sub)
    (ht : timerFireEvent subs = .ok (some box)) :
    ∃ ev, sub.event parseRawStdin .timer = some (some ev) ∧ boxes.event box = some ev := by
  have holds := hsub.timer
  cases htimer : subs.timer with
  | Err =>
    rw [timerFireEvent, htimer] at ht
    cases ht
  | Ok p =>
    rw [timerFireEvent, htimer] at ht
    cases ht
    rw [htimer] at holds
    obtain ⟨q, hq, -, hbox⟩ := holds.ok
    exact ⟨q.onFire, by simp only [App.Subscriptions.event, hq]; rfl, hbox⟩

theorem Played.host (h : Played app parseRawStdin args log s) (hw : s.world.WellFormed)
    (hs : Host.Step cap s.world es w) (quiet : ∀ o ∈ es, isCall o = false) :
    Played app parseRawStdin args (log ++ es) { s with world := w } := by
  have noCall {o : Host.Obs} (ho : o ∈ es) (hcall : isCall o = true) : False := by
    rw [quiet o ho] at hcall
    cases hcall
  cases hs with
  | initReturns | initCrashes | viewReturns | viewCrashes | eventMade | makeEventCrashes
  | updateReturns | updateCrashes => exact (noCall List.mem_cons_self rfl).elim
  | sizeRead hpc =>
    obtain ⟨phase, hrun, hmeets⟩ := h
    simp only [Meets, hpc] at hmeets
    subst hmeets
    refine ⟨.init, ?_, rfl⟩
    have none : seen log = [] := unborn hrun
    rw [seen_append, none]
    exact .nil
  | sizeFails hpc =>
    refine h.move rfl fun phase hmeets => ?_
    simp only [Meets, hpc] at hmeets
    subst hmeets
    exact ⟨.ended, .gone, rfl⟩
  | effect hpc he =>
    refine h.move rfl fun phase hmeets => ?_
    obtain ⟨turn, rfl, held⟩ := (meets_effects hpc).mp hmeets
    exact ⟨_, .effect (exits_of_continues he), (meets_effects rfl).mpr ⟨turn, rfl, held⟩⟩
  | exit hpc he =>
    refine h.move rfl fun phase hmeets => ?_
    obtain ⟨rfl, -, -⟩ := (handled he).exit_eq
    obtain ⟨turn, rfl, -⟩ := (meets_effects hpc).mp hmeets
    exact ⟨.ended, .exit rfl, rfl⟩
  | updateEffectsDone hpc =>
    refine h.move rfl fun phase hmeets => ?_
    simp only [Meets, hpc] at hmeets
    obtain ⟨turn, rfl, held⟩ := hmeets
    exact ⟨.view turn, .effectsDone, turn, rfl, held⟩
  | noEvent hn =>
    refine h.move rfl fun phase hmeets => ?_
    cases hn with
    | nothingActive hpc | pollFailed hpc | timerErr hpc =>
      simp only [Meets, hpc] at hmeets
      obtain ⟨turn, rfl, -⟩ := hmeets
      exact ⟨.ended, .noEvent, rfl⟩
  | recvDispatched hpc ht hchannel hdispatch =>
    refine h.still rfl rfl fun phase hmeets => ?_
    simp only [Meets, hpc] at hmeets
    obtain ⟨turn, rfl, held⟩ := hmeets
    obtain ⟨out, hevent, hmade⟩ :=
      event_of_call parseRawStdin held.subscribed (dispatched hdispatch).2.2
    exact ⟨turn, out, rfl, held.model, sameDeadline held.subscribed, hevent, hmade⟩
  | timerEvent hpc ht =>
    refine h.move rfl fun phase hmeets => ?_
    simp only [Meets, hpc] at hmeets
    obtain ⟨turn, rfl, held⟩ := hmeets
    obtain ⟨ev, hevent, hbox⟩ := timerFireEvent_eq parseRawStdin held.subscribed ht
    exact ⟨.update turn .timer ev, .event hevent, turn, ev, rfl, held.model,
      sameDeadline held.subscribed, hbox⟩
  | goto hg =>
    obtain ⟨phase, hrun, hmeets⟩ := h
    rw [List.append_nil]
    rcases hmeets.goto hw hg args with still | ⟨phase', hs', moved⟩
    · exact ⟨phase, hrun, still⟩
    · exact ⟨phase', hrun.snoc_silent hs', moved⟩
  | thread hrun ht => exact h.still (seen_net _) rfl fun phase hmeets => hmeets
  | tick => exact h.still rfl rfl fun phase hmeets => hmeets
  | _ hpc =>
    refine h.still rfl rfl fun phase hmeets => ?_
    simp only [Meets, hpc] at hmeets
    exact hmeets

theorem Played.step (h : Played app parseRawStdin args log s) (hw : s.world.WellFormed)
    (hs : Spares cap app parseRawStdin args s es s') :
    Played app parseRawStdin args (log ++ es) s' := by
  obtain ⟨hs, spared⟩ := hs
  cases hs with
  | host hs quiet =>
    obtain rfl := spared quiet
    exact h.host hw hs quiet
  | init hs answer => exact h.init hs answer
  | view hs answer kept => exact h.view hs answer kept
  | makeEvent hs answer kept => exact h.makeEvent hs answer kept
  | update hs answer => exact h.update hs answer

namespace Runs

variable {boxes boxes' : Boxes Model Input Event} {log : List Host.Obs} {w w' : World}

theorem none : Runs cap app parseRawStdin args boxes [] ⟨World.initial, boxes⟩ := Run.nil

theorem silent (h : Runs cap app parseRawStdin args boxes log ⟨w, boxes'⟩)
    (hs : Host.Step cap w [] w') : Runs cap app parseRawStdin args boxes log ⟨w', boxes'⟩ :=
  h.snoc_silent (.host (s := ⟨w, boxes'⟩) hs fun _ ho => absurd ho List.not_mem_nil)

theorem noted (h : Runs cap app parseRawStdin args boxes log ⟨w, boxes'⟩)
    (hs : Host.Step cap w [o] w') (ho : isCall o = false) :
    Runs cap app parseRawStdin args boxes (log ++ [o]) ⟨w', boxes'⟩ := by
  refine h.snoc_one (.host (s := ⟨w, boxes'⟩) hs fun o' ho' => ?_)
  rwa [List.mem_singleton.mp ho']

theorem inited (hi : app.init ⟨0⟩ args = some turn) (hr : boxes'.Record turn r)
    (settings : TerminalSettings) (heap : Abi.Heap) :
    Runs cap app parseRawStdin args boxes
      [.terminalSize (some settings), .rocInit ⟨0⟩ (.returned r heap)]
      ⟨.inited settings r heap, boxes'⟩ := by
  let io := World.initial.io.emit [.enterAlternateScreen, .enableRawMode, .clearAll]
  have entered : Runs cap app parseRawStdin args boxes []
      ⟨{ World.initial with pc := .size, io := io }, boxes⟩ := silent none (.enterTerminal rfl)
  have sized : Runs cap app parseRawStdin args boxes [.terminalSize (some settings)]
      ⟨{ World.initial with pc := .init, io := io, settings := settings }, boxes⟩ :=
    entered.noted (.sizeRead rfl) rfl
  have answer : Answers boxes'.Record (initForHost app ⟨0⟩ args) (.returned r heap) := by
    rw [initForHost, hi]
    exact .value hr
  exact sized.snoc_one (.call (.init (.initReturns rfl) answer) rfl)

def strings : View → ViewForHostResult
  | .RawMode rows => .Ok ⟨.readOnly 1, rows.map fun row => ⟨.null, Markup.rowToStr row⟩⟩
  | .Nothing => .Err

theorem rowsOf_strings (v : View) : rowsOf (strings v) = Frame.viewForHost v := by
  cases v with
  | Nothing => rfl
  | RawMode rows => simp [rowsOf, strings, Frame.viewForHost, RocList.asSlice]

theorem drawn (h : Runs cap app parseRawStdin args boxes log ⟨w, boxes'⟩) (hpc : w.pc = .incref)
    (hstatic : counted w.io.heap .model w.currentModel = false)
    (hm : boxes'.model w.currentModel = some m) (hv : app.view w.settings m = some v) :
    Runs cap app parseRawStdin args boxes
      (log ++ [.rocView w.settings w.currentModel (.returned (strings v) w.io.heap)])
      ⟨{ w with pc := .render (strings v) }, boxes'⟩ := by
  have retained : Runs cap app parseRawStdin args boxes log ⟨{ w with pc := .view }, boxes'⟩ :=
    h.silent (.increfStatic hpc hstatic)
  have answer : Answers (fun rows v => rowsOf v = rows)
      (viewForHost app boxes' w.settings w.currentModel) (.returned (strings v) w.io.heap) := by
    rw [viewForHost, hm, expectSome_some, ok_bind, hv, expectSome_some, ok_bind]
    exact .value (rowsOf_strings v)
  exact retained.snoc_one (.call (.view (.viewReturns rfl) answer fun _ held => held) rfl)

theorem answered (h : Runs cap app parseRawStdin args boxes log ⟨w, boxes'⟩)
    (hpc : w.pc = .makeEvent call) (hmade : Platform.makeEvent parseRawStdin boxes' call = .ok ev)
    (box : RocBox) (hbox : boxes'.event box = some ev) (hm : boxes'.model w.currentModel = some m)
    (hu : app.update w.makeContext m ev = some turn) (hr : boxes''.Record turn r) :
    Runs cap app parseRawStdin args boxes
      (log ++ [.makeEvent call (.returned box w.io.heap), .event ⟨box, .made call⟩] ++
        [.rocUpdate w.makeContext w.currentModel ⟨box, .made call⟩ (.returned r w.io.heap)])
      ⟨{ w with pc := .effects r.effects.asSlice (some r) }, boxes''⟩ := by
  have made : Runs cap app parseRawStdin args boxes
      (log ++ [.makeEvent call (.returned box w.io.heap), .event ⟨box, .made call⟩])
      ⟨{ w with pc := .update ⟨box, .made call⟩ }, boxes'⟩ := by
    refine h.snoc (.call (.makeEvent (.eventMade hpc) ?_ rfl) rfl)
    rw [hmade]
    exact .value hbox
  have answer : Answers boxes''.Record (updateForHost app boxes' w.makeContext w.currentModel box)
      (.returned r w.io.heap) := by
    rw [updateForHost, hm, expectSome_some, ok_bind, hbox, expectSome_some, ok_bind, hu]
    exact .value hr
  exact made.snoc_one (.call (.update (.updateReturns rfl) answer) rfl)

theorem polling (h : Runs cap app parseRawStdin args boxes log ⟨w, boxes'⟩) (hpc : w.pc = .wait)
    (htimer : w.currentSubs.timer = .Err) (hactive : w.nothingActive = false) :
    Runs cap app parseRawStdin args boxes log
      ⟨{ w with pc := .poll w.pollFds (-1) }, boxes'⟩ := by
  have noTimer : w.hasTimer = false := by simp [World.hasTimer, htimer]
  have waits := h.silent (.goto (.waitBegins hpc hactive))
  have pending := waits.silent (.goto (.timerPending rfl
    (show w.timerFired = .ok false by simp [World.timerFired, noTimer, pure, Except.pure])))
  exact pending.silent (.goto (.timeout rfl
    (show w.timeoutMs = .ok (-1) by simp [World.timeoutMs, noTimer, pure, Except.pure])))

theorem taken (h : Runs cap app parseRawStdin args boxes log ⟨w, boxes'⟩) (hpc : w.pc = .wait)
    (htcp : w.io.tcp = some t) (htimer : w.currentSubs.timer = .Err)
    (hpipe : w.net.pipe = bytes + 1) (hc : w.net.channel = ev :: queued)
    (hd : dispatch w.currentSubs ev = .ok (some call)) :
    Runs cap app parseRawStdin args boxes (log ++ [.dequeued w.currentSubs ev])
      ⟨{ w with
        pc := .makeEvent call
        net := { w.net with pipe := bytes, channel := queued }
        io := { w.io with tcp := some (t.apply ev) } }, boxes'⟩ := by
  have has : w.hasTcp = true := by simp [World.hasTcp, htcp]
  have active : w.nothingActive = false := by simp [World.nothingActive, has]
  have polls := h.polling hpc htimer active
  let fds : List PollFd :=
    (if w.hasStdin then [⟨.stdin, .none⟩] else []) ++ [⟨.notifyRx, ⟨true, false⟩⟩]
  have polled : Polled w.net w.pollFds fds 1 := by
    cases hs : w.hasStdin <;>
      exact ⟨by simp [World.pollFds, fds, has, hs], by simp [fds, hs, Revents.none],
        by simp [fds, hs, hpipe]⟩
  have readable : w.tcpReadable fds = true := by
    cases hs : w.hasStdin <;> simp [World.tcpReadable, World.tcpFdIdx, fds, has, hs]
  have announced := polls.silent (.goto (.pollTcp rfl polled (by simp) readable))
  have read := announced.silent (.byteRead rfl htcp hpipe)
  exact read.noted (.recvDispatched rfl htcp hc hd) rfl

theorem typed (h : Runs cap app parseRawStdin args boxes log ⟨w, boxes'⟩) (hpc : w.pc = .wait)
    {closure : RocErasedCallable} (hstdin : w.currentSubs.stdin = .Ok closure)
    (htimer : w.currentSubs.timer = .Err) (hpipe : w.net.pipe = 0) {data : List UInt8}
    (hsome : 0 < data.length) (hfits : data.length ≤ 16384) :
    Runs cap app parseRawStdin args boxes log
      ⟨{ w with pc := .makeEvent (.listU8 closure data) }, boxes'⟩ := by
  have has : w.hasStdin = true := by simp [World.hasStdin, hstdin]
  have active : w.nothingActive = false := by simp [World.nothingActive, has]
  have polls := h.polling hpc htimer active
  let fds : List PollFd :=
    [⟨.stdin, ⟨true, false⟩⟩] ++ if w.hasTcp then [⟨.notifyRx, .none⟩] else []
  have polled : Polled w.net w.pollFds fds 1 := by
    cases ht : w.hasTcp <;>
      exact ⟨by simp [World.pollFds, fds, has, ht], by simp [fds, ht, Revents.none],
        by simp [fds, ht, hpipe, Revents.none]⟩
  have quiet : w.tcpReadable fds = false := by
    cases ht : w.hasTcp <;> simp [World.tcpReadable, World.tcpFdIdx, fds, has, ht, Revents.none]
  have readable : w.stdinReadable fds = true := by simp [World.stdinReadable, fds, has]
  have announced := polls.silent (.goto (.pollStdin rfl polled (by simp) quiet readable))
  have payload : w.currentSubs.stdin.payloadOk = .ok closure := by rw [hstdin]; rfl
  exact announced.silent (.goto (.stdinRead rfl payload hsome hfits))

end Runs

theorem Runs.host (h : Runs cap app parseRawStdin args boxes log s) :
    Host.Runs cap log s.world :=
  Run.project System.world (fun hs => .inl (step_host hs.step)) h

theorem played (h : Runs cap app parseRawStdin args boxes log s) :
    Played app parseRawStdin args log s :=
  h.invariant_of (I := Played app parseRawStdin args) (fun hr => (Runs.host hr).wellFormed)
    ⟨.init, .nil, rfl⟩ fun hw hp hs => hp.step hw hs

structure SendsNothing (app : Application Model Input Event) (args : List String) : Prop where
  init : ∀ ctx turn, app.init ctx args = some turn → ∀ stream data,
    App.Effect.TcpSend stream data ∉ turn.effects
  update : ∀ ctx m ev turn, app.update ctx m ev = some turn → ∀ stream data,
    App.Effect.TcpSend stream data ∉ turn.effects

theorem not_dangles_of_played (hsends : SendsNothing app args)
    (h : Played app parseRawStdin args log s) (hs : Host.Step cap s.world es w) :
    ∀ o ∈ es, ¬Dangles s.world o := by
  obtain ⟨phase, hrun, hmeets⟩ := h
  have noSend : ∀ e ∈ phase.rest, ∀ stream data, e ≠ App.Effect.TcpSend stream data :=
    rest_of_turns
      (fun c turn hinit e he stream data heq => hsends.init c turn hinit stream data (heq ▸ he))
      (fun c m ev turn hupdate e he stream data heq =>
        hsends.update c m ev turn hupdate stream data (heq ▸ he))
      hrun
  intro o ho hd
  cases o with
  | effect e outcome =>
    obtain ⟨rest, next, hpc⟩ := effect_pc hs ho
    obtain ⟨turn, rfl, -⟩ := (meets_effects hpc).mp hmeets
    obtain ⟨q, hq, -⟩ := hd
    cases e with
    | TcpSend stream data => exact noSend _ List.mem_cons_self _ _ rfl
    | _ => cases hq
  | _ => exact hd

theorem spared_of_sendsNothing (hsends : SendsNothing app args)
    (h : Run (Step cap app parseRawStdin args) ⟨World.initial, boxes⟩ log s) :
    Runs cap app parseRawStdin args boxes log s := by
  induction h with
  | nil => exact .nil
  | snoc _ hs ih => exact ih.snoc (hs.spares fun w => not_dangles_of_played hsends (played ih))

def empty : Boxes Unit Unit Unit :=
  ⟨fun _ => none, fun _ => none, fun _ => none, fun _ => none, fun _ => none⟩

end RocTui.Platform
