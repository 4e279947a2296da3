import RocTui.Behaviour
import RocTui.Lib.Span
import RocTui.Writers

namespace RocTui.Hearing

open RocTui.Lib RocTui.Lib.Elm RocTui.Lib.Span
open RocTui.Abi RocTui.Tcp RocTui.Dispatch RocTui.Effects RocTui.Host
open RocTui.Execution RocTui.Writers RocTui.Platform
open RocTui.Delivery hiding told
open RocTui.App (Application Signal)

def noticeOf : Signal → Option Notice
  | .connected stream => some (.connected stream.id)
  | .disconnected stream => some (.disconnected stream.id)
  | .received stream data => some (.data stream.id data)
  | .keys _ | .timer => none

def notices (script : List (Context × Signal)) : List Notice :=
  script.filterMap fun told => noticeOf told.2

def heard (log : List Host.Obs) : List Notice := notices (told (seen log))

/-- What it would have been told, had it not crashed. -/
def lost : Pc → List Notice
  | .crashed (.update event) => (eventNotice event).toList
  | _ => []

def noticed (log : List Host.Obs) : List Notice := (dequeued log).map fun d => d.2.notice

section
variable (log es : List Host.Obs)

theorem heard_append : heard (log ++ es) = heard log ++ heard es := by
  simp only [heard, notices, seen_append, told_append, List.filterMap_append]

end

theorem eventNotice_eq (event : Host.Event) :
    eventNotice event = noticeOf (signal event.source) := by
  cases event with
  | mk box source =>
    cases source with
    | timer => rfl
    | made call => cases call <;> rfl

theorem lost_of_running {pc : Pc} (h : pc.running = true) : lost pc = [] := by
  cases pc with
  | crashed => cases h
  | _ => rfl

theorem handed_net (os : List NetObs) : handed (os.map .net) = [] :=
  filterMap_net (fun _ => rfl) os

theorem step_told (h : handed past = heard past ++ lost w.pc) (hs : Host.Step cap w es w') :
    handed (past ++ es) = heard (past ++ es) ++ lost w'.pc := by
  rw [lost_of_running (step_running hs), List.append_nil] at h
  rw [handed_append, heard_append, h, List.append_assoc]
  congr 1
  cases hs with
  | @updateReturns _ event =>
    rw [handed_rocUpdate, eventNotice_eq]
    cases hn : noticeOf (signal event.source) <;>
      simp [heard, notices, seen, visible, told, toldOf, lost, hn]
  | updateCrashes => exact handed_rocUpdate _ _ _ _
  | thread hrun ht =>
    rw [handed_net, heard, seen_net, lost_of_running hrun]
    rfl
  | tick hrun => rw [lost_of_running hrun]; rfl
  | goto hg => cases hg <;> rfl
  | _ => rfl

theorem listened_heard (h : Host.Runs cap log w) :
    listened log = heard log ++ (lost w.pc ++ inFlight w.pc) := by
  rw [Runs.handed h, ← List.append_assoc]
  congr 1
  exact h.invariant (I := fun log w => handed log = heard log ++ lost w.pc) rfl step_told

variable {Model Input Event : Type} {app : Application Model Input Event}
  {parseRawStdin : List UInt8 → Input} {args : List String} {boxes : Boxes Model Input Event}
  {log : List Host.Obs} {s : System Model Input Event}

/-- Subscriptions that miss nothing of TCP. -/
def Listens (sub : App.Subscriptions Input Event) : Prop :=
  (sub.acceptTcpConnection.isSome = true ∨ sub.tcpConnect.isSome = true) ∧
    sub.tcpReceive.isSome = true

theorem isOk_of_holds {α β : Type} {R : α → β → Prop} {t : TryResult α} {o : Option β}
    (h : TryHolds R t o) : t.isOk = o.isSome := by
  cases t <;> cases o <;> first | rfl | exact h.elim

theorem listens_of_subscribed {subs : Abi.Subscriptions} {sub : App.Subscriptions Input Event}
    (hsub : boxes.Subscribed subs sub) (h : Listens sub) (n : Notice) :
    listens subs n = true := by
  obtain ⟨hconnects, hreceives⟩ := h
  cases n with
  | connected | disconnected =>
    rw [listens, isOk_of_holds hsub.acceptTcpConnection, isOk_of_holds hsub.tcpConnect,
      Bool.or_eq_true]
    exact hconnects
  | data =>
    rw [listens, isOk_of_holds hsub.tcpReceive]
    exact hreceives

/-- An app that does not exit listens. -/
def Heeds (turn : App.Result Model Input Event) : Prop :=
  (∀ e ∈ turn.effects, e.exits = false) → Listens turn.sub

structure Attends (app : Application Model Input Event) (args : List String) : Prop where
  init : ∀ {ctx turn}, app.init ctx args = some turn → Heeds turn
  update : ∀ {ctx m event turn}, app.update ctx m event = some turn → Heeds turn

theorem Attends.reached (ha : Attends app args) {settings : TerminalSettings} {c : Context}
    {script : List (Context × Signal)} {turn : App.Result Model Input Event}
    (h : (app.program parseRawStdin args settings).reached c script = some turn) : Heeds turn := by
  refine reached_induction (I := fun _ turn => Heeds turn) (fun turn hi => ha.init hi) ?_ h
  intro script before told turn' _ _ hanswer
  obtain ⟨ev, -, hupdate⟩ := event_of_answer hanswer
  exact ha.update hupdate

theorem waiting (hr : Platform.Runs cap app parseRawStdin args boxes log s)
    (hwaits : waits s.world.pc = true) : ∃ c turn,
    Asked (app.program parseRawStdin args s.world.settings) (seen log) c turn [] ∧
    s.boxes.Held s.world.currentModel s.world.currentSubs turn := by
  obtain ⟨phase, hrun, hmeets⟩ := played hr
  obtain ⟨turn, rfl, held⟩ := hmeets.waiting hwaits
  obtain ⟨c, hasked⟩ := asked hrun rfl
  exact ⟨c, turn, hasked, held⟩

def Minded (o : Host.Obs) : Prop := ∀ subs ev, o = .dequeued subs ev → listens subs ev.notice = true

theorem minded (ha : Attends app args) (h : Platform.Runs cap app parseRawStdin args boxes log s) :
    Always (fun _ => Minded) log := by
  refine Run.always ?_ h
  intro past s es s' hr hs
  obtain ⟨hs, -⟩ := hs
  cases hs with
  | init | view | update => simp [Always.After, Minded]
  | makeEvent hs =>
    obtain ⟨-, -, -, -, ⟨box, heap, rfl, rfl, -⟩ | ⟨rfl, rfl, -⟩⟩ := makeEvent_step hs <;>
      simp [Always.After, Minded]
  | host hs =>
    cases hs with
    | thread hrun ht => exact after_net fun o past' subs ev heq => by cases heq
    | recvDispatched hpc ht hc hd =>
      refine ⟨fun subs ev heq => ?_, trivial⟩
      cases heq
      exact (dispatched hd).1
    | recvDiscarded hpc ht hc hd =>
      -- Nothing that was dequeued is discarded: the app listens here.
      obtain ⟨c, turn, hasked, held⟩ := waiting hr (by rw [hpc]; rfl)
      obtain ⟨done, hdone, hgo⟩ := hasked.done
      rw [List.append_nil] at hdone
      have attentive : Listens turn.sub := ha.reached hasked.reached (hdone ▸ hgo)
      have := listens_of_discarded hd
      rw [listens_of_subscribed held.subscribed attentive] at this
      cases this
    | _ => simp [Always.After, Minded]

theorem listened_eq (h : Always (fun _ => Minded) log) : listened log = noticed log := by
  rw [listened, noticed, ← List.filterMap_eq_map]
  apply List.filterMap_congr
  intro d hd
  obtain ⟨o, ho, hod⟩ := List.mem_filterMap.mp hd
  obtain ⟨past, rest, rfl⟩ := List.append_of_mem ho
  cases o with
  | dequeued subs ev =>
    cases hod
    exact if_pos (h past _ rest rfl subs ev rfl)
  | _ => cases hod

theorem noticed_heard (ha : Attends app args)
    (h : Platform.Runs cap app parseRawStdin args boxes log s) :
    noticed log = heard log ++ (lost s.world.pc ++ inFlight s.world.pc) := by
  rw [← listened_eq (minded ha h)]
  exact listened_heard (Platform.Runs.host h)

def idOf : Notice → Nat
  | .connected id | .disconnected id | .data id _ => id

abbrev Present (ns : List Notice) (id : Nat) : Prop := Within (.connected id) (.disconnected id) ns

/-- A connection connects once, sends, and disconnects at most once. -/
inductive Next (ns : List Notice) : Notice → Prop
  | connected {id : Nat} : (∀ n ∈ ns, idOf n ≠ id) → Next ns (.connected id)
  | data {id : Nat} : Present ns id → Next ns (.data id bytes)
  | disconnected {id : Nat} : Present ns id → Next ns (.disconnected id)

theorem not_present {ns : List Notice} {id : Nat} (h : ∀ n ∈ ns, idOf n ≠ id) : ¬Present ns id :=
  fun hp => h _ hp.1 rfl

theorem present_concat {ns : List Notice} {n : Notice} (h : Next ns n) (id : Nat) :
    Present (ns ++ [n]) id ↔ (n = .connected id ∨ Present ns id) ∧ n ≠ .disconnected id := by
  cases h with
  | @connected i hnew =>
    have fresh : i = id → Notice.disconnected id ∉ ns := fun heq hmem => hnew _ hmem heq.symm
    simp only [Within, List.mem_append, List.mem_singleton, Notice.connected.injEq, reduceCtorEq,
      or_false, ne_eq, not_false_eq_true, and_true]
    constructor
    · rintro ⟨hmem | rfl, hup⟩
      · exact .inr ⟨hmem, hup⟩
      · exact .inl rfl
    · rintro (rfl | ⟨hmem, hup⟩)
      · exact ⟨.inr rfl, fresh rfl⟩
      · exact ⟨.inl hmem, hup⟩
  | data => simp [Within]
  | disconnected => simp [Within, and_assoc, eq_comm]

theorem idOf_notice (ev : TcpEvent) : idOf ev.notice = ev.id := by
  cases ev <;> rfl

theorem mem_noticed {log : List Host.Obs} {n : Notice} :
    n ∈ noticed log ↔ ∃ ev ∈ dequeuedOf log (idOf n), ev.notice = n := by
  constructor
  · intro h
    obtain ⟨d, hd, rfl⟩ := List.mem_map.mp h
    have own : d.2.id = idOf d.2.notice := (idOf_notice d.2).symm
    exact ⟨d.2, List.mem_filter.mpr ⟨List.mem_map.mpr ⟨d, hd, rfl⟩, decide_eq_true own⟩, rfl⟩
  · rintro ⟨ev, hev, rfl⟩
    obtain ⟨d, hd, rfl⟩ := List.mem_map.mp (List.mem_of_mem_filter hev)
    exact List.mem_map.mpr ⟨d, hd, rfl⟩

theorem up_iff_present {log : List Host.Obs} {id : Nat} :
    Up log id ↔ Present (noticed log) id := by
  rw [up_iff]
  refine and_congr ⟨?_, fun h => ?_⟩ (not_congr ⟨?_, fun h => ?_⟩)
  · rintro ⟨stream, h⟩
    exact mem_noticed.mpr ⟨_, h, rfl⟩
  · obtain ⟨ev, hev, heq⟩ := mem_noticed.mp h
    cases ev with
    | Connected _ stream =>
      cases heq
      exact ⟨stream, hev⟩
    | _ => cases heq
  · intro h
    exact mem_noticed.mpr ⟨_, h, rfl⟩
  · obtain ⟨ev, hev, heq⟩ := mem_noticed.mp h
    cases ev with
    | Disconnected =>
      cases heq
      exact hev
    | _ => cases heq

theorem next_of_transcript {evs : List TcpEvent} {ev : TcpEvent} {chunks : List (List UInt8)}
    (h : (evs ++ [ev]).filter (·.id = ev.id) <+: transcript ev.id chunks true) :
    Next (evs.map TcpEvent.notice) ev.notice := by
  rw [List.filter_append, show [ev].filter (·.id = ev.id) = [ev] by simp] at h
  have own {x : TcpEvent} (hx : x ∈ evs) (hid : x.id = ev.id) : x ∈ evs.filter (·.id = ev.id) :=
    List.mem_filter.mpr ⟨hx, decide_eq_true hid⟩
  rcases transcript_concat h with ⟨hnone, hev⟩ | ⟨l, hl, hdata, hev⟩
  · rw [hev]
    refine .connected fun n hn heq => ?_
    obtain ⟨x, hx, rfl⟩ := List.mem_map.mp hn
    rw [idOf_notice] at heq
    have := own hx heq
    rw [hnone] at this
    cases this
  · have present : Present (evs.map TcpEvent.notice) ev.id := by
      constructor
      · have mem : .Connected ev.id ev.id ∈ evs.filter (·.id = ev.id) := by
          rw [hl]
          exact List.mem_cons_self
        exact List.mem_map.mpr ⟨_, List.mem_of_mem_filter mem, rfl⟩
      · intro hmem
        obtain ⟨x, hx, heq⟩ := List.mem_map.mp hmem
        have := own hx (by rw [← idOf_notice, heq]; rfl)
        rw [hl] at this
        rcases List.mem_cons.mp this with rfl | this
        · cases heq
        · obtain ⟨data, rfl⟩ := hdata x this
          cases heq
    cases ev with
    | Connected id writer => exact absurd rfl (hev writer)
    | Disconnected => exact .disconnected present
    | Data => exact .data present

theorem orderly (h : Host.Runs cap log w) (hb : w.net.accepted ≤ 2 ^ 64) :
    Always Next (noticed log) := by
  intro past n rest heq
  rw [noticed, ← Function.comp_def TcpEvent.notice, ← List.map_map] at heq
  obtain ⟨evs, tail, hsplit, rfl, hcons⟩ := List.map_eq_append_iff.mp heq
  obtain ⟨ev, rest', rfl, rfl, -⟩ := List.map_eq_cons_iff.mp hcons
  refine next_of_transcript ((?_ : _ <+: dequeuedOf log ev.id).trans
    (dequeuedOf_transcript h hb ev.id))
  rw [dequeuedOf, hsplit]
  refine List.IsPrefix.filter _ ⟨rest', ?_⟩
  rw [List.append_assoc]
  rfl

def bytesOf : Notice → List UInt8
  | .data _ bytes => bytes
  | _ => []

/-- What anyone said while `id` was connected. -/
def saidTo (id : Nat) (ns : List Notice) : List UInt8 :=
  (span (.connected id) (.disconnected id) ns).flatMap bytesOf

section
variable {ns : List Notice} {n : Notice} {id : Nat}

theorem matched (h : Always Next ns) (id : Nat) :
    Matched (.connected id) (.disconnected id) ns := by
  refine h.imp fun past n hn heq => ?_
  subst heq
  cases hn with
  | disconnected hp => exact hp

theorem saidTo_concat_present (hp : Present ns id) (n : Notice) :
    saidTo id (ns ++ [n]) = saidTo id ns ++ bytesOf n := by
  rw [saidTo, span_concat_within hp, List.flatMap_append, saidTo]
  by_cases hn : n = .disconnected id
  · rw [if_pos hn, hn]
    rfl
  · rw [if_neg hn, List.flatMap_singleton]

theorem saidTo_concat_absent (h : Always Next ns) (habsent : ¬Present ns id) (n : Notice) :
    saidTo id (ns ++ [n]) = saidTo id ns := by
  rw [saidTo, span_concat_outside (matched h id) habsent, saidTo]

theorem saidTo_begins (id : Nat) {more : List Notice} (h : Always Next (ns ++ more)) :
    saidTo id ns <+: saidTo id (ns ++ more) := by
  obtain ⟨rest, hrest⟩ := span_begins (matched h id)
  rw [saidTo, saidTo, ← hrest, List.flatMap_append]
  exact List.prefix_append _ _

end

def sends (id : Nat) : App.Effect → List UInt8
  | .TcpSend stream data => if stream.id = id then data else []
  | _ => []

def sendsTo (id : Nat) (effects : List App.Effect) : List UInt8 := effects.flatMap (sends id)

theorem sendsTo_append (id : Nat) (es es' : List App.Effect) :
    sendsTo id (es ++ es') = sendsTo id es ++ sendsTo id es' := List.flatMap_append

def Attentive (past : List Host.Obs) (o : Host.Obs) : Prop :=
  ∀ stream data outcome, o = .effect (.TcpSend stream data) outcome → Up past stream.id

/-- A connection takes what is sent to it, up to where a write fails. -/
structure Takes (log : List Host.Obs) (id : Nat) : Prop where
  begins : sentTo log id <+: sendsTo id (effectsIn (seen log))
  unbroken : id ∉ brokenIds log → sentTo log id = sendsTo id (effectsIn (seen log))

theorem Takes.concat {past : List Host.Obs} {o : Host.Obs} {id : Nat} (h : Takes past id)
    (ha : SendsAddressed past o) (hu : Attentive past o) : Takes (past ++ [o]) id := by
  have sent : sentTo (past ++ [o]) id = sentTo past id ++ sendBytes id o := by
    rw [sentTo_append, sentTo, sentTo, List.flatMap_singleton]
  have asked : sendsTo id (effectsIn (seen (past ++ [o]))) =
      sendsTo id (effectsIn (seen past)) ++ sendsTo id (effectsIn (visible o)) := by
    rw [seen_append, effectsIn_append, sendsTo_append]
    simp only [seen, List.flatMap_singleton]
  have still (hsent : sendBytes id o = []) (hasked : sendsTo id (effectsIn (visible o)) = []) :
      Takes (past ++ [o]) id := by
    refine ⟨?_, fun hb => ?_⟩
    · rw [sent, asked, hsent, hasked, List.append_nil, List.append_nil]
      exact h.begins
    · rw [brokenIds_append, List.mem_append, not_or] at hb
      rw [sent, asked, hsent, hasked, h.unbroken hb.1]
  cases o with
  | effect e outcome =>
    cases e with
    | TcpSend stream data =>
      by_cases hid : stream.id = id
      · subst hid
        have all : sendsTo stream.id
            (effectsIn (visible (.effect (.TcpSend stream data) outcome))) = data.asSlice := by
          simp [visible, effectsIn, effectOf, effectValue, sendsTo, sends]
        rw [all] at asked
        cases ha _ _ _ rfl with
        | skipped hdead =>
          -- The writer has gone because a write failed.
          have broken : stream.id ∈ brokenIds past := by
            by_contra hno
            exact hdead (live_iff.mpr ⟨hu _ _ _ rfl, hno⟩)
          have none : sendBytes stream.id (.effect (.TcpSend stream data) .skipped) = [] := rfl
          refine ⟨?_, fun hb => absurd ?_ hb⟩
          · rw [sent, asked, none, List.append_nil]
            exact h.begins.trans (List.prefix_append _ _)
          · rw [brokenIds_append]
            exact List.mem_append_left _ broken
        | written live =>
          have eq : sentTo (past ++ [.effect (.TcpSend stream data) (.written _)]) stream.id = _ :=
            sent
          rw [sendBytes, if_pos rfl, h.unbroken live.unbroken, ← asked] at eq
          exact ⟨eq ▸ List.prefix_rfl, fun _ => eq⟩
        | cut live _ _ =>
          refine ⟨?_, fun hb => absurd ?_ hb⟩
          · rw [sent, asked, sendBytes, if_pos rfl, h.unbroken live.unbroken]
            exact (List.prefix_append_right_inj _).mpr (List.take_prefix _ _)
          · rw [brokenIds_append]
            exact List.mem_append_right _ List.mem_cons_self
      · refine still ?_ ?_
        · cases outcome <;> simp [sendBytes, hid]
        · simp [visible, effectsIn, effectOf, effectValue, sendsTo, sends, hid]
    | _ => exact still rfl rfl
  | rocInit ctx reply => cases reply <;> exact still rfl rfl
  | rocView settings model reply => cases reply <;> exact still rfl rfl
  | rocUpdate ctx model event reply => cases reply <;> exact still rfl rfl
  | _ => exact still rfl rfl

theorem takes (addressed : Always SendsAddressed log) (attentive : Always Attentive log)
    (id : Nat) : Takes log id := by
  induction log using List.reverseRecOn with
  | nil => exact ⟨List.prefix_rfl, fun _ => rfl⟩
  | append_singleton past o ih =>
    obtain ⟨ha, hao⟩ := addressed.of_concat
    obtain ⟨hu, huo⟩ := attentive.of_concat
    exact (ih ha hu).concat hao huo

def Knows (app : Application Model Input Event) (parseRawStdin : List UInt8 → Input)
    (args : List String) : Prop :=
  ∀ settings c script turn stream data,
    (app.program parseRawStdin args settings).reached c script = some turn →
    Always Next (notices script) → .TcpSend stream data ∈ turn.effects →
    Present (notices script) stream.id

theorem attentive (ha : Attends app args) (hk : Knows app parseRawStdin args)
    (h : Platform.Runs cap app parseRawStdin args boxes log s)
    (hb : s.world.net.accepted ≤ 2 ^ 64) : Always Attentive log := by
  induction h with
  | nil => exact Always.nil
  | @snoc past s es s' hr hs ih =>
    have hb' := Nat.le_trans (step_accepted (step_host hs.step)) hb
    refine (ih hb').append ?_
    have executed {e : Abi.Effect} {rest : List Abi.Effect} {next : Option UpdateForHost}
        (hpc : s.world.pc = .effects (e :: rest) next) (outcome : SendOutcome) :
        Always.After Attentive past [.effect e outcome] := by
      refine ⟨fun stream data outcome' heq => ?_, trivial⟩
      cases heq
      obtain ⟨phase, hrun, hmeets⟩ := played hr
      obtain ⟨turn, rfl, -⟩ := (meets_effects hpc).mp hmeets
      obtain ⟨c, hasked⟩ := asked hrun rfl
      obtain ⟨done, hdone, -⟩ := hasked.done
      have mem : .TcpSend stream data.asSlice ∈ turn.effects := by
        rw [hdone]
        exact List.mem_append_right _ List.mem_cons_self
      have all : noticed past = heard past := by
        rw [noticed_heard ha hr, hpc]
        exact List.append_nil _
      have ordered := orderly (Platform.Runs.host hr) hb'
      rw [up_iff_present, all]
      rw [all] at ordered
      exact hk _ c _ turn stream _ hasked.reached ordered mem
    obtain ⟨hs, -⟩ := hs
    cases hs with
    | init | view | update => simp [Always.After, Attentive]
    | makeEvent hs =>
      obtain ⟨-, -, -, -, ⟨box, heap, rfl, rfl, -⟩ | ⟨rfl, rfl, -⟩⟩ := makeEvent_step hs <;>
        simp [Always.After, Attentive]
    | host hs =>
      cases hs with
      | effect hpc he | exit hpc he => exact executed hpc _
      | thread hrun ht => exact after_net fun o past' stream data outcome heq => by cases heq
      | _ => simp [Always.After, Attentive]

theorem heard_begins (ha : Attends app args)
    (h : Platform.Runs cap app parseRawStdin args boxes log s) : heard log <+: noticed log :=
  ⟨_, (noticed_heard ha h).symm⟩

theorem heard_waiting (ha : Attends app args)
    (h : Platform.Runs cap app parseRawStdin args boxes log s)
    (hwaits : waits s.world.pc = true) : heard log = noticed log := by
  have quiet : lost s.world.pc ++ inFlight s.world.pc = [] := by
    cases hpc : s.world.pc <;> first | rfl | simp only [hpc, waits, Bool.false_eq_true] at hwaits
  rw [noticed_heard ha h, quiet, List.append_nil]

structure Delivers (app : Application Model Input Event) (parseRawStdin : List UInt8 → Input)
    (args : List String) (log : List Host.Obs) (s : System Model Input Event) (c : Context)
    (turn : App.Result Model Input Event) : Prop where
  reached :
    (app.program parseRawStdin args s.world.settings).reached c (told (seen log)) = some turn
  asked : effectsIn (seen log) <+:
    (app.program parseRawStdin args s.world.settings).asked c (told (seen log))
  sent : ∀ id, s.world.io.sent id <+: sendsTo id
    ((app.program parseRawStdin args s.world.settings).asked c (told (seen log)))
  model : waits s.world.pc = true → s.boxes.model s.world.currentModel = some turn.m
  all : waits s.world.pc = true → ∀ id, id ∉ brokenIds log → s.world.io.sent id = sendsTo id
    ((app.program parseRawStdin args s.world.settings).asked c (told (seen log)))

/-- Every connection takes what the app sends to it, in order and byte for byte. -/
theorem delivers (ha : Attends app args) (hk : Knows app parseRawStdin args)
    (h : Platform.Runs cap app parseRawStdin args boxes log s)
    (hb : s.world.net.accepted ≤ 2 ^ 64) :
    (seen log = [] ∧ (∀ id, s.world.io.sent id = []) ∧ waits s.world.pc = false) ∨
    ∃ c turn, Delivers app parseRawStdin args log s c turn := by
  have host := Platform.Runs.host h
  have taken (id : Nat) : Takes log id := takes (sendsAddressed host hb) (attentive ha hk h hb) id
  have sent := (wired host hb).sent
  obtain ⟨phase, hrun, hmeets⟩ := played h
  rcases born hrun with hnone | ⟨c, hhead⟩
  · refine .inl ⟨hnone, fun id => ?_, Bool.eq_false_iff.mpr fun hw => ?_⟩
    · have begins := (taken id).begins
      rw [hnone] at begins
      rw [sent]
      exact List.prefix_nil.mp begins
    · obtain ⟨turn, rfl, -⟩ := hmeets.waiting hw
      obtain ⟨c, hasked⟩ := asked hrun rfl
      have begun := hasked.head
      rw [hnone] at begun
      cases begun
  · obtain ⟨turn, hreached, hbegins⟩ := effects_begin hrun hhead
    have settled (hw : waits s.world.pc = true) : s.boxes.model s.world.currentModel =
        some turn.m ∧ effectsIn (seen log) =
          (app.program parseRawStdin args s.world.settings).asked c (told (seen log)) := by
      obtain ⟨turn', rfl, held⟩ := hmeets.waiting hw
      obtain ⟨c', hasked⟩ := asked hrun rfl
      have same := hasked.head
      rw [hhead] at same
      cases same
      have here := hasked.reached
      rw [hreached] at here
      cases here
      exact ⟨held.model, (List.append_nil _).symm.trans hasked.effects⟩
    refine .inr ⟨c, turn, hreached, hbegins, fun id => ?_, fun hw => (settled hw).1,
      fun hw id hid => ?_⟩
    · rw [sent]
      obtain ⟨more, hmore⟩ := hbegins
      refine (taken id).begins.trans ⟨sendsTo id more, ?_⟩
      rw [← sendsTo_append, hmore]
    · rw [sent, (taken id).unbroken hid, (settled hw).2]

theorem within_signals {script : List (Context × Signal)} {id : Nat} :
    Within (.connected ⟨id⟩) (.disconnected ⟨id⟩) (script.map Prod.snd) ↔
      Present (notices script) id := by
  have noted {n : Notice} {signal : Signal} (hs : ∀ x, noticeOf x = some n ↔ x = signal) :
      signal ∈ script.map Prod.snd ↔ n ∈ notices script := by
    constructor
    · intro h
      obtain ⟨told, htold, heq⟩ := List.mem_map.mp h
      exact List.mem_filterMap.mpr ⟨told, htold, (hs _).mpr heq⟩
    · intro h
      obtain ⟨told, htold, heq⟩ := List.mem_filterMap.mp h
      exact List.mem_map.mpr ⟨told, htold, (hs _).mp heq⟩
  refine and_congr (noted fun x => ?_) (not_congr (noted fun x => ?_))
  · cases x with
    | connected stream => cases stream; simp [noticeOf]
    | _ => simp [noticeOf]
  · cases x with
    | disconnected stream => cases stream; simp [noticeOf]
    | _ => simp [noticeOf]

theorem matched_signals {script : List (Context × Signal)} (h : Always Next (notices script))
    (id : Nat) : Matched (.connected ⟨id⟩) (.disconnected ⟨id⟩) (script.map Prod.snd) := by
  intro past signal rest heq hsignal
  obtain ⟨before, after, rfl, rfl, hafter⟩ := List.map_eq_append_iff.mp heq
  obtain ⟨told, after', rfl, rfl, rfl⟩ := List.map_eq_cons_iff.mp hafter
  have split : notices (before ++ told :: after') =
      notices before ++ .disconnected id :: notices after' := by
    simp [notices, hsignal, noticeOf]
  rw [within_signals]
  cases h _ _ _ split with
  | disconnected hp => exact hp

def Unserved (app : Application Model Input Event) (parseRawStdin : List UInt8 → Input)
    (args : List String) : Prop :=
  ∀ settings c script turn,
    (app.program parseRawStdin args settings).reached c script = some turn →
    turn.sub.acceptTcpConnection = none

theorem alone (hu : Unserved app parseRawStdin args)
    (h : Platform.Runs cap app parseRawStdin args boxes log s) :
    s.world.net.listener = none ∧ s.world.net.accepted ≤ 1 := by
  refine Run.invariant_of (I := fun _ s => s.world.net.listener = none ∧ s.world.net.accepted ≤ 1)
    (fun hr => hr) ⟨rfl, Nat.zero_le 1⟩ ?_ h
  intro past s es s' hr ih hs
  obtain ⟨hnone, hone⟩ := ih
  have placed := (Host.Runs.wellFormed (Platform.Runs.host hr)).placed
  have host := step_host hs.step
  generalize s'.world = w at host
  cases host with
  | serverStarted hpc hinit =>
    obtain ⟨phase, hrun, hmeets⟩ := played hr
    simp only [Meets, hpc] at hmeets
    obtain ⟨turn, rfl, held⟩ := hmeets
    obtain ⟨c, hasked⟩ := asked hrun rfl
    have accepts := isOk_of_holds held.subscribed.acceptTcpConnection
    rw [hu _ _ _ _ hasked.reached] at accepts
    cases haccept : s.world.currentSubs.acceptTcpConnection with
    | Ok p =>
      rw [haccept] at accepts
      cases accepts
    | Err =>
      cases hconnect : s.world.currentSubs.tcpConnect <;>
        rw [initTcpFromSubs, acceptOrConnect, haccept, hconnect] at hinit <;> cases hinit
  | clientConnects hpc =>
    simp only [World.Placed, hpc] at placed
    rw [placed.1]
    exact ⟨rfl, Nat.le_refl 1⟩
  | thread hrun ht =>
    cases ht with
    | read | readEnds | send | notify => exact ⟨hnone, hone⟩
    | accept hl | acceptFails hl | cloneFails hl | clone hl | sendConnected hl
    | notifyConnected hl | spawn hl =>
      rw [hnone] at hl
      cases hl
  | _ => exact ⟨hnone, hone⟩

theorem noticed_alone (hu : Unserved app parseRawStdin args)
    (h : Platform.Runs cap app parseRawStdin args boxes log s) : ∀ n ∈ noticed log, idOf n = 0 := by
  intro n hn
  have host := Platform.Runs.host h
  obtain ⟨-, hone⟩ := alone hu h
  have few : s.world.net.accepted ≤ 2 ^ 64 := Nat.le_trans hone (by decide)
  obtain ⟨ev, hev, rfl⟩ := mem_noticed.mp hn
  have sent := (dequeuedOf_begins host _).subset hev
  have connected := connected_of_sent host few (List.mem_of_mem_filter sent)
  rw [(Delivery.told host).numbered.opened_eq few] at connected
  obtain ⟨k, hk, heq⟩ := List.mem_map.mp connected
  cases heq
  rw [idOf_notice]
  exact Nat.lt_one_iff.mp (Nat.lt_of_lt_of_le (List.mem_range.mp hk) hone)

end RocTui.Hearing
