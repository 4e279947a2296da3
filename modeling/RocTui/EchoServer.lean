import RocTui.Hearing

namespace RocTui.EchoServer

open RocTui.Lib RocTui.Lib.Elm
open RocTui.Abi RocTui.Tcp RocTui.Markup RocTui.Frame RocTui.Hearing
open RocTui.Host (World)
open RocTui.Platform (waits seen)
open RocTui.App (Application Signal)

structure Model where
  clients : List TcpStream
  log : List String

inductive Event
  | ClientConnected (stream : TcpStream)
  | ClientDisconnected (stream : TcpStream)
  | MessageReceived (stream : TcpStream) (data : List UInt8)

variable {Input : Type}

def listenHost : String := "0.0.0.0"

def listenPort : Nat := 8080

/-- "Subscriptions are constant." -/
def subs : App.Subscriptions Input Event where
  stdin := none
  acceptTcpConnection := some
    { host := listenHost
      port := listenPort
      onConnected := fun stream => some (.ClientConnected stream)
      onDisconnected := fun stream => some (.ClientDisconnected stream) }
  tcpConnect := none
  tcpReceive := some fun stream data => some (.MessageReceived stream data)
  timer := none

def init (_ : Context) (_ : List String) : App.Result Model Input Event :=
  ⟨⟨[], []⟩, subs, []⟩

def update (_ : Context) (model : Model) : Event → App.Result Model Input Event
  | .ClientConnected stream =>
    { m := ⟨model.clients ++ [stream], model.log ++ ["+ client connected"]⟩
      sub := subs
      effects := [] }
  | .ClientDisconnected stream =>
    { m := ⟨model.clients.filter (· ≠ stream), model.log ++ ["- client disconnected"]⟩
      sub := subs
      effects := [] }
  | .MessageReceived _ data =>
    let entry := "~ echoed " ++ toString data.length ++ " bytes → " ++
      toString model.clients.length ++ " client(s)"
    { m := { model with log := model.log ++ [entry] }
      sub := subs
      effects := model.clients.map fun client => .TcpSend client data }

def view (_ : TerminalSettings) (model : Model) : View :=
  let logRows := model.log.map fun entry => [.Fg .BrightBlack, .Text entry, .Reset]
  let header :=
    [[.Bold, .Fg .Cyan, .Text "TCP Echo Server", .Reset],
      [.Text ("Listening on " ++ listenHost ++ ":" ++ toString listenPort)],
      [.Fg .Green, .Text ("Connected clients: " ++ toString model.clients.length), .Reset],
      [],
      [.Dim, .Text "Activity log:", .Reset]]
  .RawMode (header ++ logRows)

def application : Application Model Input Event where
  init ctx args := some (init ctx args)
  update ctx model event := some (update ctx model event)
  view settings model := some (view settings model)

theorem attends (args : List String) :
    Attends (application : Application Model Input Event) args where
  init h := by
    cases h
    exact fun _ => ⟨.inl rfl, rfl⟩
  update {_ _ event _} h := by
    cases event <;> cases h <;> exact fun _ => ⟨.inl rfl, rfl⟩

variable {parseRawStdin : List UInt8 → Input} {args : List String} {settings : TerminalSettings}
  {ns : List Notice} {n : Notice}

def eventOf : Notice → Event
  | .connected id => .ClientConnected ⟨id⟩
  | .disconnected id => .ClientDisconnected ⟨id⟩
  | .data id bytes => .MessageReceived ⟨id⟩ bytes

theorem answer_eq_some {turn turn' : App.Result Model Input Event} {c : Context} {signal : Signal}
    (hsub : turn.sub = subs)
    (h : (application.program parseRawStdin args settings).answer turn c signal = some turn') :
    ∃ n, noticeOf signal = some n ∧ turn' = update c turn.m (eventOf n) := by
  obtain ⟨ev, hev, hupdate⟩ := event_of_answer h
  have heard : subs.event parseRawStdin signal = some (some ev) := hsub ▸ hev
  cases signal with
  | connected | disconnected | received =>
    cases heard
    cases hupdate
    exact ⟨_, rfl, rfl⟩
  | keys | timer => cases heard

structure Echoes (ns : List Notice) (turn : App.Result Model Input Event) : Prop where
  sub : turn.sub = subs
  nodup : turn.m.clients.Nodup
  clients : ∀ id, ⟨id⟩ ∈ turn.m.clients ↔ Present ns id
  entries : turn.m.log.length = ns.length
  audience : ∀ stream data, .TcpSend stream data ∈ turn.effects → stream ∈ turn.m.clients

theorem Echoes.init (c : Context) (args : List String) :
    Echoes [] (init c args : App.Result Model Input Event) where
  sub := rfl
  nodup := List.nodup_nil
  clients id := by simp [EchoServer.init, Span.Within]
  entries := rfl
  audience _ _ h := by cases h

theorem Echoes.update {turn : App.Result Model Input Event} (h : Echoes ns turn) (hn : Next ns n)
    (c : Context) :
    Echoes (ns ++ [n]) (update c turn.m (eventOf n) : App.Result Model Input Event) := by
  have there := present_concat hn
  cases n with
  | connected id =>
    have fresh : (⟨id⟩ : TcpStream) ∉ turn.m.clients := by
      cases hn with
      | connected hnew => exact fun hmem => not_present hnew ((h.clients id).mp hmem)
    refine ⟨rfl, ?_, fun id' => ?_, ?_, fun _ _ h => by cases h⟩
    · exact List.Nodup.append h.nodup (List.nodup_singleton _) (List.disjoint_singleton.mpr fresh)
    · rw [there]
      simp [EchoServer.update, eventOf, h.clients, or_comm, eq_comm]
    · simp [EchoServer.update, eventOf, h.entries]
  | disconnected id =>
    refine ⟨rfl, h.nodup.filter _, fun id' => ?_, ?_, fun _ _ h => by cases h⟩
    · rw [there]
      simp only [EchoServer.update, eventOf, List.mem_filter, h.clients, decide_eq_true_eq, ne_eq,
        TcpStream.mk.injEq, Notice.disconnected.injEq, reduceCtorEq, false_or]
      exact and_congr_right fun _ => ne_comm
    · simp [EchoServer.update, eventOf, h.entries]
  | data id bytes =>
    refine ⟨rfl, h.nodup, fun id' => ?_, ?_, fun stream data hmem => ?_⟩
    · rw [there]
      simp [EchoServer.update, eventOf, h.clients]
    · simp [EchoServer.update, eventOf, h.entries]
    · obtain ⟨client, hclient, heq⟩ := List.mem_map.mp hmem
      cases heq
      exact hclient

theorem sendsTo_broadcast {clients : List TcpStream} (hn : clients.Nodup) (data : List UInt8)
    (id : Nat) : sendsTo id (clients.map fun client => .TcpSend client data) =
      if ⟨id⟩ ∈ clients then data else [] := by
  induction clients with
  | nil => rfl
  | cons client clients ih =>
    obtain ⟨hnot, hrest⟩ := List.nodup_cons.mp hn
    have rest := ih hrest
    rw [sendsTo] at rest
    rw [List.map_cons, sendsTo, List.flatMap_cons, rest, sends]
    by_cases hid : client.id = id
    · have self : client = ⟨id⟩ := by rw [← hid]
      rw [if_pos hid, if_neg (self ▸ hnot), if_pos (self ▸ List.mem_cons_self), List.append_nil]
    · have other : (⟨id⟩ : TcpStream) ≠ client := fun heq => hid (heq ▸ rfl)
      rw [if_neg hid, List.nil_append]
      simp only [List.mem_cons, other, false_or]

theorem sendsTo_update {turn : App.Result Model Input Event} (h : Echoes ns turn) (c : Context)
    (id : Nat) : (Present ns id → sendsTo id (update c turn.m (eventOf n) :
        App.Result Model Input Event).effects = bytesOf n) ∧
      (¬Present ns id → sendsTo id (update c turn.m (eventOf n) :
        App.Result Model Input Event).effects = []) := by
  rw [← h.clients]
  cases n with
  | connected | disconnected => exact ⟨fun _ => rfl, fun _ => rfl⟩
  | data i bytes =>
    have all := sendsTo_broadcast h.nodup bytes id
    exact ⟨fun hmem => all.trans (if_pos hmem), fun hno => all.trans (if_neg hno)⟩

theorem echoes {c : Context} {script : List (Context × Signal)}
    {turn : App.Result Model Input Event}
    (h : (application.program parseRawStdin args settings).reached c script = some turn)
    (hn : Always Next (notices script)) : Echoes (notices script) turn ∧
      ∀ id, sendsTo id ((application.program parseRawStdin args settings).asked c script) =
        saidTo id (notices script) := by
  revert hn
  refine reached_induction (p := application.program parseRawStdin args settings)
    (I := fun script turn => Always Next (notices script) → Echoes (notices script) turn ∧
      ∀ id, sendsTo id ((application.program parseRawStdin args settings).asked c script) =
        saidTo id (notices script)) ?_ ?_ h
  · intro turn hi _
    cases hi
    exact ⟨.init c args, fun _ => rfl⟩
  · intro script turn told turn' hreached ih hanswer hn
    rw [notices, List.filterMap_append] at hn
    obtain ⟨hechoes, hsends⟩ := ih hn.of_append
    obtain ⟨n, hnotice, rfl⟩ := answer_eq_some hechoes.sub hanswer
    have next : notices (script ++ [told]) = notices script ++ [n] := by
      simp [notices, hnotice]
    have ordered : Always Next (notices script ++ [n]) := by
      rw [← next, notices, List.filterMap_append]
      exact hn
    rw [next]
    refine ⟨hechoes.update ordered.of_concat.2 _, fun id => ?_⟩
    obtain ⟨hthere, hgone⟩ := sendsTo_update hechoes (n := n) told.1 id
    rw [asked_concat, reached_append hreached, hanswer, Option.elim_some, sendsTo_append, hsends]
    by_cases hp : Present (notices script) id
    · rw [saidTo_concat_present hp, hthere hp]
    · rw [saidTo_concat_absent ordered.of_concat.1 hp, hgone hp, List.append_nil]

theorem knows : Knows (application : Application Model Input Event) parseRawStdin args := by
  intro settings c script turn stream data h hn hmem
  obtain ⟨hechoes, -⟩ := echoes h hn
  exact (hechoes.clients stream.id).mp (hechoes.audience stream data hmem)

/-- Everyone connected gets what anyone says, byte for byte and in the order it was said, and
nothing else. -/
theorem broadcasts {cap : Nat} {boxes : Platform.Boxes Model Input Event} {log : List Host.Obs}
    {s : Platform.System Model Input Event}
    (h : Platform.Runs cap application parseRawStdin args boxes log s)
    (hb : s.world.net.accepted ≤ 2 ^ 64) :
    (∀ id, s.world.io.sent id <+: saidTo id (noticed log)) ∧
    (waits s.world.pc = true →
      (∀ id, id ∉ Writers.brokenIds log → s.world.io.sent id = saidTo id (noticed log)) ∧
      ∃ m, s.boxes.model s.world.currentModel = some m ∧ m.clients.Nodup ∧
        (∀ id, ⟨id⟩ ∈ m.clients ↔ Writers.Up log id) ∧ m.log.length = (noticed log).length) := by
  have ordered := orderly (Platform.Runs.host h) hb
  rcases delivers (attends args) knows h hb with ⟨-, hnone, hbusy⟩ | ⟨c, turn, hd⟩
  · refine ⟨fun id => hnone id ▸ List.nil_prefix, fun hw => ?_⟩
    rw [hbusy] at hw
    cases hw
  · have begins := heard_begins (attends args) h
    obtain ⟨hechoes, hsends⟩ :=
      echoes hd.reached (begins.elim fun _ heq => (heq ▸ ordered).of_append)
    refine ⟨fun id => ?_, fun hw => ?_⟩
    · obtain ⟨more, hmore⟩ := begins
      rw [← hmore] at ordered ⊢
      exact ((hsends id) ▸ hd.sent id).trans (saidTo_begins id ordered)
    · have all := heard_waiting (attends args) h hw
      rw [← all]
      refine ⟨fun id hid => (hd.all hw id hid).trans (hsends id), turn.m, hd.model hw,
        hechoes.nodup, fun id => ?_, hechoes.entries⟩
      rw [up_iff_present, ← all]
      exact hechoes.clients id

def holding (m : Model) (event : Event) : Platform.Boxes Model Unit Event where
  model _ := some m
  event _ := some event
  onInput _ := none
  onStream closure :=
    if closure = .readOnly 1 then some fun stream => some (.ClientConnected stream)
    else some fun stream => some (.ClientDisconnected stream)
  onData _ := some fun stream data => some (.MessageReceived stream data)

def record (effects : List Abi.Effect) : UpdateForHost where
  sub := { Subscriptions.none with
    acceptTcpConnection := .Ok ⟨⟨.null, listenHost⟩, .readOnly 1, .readOnly 2, listenPort⟩
    tcpReceive := .Ok (.readOnly 3) }
  effects := ⟨.readOnly 4, effects⟩
  m := .readOnly 0

theorem holding_record {m : Model} {event : Event} {effects : List Abi.Effect}
    {effects' : List App.Effect} (h : effects.map Platform.effectValue = effects') :
    (holding m event).Record ⟨m, subs, effects'⟩ (record effects) where
  held := ⟨rfl, ⟨trivial, ⟨rfl, rfl, rfl, rfl⟩, trivial, rfl, trivial⟩⟩
  effects := h

theorem broadcasts_one : ∃ log s,
    Platform.Runs 65536 application (fun _ => ()) [] (holding ⟨[], []⟩ (.ClientConnected ⟨0⟩))
      log s ∧
    s.world.io.sent 0 = [104, 105] ∧ saidTo 0 (noticed log) = [104, 105] ∧
    s.world.io.sent 0 = saidTo 0 (noticed log) := by
  let greeted : Model := ⟨[⟨0⟩], ["+ client connected"]⟩
  let said : Event := .MessageReceived ⟨0⟩ [104, 105]
  let echoed : App.Result Model Unit Event := update ⟨0⟩ greeted said
  have first : (holding ⟨[], []⟩ (.ClientConnected ⟨0⟩)).Record
      (init ⟨0⟩ [] : App.Result Model Unit Event) (record []) := holding_record rfl
  have second : (holding greeted said).Record
      ⟨greeted, subs, []⟩ (record []) := holding_record rfl
  have third : (holding echoed.m said).Record echoed
      (record [.TcpSend ⟨0⟩ ⟨.readOnly 5, [104, 105]⟩]) := holding_record rfl
  have inited : Platform.Runs 65536 application (fun _ => ()) []
      (holding ⟨[], []⟩ (.ClientConnected ⟨0⟩)) _ _ :=
    .inited rfl first ⟨80, 24⟩ World.initial.io.heap
  have serving := inited.noted (.serverStarted rfl rfl) rfl
  have asked := serving.silent (.goto (.initEffectsDone rfl))
  have waiting := (asked.drawn rfl rfl rfl rfl).silent (.rendered rfl rfl)
  -- The client connects.
  have accepted := waiting.noted (.thread rfl (.accept rfl)) rfl
  have cloned := accepted.silent (.thread rfl (.clone rfl))
  have sent := cloned.noted (.thread rfl (.sendConnected rfl)) rfl
  have notified := sent.silent (.thread rfl (.notifyConnected rfl (by decide)))
  have spawned := notified.silent (.thread rfl (.spawn rfl))
  have taken := spawned.taken rfl rfl rfl rfl rfl rfl
  have connected := taken.answered rfl rfl (.readOnly 6) rfl rfl rfl second
  have shown := (connected.silent (.updateEffectsDone rfl)).drawn rfl rfl rfl rfl
  have waitingAgain := shown.silent (.rendered rfl rfl)
  -- It says hi.
  have short : 0 < ([104, 105] : List UInt8).length := by decide
  have read := waitingAgain.noted
    (.thread rfl (.read (show _ = [] ++ Reader.mk 0 0 .reading :: [] from rfl) short
      (by decide))) rfl
  have saying := read.noted
    (.thread rfl (.send
      (show _ = [] ++ Reader.mk 0 0 (.sending (.Data 0 [104, 105])) :: [] from rfl))) rfl
  have announced := saying.silent
    (.thread rfl (.notify
      (show _ = [] ++ Reader.mk 0 0 (.notifying (.Data 0 [104, 105])) :: [] from rfl)
      (by decide)))
  have heard := announced.taken rfl rfl rfl rfl rfl rfl
  have answered := heard.answered rfl rfl (.readOnly 6) rfl rfl rfl third
  have sent := answered.noted (.effect (o := .ok) rfl rfl) rfl
  have done := (sent.silent (.updateEffectsDone rfl)).drawn rfl rfl rfl rfl
  exact ⟨_, _, done, rfl, rfl, (broadcasts done (by decide)).2 rfl |>.1 0 (by decide)⟩

end RocTui.EchoServer
