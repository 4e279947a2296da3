import RocTui.Hearing
import RocTui.Strings

namespace RocTui.TcpClient

open RocTui.Lib RocTui.Lib.Elm RocTui.Lib.Span
open RocTui.Abi RocTui.Tcp RocTui.Markup RocTui.Frame RocTui.Hearing
open RocTui.Values (asBytes)
open RocTui.Host (World)
open RocTui.Platform (waits seen)
open RocTui.App (Ansi Application Signal)

inductive Connection
  | NotConnected
  | Connected (stream : TcpStream)
  | Disconnected

structure Model where
  connection : Connection
  messages : List String
  messageCount : Nat

inductive Event (Input : Type)
  | ServerConnected (stream : TcpStream)
  | ServerDisconnected (stream : TcpStream)
  | MessageReceived (stream : TcpStream) (data : List UInt8)
  | UserInput (input : Input)

variable {Input : Type} (ansi : Ansi Input)

def serverAddress : String := "127.0.0.1"

def serverPort : Nat := 8080

def getSubs (_ : Model) : App.Subscriptions Input (Event Input) where
  stdin := some fun input => some (.UserInput input)
  acceptTcpConnection := none
  tcpConnect := some
    { address := serverAddress
      port := serverPort
      onConnected := fun stream => some (.ServerConnected stream)
      onDisconnected := fun stream => some (.ServerDisconnected stream) }
  tcpReceive := some fun stream data => some (.MessageReceived stream data)
  timer := none

def init (_ : Context) (_ : List String) : App.Result Model Input (Event Input) :=
  let m : Model := ⟨.NotConnected, [], 0⟩
  ⟨m, getSubs m, []⟩

def hello (count : Nat) (input : Input) : String :=
  "Hello " ++ toString count ++ ": " ++ ansi.inputToStr input

def update (_ : Context) (model : Model) :
    Event Input → Option (App.Result Model Input (Event Input))
  | .ServerConnected stream =>
    let newModel := { model with
      connection := .Connected stream
      messages := model.messages ++ ["✓ Connected to server"] }
    some ⟨newModel, getSubs newModel, []⟩
  | .ServerDisconnected _ =>
    let newModel := { model with
      connection := .Disconnected
      messages := model.messages ++ ["✗ Disconnected from server"] }
    some ⟨newModel, getSubs newModel, []⟩
  | .MessageReceived _ data =>
    let messageStr := " ".intercalate (data.map toString)
    let newModel := { model with messages := model.messages ++ ["← Received: " ++ messageStr] }
    some ⟨newModel, getSubs newModel, []⟩
  | .UserInput input =>
    if ansi.ctrlC input then some ⟨model, .none, [.Exit 0]⟩
    else match model.connection with
      | .Connected stream =>
        let newCount := model.messageCount + 1
        if newCount < 2 ^ 64 then
          let message := hello ansi newCount input
          let newModel := { model with
            messageCount := newCount
            messages := model.messages ++ ["→ Sent: " ++ message] }
          some ⟨newModel, getSubs newModel, [.TcpSend stream (asBytes message)]⟩
        else none
      | _ =>
        let newModel := { model with messages := model.messages ++ ["✗ Not connected"] }
        some ⟨newModel, getSubs newModel, []⟩

def view (_ : TerminalSettings) (model : Model) : View :=
  let connectionStatus : List Terminal := match model.connection with
    | .NotConnected => [.Fg .Yellow, .Text "⏳ Connecting...", .Reset]
    | .Connected _ => [.Fg .Green, .Text "✓ Connected", .Reset]
    | .Disconnected => [.Fg .Red, .Text "✗ Disconnected", .Reset]
  let messageRows := (model.messages.drop (model.messages.length - 10)).map fun msg =>
    [.Fg .BrightBlack, .Text msg, .Reset]
  let header :=
    [[.Bold, .Fg .Cyan, .Text "TCP Client", .Reset],
      [.Text ("Server: " ++ serverAddress ++ ":" ++ toString serverPort)],
      connectionStatus,
      [],
      [.Dim, .Text "Messages (last 10):", .Reset]]
  let footer := [[], [.Dim, .Text "Press any key to send a message, Ctrl+C to exit", .Reset]]
  .RawMode (header ++ messageRows ++ footer)

def application : Application Model Input (Event Input) where
  init ctx args := some (init ctx args)
  update := update ansi
  view settings model := some (view settings model)

/-- How an update ends: by quitting, or with the same subscriptions and at most one greeting to
the server. -/
inductive Updated (model : Model) :
    Event Input → App.Result Model Input (Event Input) → Prop
  | connected : m.connection = .Connected stream → m.messageCount = model.messageCount →
      Updated model (.ServerConnected stream) ⟨m, getSubs m, []⟩
  | disconnected : m.connection = .Disconnected → m.messageCount = model.messageCount →
      Updated model (.ServerDisconnected stream) ⟨m, getSubs m, []⟩
  | received : m.connection = model.connection → m.messageCount = model.messageCount →
      Updated model (.MessageReceived stream data) ⟨m, getSubs m, []⟩
  | quit : ansi.ctrlC input = true → Updated model (.UserInput input) ⟨model, .none, [.Exit 0]⟩
  | sent : ansi.ctrlC input = false → model.connection = .Connected stream →
      m.connection = model.connection → m.messageCount = model.messageCount + 1 →
      Updated model (.UserInput input)
        ⟨m, getSubs m, [.TcpSend stream (asBytes (hello ansi (model.messageCount + 1) input))]⟩
  | unsent : ansi.ctrlC input = false → (∀ stream, model.connection ≠ .Connected stream) →
      m.connection = model.connection → m.messageCount = model.messageCount →
      Updated model (.UserInput input) ⟨m, getSubs m, []⟩

theorem updated {ansi : Ansi Input} {c : Context} {model : Model} {event : Event Input}
    {turn : App.Result Model Input (Event Input)} (h : update ansi c model event = some turn) :
    Updated ansi model event turn := by
  cases event with
  | ServerConnected =>
    cases h
    exact .connected rfl rfl
  | ServerDisconnected =>
    cases h
    exact .disconnected rfl rfl
  | MessageReceived =>
    cases h
    exact .received rfl rfl
  | UserInput input =>
    rw [update] at h
    cases hc : ansi.ctrlC input with
    | true =>
      rw [if_pos hc] at h
      cases h
      exact .quit hc
    | false =>
      rw [if_neg (by simp [hc])] at h
      cases hconn : model.connection with
      | Connected stream =>
        simp only [hconn] at h
        split at h
        · cases h
          exact .sent hc hconn hconn.symm rfl
        · cases h
      | NotConnected | Disconnected =>
        simp only [hconn] at h
        cases h
        exact .unsent hc (by simp [hconn]) hconn.symm rfl

def keyOf : Signal → Option Input
  | .keys bytes =>
    let input := ansi.parseRawStdin bytes
    if ansi.ctrlC input then none else some input
  | _ => none

def typed (signals : List Signal) : List Input :=
  (span (.connected ⟨0⟩) (.disconnected ⟨0⟩) signals).filterMap (keyOf ansi)

def greetings (keys : List Input) : List UInt8 :=
  (keys.zipIdx 1).flatMap fun (key, count) => asBytes (hello ansi count key)

section
variable {ansi} {signals : List Signal} {signal : Signal}

theorem typed_within (h : Within (.connected ⟨0⟩) (.disconnected ⟨0⟩) signals) (signal : Signal) :
    typed ansi (signals ++ [signal]) = typed ansi signals ++ (keyOf ansi signal).toList := by
  rw [typed, span_concat_within h, List.filterMap_append, typed]
  by_cases hs : signal = .disconnected ⟨0⟩
  · rw [if_pos hs, hs]
    rfl
  · rw [if_neg hs]
    cases hk : keyOf ansi signal <;> simp [hk]

theorem typed_outside (hm : Matched (.connected ⟨0⟩) (.disconnected ⟨0⟩) signals)
    (h : ¬Within (.connected ⟨0⟩) (.disconnected ⟨0⟩) signals) (signal : Signal) :
    typed ansi (signals ++ [signal]) = typed ansi signals := by
  rw [typed, span_concat_outside hm h, typed]

theorem typed_quiet (hm : Matched (.connected ⟨0⟩) (.disconnected ⟨0⟩) signals)
    (hk : keyOf ansi signal = none) : typed ansi (signals ++ [signal]) = typed ansi signals := by
  by_cases h : Within (.connected ⟨0⟩) (.disconnected ⟨0⟩) signals
  · rw [typed_within h, hk]
    exact List.append_nil _
  · exact typed_outside hm h signal

theorem greetings_concat (keys : List Input) (key : Input) :
    greetings ansi (keys ++ [key]) =
      greetings ansi keys ++ asBytes (hello ansi (keys.length + 1) key) := by
  simp [greetings, List.zipIdx_append, Nat.add_comm]

end

variable {ansi} {args : List String} {settings : TerminalSettings} {c : Context}
  {script : List (Context × Signal)} {turn : App.Result Model Input (Event Input)}

abbrev program (ansi : Ansi Input) (args : List String) (settings : TerminalSettings) :=
  (application ansi).program ansi.parseRawStdin args settings

structure Alone (ansi : Ansi Input) (args : List String) (settings : TerminalSettings)
    (c : Context) (script : List (Context × Signal))
    (turn : App.Result Model Input (Event Input)) : Prop where
  connected : Present (notices script) 0 → turn.m.connection = .Connected ⟨0⟩
  count : turn.m.messageCount = (typed ansi (script.map Prod.snd)).length
  sent : sendsTo 0 ((program ansi args settings).asked c script) =
    greetings ansi (typed ansi (script.map Prod.snd))
  others : ∀ id, id ≠ 0 → sendsTo id ((program ansi args settings).asked c script) = []

structure Holds (ansi : Ansi Input) (args : List String) (settings : TerminalSettings)
    (c : Context) (script : List (Context × Signal))
    (turn : App.Result Model Input (Event Input)) : Prop where
  known : ∀ stream, turn.m.connection = .Connected stream → Present (notices script) stream.id
  sends : ∀ stream data, .TcpSend stream data ∈ turn.effects → Present (notices script) stream.id
  alone : (∀ n ∈ notices script, idOf n = 0) → Alone ansi args settings c script turn
  ending : (turn.sub = getSubs turn.m ∧
      ∀ code, .Exit code ∉ (program ansi args settings).asked c script) ∨
    (turn.sub = .none ∧
      (∀ code, .Exit code ∈ (program ansi args settings).asked c script → code = 0) ∧
      ∃ c bytes, script.getLast? = some (c, .keys bytes) ∧
        ansi.ctrlC (ansi.parseRawStdin bytes) = true)

inductive Meant (ansi : Ansi Input) : Signal → Event Input → Prop
  | connected : Meant ansi (.connected stream) (.ServerConnected stream)
  | disconnected : Meant ansi (.disconnected stream) (.ServerDisconnected stream)
  | received : Meant ansi (.received stream data) (.MessageReceived stream data)
  | typed : Meant ansi (.keys bytes) (.UserInput (ansi.parseRawStdin bytes))

theorem meant {m : Model} {event : Event Input}
    (h : (getSubs m).event ansi.parseRawStdin signal = some (some event)) :
    Meant ansi signal event := by
  cases signal with
  | connected | disconnected | received | keys =>
    cases h
    constructor
  | timer => cases h

theorem Holds.start : Holds ansi args settings c [] (init c args) where
  known _ h := by cases h
  sends _ _ h := by cases h
  alone _ := ⟨fun h => absurd h.1 List.not_mem_nil, rfl, rfl, fun _ _ => rfl⟩
  ending := .inl ⟨rfl, fun _ h => absurd h List.not_mem_nil⟩

theorem notices_concat (script : List (Context × Signal)) (told : Context × Signal) :
    notices (script ++ [told]) = notices script ++ (noticeOf told.2).toList := by
  cases hn : noticeOf told.2 <;> simp [notices, hn]

section
variable {told : Context × Signal} {m : Model}

theorem Holds.quiet (h : Holds ansi args settings c script turn)
    (hgoes : ∀ code, .Exit code ∉ (program ansi args settings).asked c (script ++ [told]))
    (hasked : (program ansi args settings).asked c (script ++ [told]) =
      (program ansi args settings).asked c script)
    (hsaid : notices (script ++ [told]) = notices script ++ (noticeOf told.2).toList)
    (htyped : (∀ n ∈ notices (script ++ [told]), idOf n = 0) →
      typed ansi (script.map Prod.snd ++ [told.2]) = typed ansi (script.map Prod.snd))
    (hcount : m.messageCount = turn.m.messageCount)
    (known : ∀ stream, m.connection = .Connected stream →
      Present (notices (script ++ [told])) stream.id)
    (connected : (∀ n ∈ notices (script ++ [told]), idOf n = 0) →
      Present (notices (script ++ [told])) 0 → m.connection = .Connected ⟨0⟩) :
    Holds ansi args settings c (script ++ [told]) ⟨m, getSubs m, []⟩ := by
  have signals : (script ++ [told]).map Prod.snd = script.map Prod.snd ++ [told.2] :=
    List.map_append
  refine ⟨known, fun _ _ h => absurd h List.not_mem_nil, fun only => ?_, .inl ⟨rfl, hgoes⟩⟩
  have alone := h.alone fun n hn => only n (hsaid ▸ List.mem_append_left _ hn)
  refine ⟨connected only, ?_, ?_, ?_⟩
  · rw [signals, htyped only, ← alone.count]
    exact hcount
  · rw [signals, htyped only, hasked, alone.sent]
  · rw [hasked]
    exact alone.others

section
variable {c' : Context} {bytes : List UInt8}

theorem notices_keys : notices (script ++ [(c', .keys bytes)]) = notices script := by
  rw [notices_concat]
  exact List.append_nil _

theorem signals_keys : (script ++ [(c', Signal.keys bytes)]).map Prod.snd =
    script.map Prod.snd ++ [Signal.keys bytes] := List.map_append

theorem Holds.quit (h : Holds ansi args settings c script turn)
    (hgoes : ∀ code, .Exit code ∉ (program ansi args settings).asked c script)
    (hasked : (program ansi args settings).asked c (script ++ [(c', .keys bytes)]) =
      (program ansi args settings).asked c script ++ [.Exit 0])
    (hn : Always Next (notices script))
    (hquit : ansi.ctrlC (ansi.parseRawStdin bytes) = true) :
    Holds ansi args settings c (script ++ [(c', .keys bytes)]) ⟨turn.m, .none, [.Exit 0]⟩ := by
  have none : keyOf ansi (.keys bytes) = .none := if_pos hquit
  have htyped := typed_quiet (matched_signals hn 0) none
  refine ⟨fun stream hs => ?_, fun stream data hmem => ?_, fun only => ?_,
    .inr ⟨rfl, fun code hcode => ?_, c', bytes, List.getLast?_concat, hquit⟩⟩
  · rw [notices_keys]
    exact h.known stream hs
  · cases List.mem_singleton.mp hmem
  · rw [notices_keys] at only
    have alone := h.alone only
    refine ⟨?_, ?_, ?_, fun id hid => ?_⟩
    · rw [notices_keys]
      exact alone.connected
    · rw [signals_keys, htyped]
      exact alone.count
    · rw [signals_keys, htyped, hasked, sendsTo_append, ← alone.sent]
      exact List.append_nil _
    · rw [hasked, sendsTo_append, alone.others id hid]
      rfl
  · rw [hasked] at hcode
    rcases List.mem_append.mp hcode with hcode | hcode
    · exact absurd hcode (hgoes code)
    · cases List.mem_singleton.mp hcode
      rfl

theorem Holds.sent (h : Holds ansi args settings c script turn)
    (hgoes : ∀ code, .Exit code ∉ (program ansi args settings).asked c script)
    (htyped : ansi.ctrlC (ansi.parseRawStdin bytes) = false)
    (hconnection : turn.m.connection = .Connected stream)
    (kept : m.connection = turn.m.connection)
    (hcount : m.messageCount = turn.m.messageCount + 1)
    (hasked : (program ansi args settings).asked c (script ++ [(c', .keys bytes)]) =
      (program ansi args settings).asked c script ++ [.TcpSend stream
        (asBytes (hello ansi (turn.m.messageCount + 1) (ansi.parseRawStdin bytes)))]) :
    Holds ansi args settings c (script ++ [(c', .keys bytes)])
      ⟨m, getSubs m, [.TcpSend stream
        (asBytes (hello ansi (turn.m.messageCount + 1) (ansi.parseRawStdin bytes)))]⟩ := by
  have there := h.known stream hconnection
  refine ⟨fun stream' hs => ?_, fun stream' data hmem => ?_, fun only => ?_, .inl ⟨rfl, ?_⟩⟩
  · rw [notices_keys]
    exact h.known stream' (kept ▸ hs)
  · cases List.mem_singleton.mp hmem
    rw [notices_keys]
    exact there
  · rw [notices_keys] at only
    have own : stream.id = 0 := only _ there.1
    rw [own] at there
    have alone := h.alone only
    have key : keyOf ansi (.keys bytes) = some (ansi.parseRawStdin bytes) := by
      simp [keyOf, htyped]
    have more : typed ansi (script.map Prod.snd ++ [.keys bytes]) = _ :=
      typed_within (within_signals.mpr there) (.keys bytes)
    rw [key, Option.toList_some] at more
    refine ⟨?_, ?_, ?_, fun id hid => ?_⟩
    · rw [notices_keys]
      exact fun hp => kept.trans (alone.connected hp)
    · rw [signals_keys, more, List.length_append, ← alone.count]
      exact hcount
    · rw [signals_keys, more, greetings_concat, hasked, sendsTo_append, alone.sent, alone.count]
      simp [sendsTo, Hearing.sends, own]
    · rw [hasked, sendsTo_append, alone.others id hid]
      simp [sendsTo, Hearing.sends, own, Ne.symm hid]
  · intro code hcode
    rw [hasked] at hcode
    rcases List.mem_append.mp hcode with hcode | hcode
    · exact hgoes code hcode
    · cases List.mem_singleton.mp hcode

end

end

theorem Holds.step {turn' : App.Result Model Input (Event Input)} {told : Context × Signal}
    (h : Holds ansi args settings c script turn)
    (hreached : (program ansi args settings).reached c script = some turn)
    (hanswer : (program ansi args settings).answer turn told.1 told.2 = some turn')
    (hn : Always Next (notices (script ++ [told]))) :
    Holds ansi args settings c (script ++ [told]) turn' := by
  obtain ⟨c', signal⟩ := told
  obtain ⟨event, hevent, hupdate⟩ := event_of_answer hanswer
  have hupdated : Updated ansi turn.m event turn' := updated (c := c') hupdate
  have hasked : (program ansi args settings).asked c (script ++ [(c', signal)]) =
      (program ansi args settings).asked c script ++ turn'.effects := by
    rw [asked_concat, reached_append hreached, hanswer, Option.elim_some]
  have hsaid := notices_concat script (c', signal)
  rw [hsaid] at hn
  have matched := matched_signals hn.of_append 0
  rcases h.ending with ⟨hsub, hgoes⟩ | ⟨hsub, -, -⟩
  · rw [hsub] at hevent
    cases meant hevent with
    | @connected stream =>
      have next : Always Next (notices script ++ [.connected stream.id]) := hn
      have there := present_concat next.of_concat.2
      cases hupdated with
      | @connected m _ hconnection hcount =>
        rw [List.append_nil] at hasked
        refine h.quiet (hasked ▸ hgoes) hasked hsaid (fun _ => typed_quiet matched rfl) hcount
          (fun stream' hs => ?_) fun only _ => ?_
        · rw [hconnection] at hs
          cases hs
          exact hsaid ▸ (there _).mpr ⟨.inl rfl, nofun⟩
        · have own : stream.id = 0 :=
            only (.connected stream.id) (hsaid ▸ List.mem_append_right _ List.mem_cons_self)
          rw [hconnection]
          exact congrArg (fun id => Connection.Connected ⟨id⟩) own
    | @disconnected stream =>
      have next : Always Next (notices script ++ [.disconnected stream.id]) := hn
      have there := present_concat next.of_concat.2
      cases hupdated with
      | @disconnected m _ hconnection hcount =>
        rw [List.append_nil] at hasked
        refine h.quiet (hasked ▸ hgoes) hasked hsaid (fun _ => typed_quiet matched rfl) hcount
          (fun stream' hs => ?_) fun only hp => ?_
        · rw [hconnection] at hs
          cases hs
        · have own : stream.id = 0 :=
            only (.disconnected stream.id) (hsaid ▸ List.mem_append_right _ List.mem_cons_self)
          have gone := ((there 0).mp (hsaid ▸ hp)).2
          exact absurd (congrArg Notice.disconnected own) gone
    | @received stream data =>
      have next : Always Next (notices script ++ [.data stream.id data]) := hn
      have there := present_concat next.of_concat.2
      have same (id : Nat) : Present (notices (script ++ [(c', .received stream data)])) id ↔
          Present (notices script) id := by
        rw [hsaid]
        change Present (notices script ++ [.data stream.id data]) id ↔ _
        simpa using there id
      cases hupdated with
      | @received m _ _ hconnection hcount =>
        rw [List.append_nil] at hasked
        refine h.quiet (hasked ▸ hgoes) hasked hsaid (fun _ => typed_quiet matched rfl) hcount
          (fun stream' hs => ?_) fun only hp => ?_
        · exact (same _).mpr (h.known stream' (hconnection ▸ hs))
        · have alone := h.alone fun n hn => only n (hsaid ▸ List.mem_append_left _ hn)
          exact hconnection.trans (alone.connected ((same 0).mp hp))
    | @typed bytes =>
      cases hupdated with
      | quit hquit => exact h.quit hgoes hasked hn.of_append hquit
      | sent hkey hconnection kept hcount =>
        exact h.sent hgoes hkey hconnection kept hcount hasked
      | @unsent m _ hkey hno kept hcount =>
        rw [List.append_nil] at hasked
        refine h.quiet (hasked ▸ hgoes) hasked hsaid (fun only => ?_) hcount
          (fun stream hs => absurd (kept ▸ hs) (hno stream)) fun only hp => ?_
        · rw [notices_keys] at only
          have alone := h.alone only
          exact typed_outside matched
            (fun hw => hno _ (alone.connected (within_signals.mp hw))) _
        · rw [notices_keys] at only hp
          exact absurd ((h.alone only).connected hp) (hno _)
  · rw [hsub] at hevent
    cases signal <;> cases hevent

theorem holds (h : (program ansi args settings).reached c script = some turn)
    (hn : Always Next (notices script)) : Holds ansi args settings c script turn := by
  revert hn
  refine reached_induction (p := program ansi args settings)
    (I := fun script turn => Always Next (notices script) →
      Holds ansi args settings c script turn) (fun turn hi _ => ?_) ?_ h
  · cases hi
    exact .start
  · intro script turn told turn' hreached ih hanswer hn
    have before : Always Next (notices script) := by
      rw [notices_concat] at hn
      exact hn.of_append
    exact (ih before).step hreached hanswer hn

theorem attends : Attends (application ansi) args where
  init h := by
    cases h
    exact fun _ => ⟨.inr rfl, rfl⟩
  update {ctx _ _ _} h := by
    have ended : ¬∀ e ∈ [App.Effect.Exit 0], e.exits = false := fun hgo =>
      absurd (hgo _ List.mem_cons_self) (by simp [App.Effect.exits])
    cases updated (c := ctx) h with
    | quit => exact fun hgo => absurd hgo ended
    | _ => exact fun _ => ⟨.inr rfl, rfl⟩

theorem knows : Knows (application ansi) ansi.parseRawStdin args :=
  fun _ _ _ _ stream data h hn hmem => (holds h hn).sends stream data hmem

theorem unserved : Unserved (application ansi) ansi.parseRawStdin args := by
  intro settings c script turn h
  refine reached_induction (p := program ansi args settings)
    (I := fun _ turn => turn.sub.acceptTcpConnection = none) (fun turn hi => ?_) ?_ h
  · cases hi
    rfl
  · intro script turn told turn' _ _ hanswer
    obtain ⟨event, -, hupdate⟩ := event_of_answer hanswer
    cases updated (c := told.1) hupdate <;> rfl

/-- The server gets a numbered greeting for each read of stdin while it is connected, and nothing
else; only Ctrl-C ends the client by an exit, after everything else. -/
theorem greets {cap : Nat} {boxes : Platform.Boxes Model Input (Event Input)}
    {log : List Host.Obs} {s : Platform.System Model Input (Event Input)}
    (h : Platform.Runs cap (application ansi) ansi.parseRawStdin args boxes log s) :
    (s.world.io.sent 0 <+: greetings ansi (typed ansi ((told (seen log)).map Prod.snd)) ∧
      ∀ id, id ≠ 0 → s.world.io.sent id = []) ∧
    (waits s.world.pc = true →
      (0 ∉ Writers.brokenIds log →
        s.world.io.sent 0 = greetings ansi (typed ansi ((told (seen log)).map Prod.snd))) ∧
      ∃ m, s.boxes.model s.world.currentModel = some m ∧
        m.messageCount = (typed ansi ((told (seen log)).map Prod.snd)).length ∧
        ∀ stream, m.connection = .Connected stream ↔ stream = ⟨0⟩ ∧ Writers.Up log 0) ∧
    ∀ code, .Exit code ∈ effectsIn (seen log) → code = 0 ∧
      ∃ c bytes, (told (seen log)).getLast? = some (c, .keys bytes) ∧
        ansi.ctrlC (ansi.parseRawStdin bytes) = true := by
  have host := Platform.Runs.host h
  obtain ⟨-, hone⟩ := alone unserved h
  have few : s.world.net.accepted ≤ 2 ^ 64 := Nat.le_trans hone (by decide)
  have ordered := orderly host few
  have only := noticed_alone unserved h
  obtain ⟨more, hmore⟩ := heard_begins attends h
  have ordered' : Always Next (heard log) := (hmore ▸ ordered).of_append
  have only' : ∀ n ∈ heard log, idOf n = 0 := fun n hn =>
    only n (hmore ▸ List.mem_append_left _ hn)
  rcases delivers attends knows h few with ⟨hseen, hnone, hbusy⟩ | ⟨c, turn, hd⟩
  · refine ⟨⟨hnone 0 ▸ List.nil_prefix, fun id _ => hnone id⟩, fun hw => ?_, fun code hcode => ?_⟩
    · rw [hbusy] at hw
      cases hw
    · rw [hseen] at hcode
      cases hcode
  · have held := holds hd.reached ordered'
    have alone := held.alone only'
    refine ⟨⟨alone.sent ▸ hd.sent 0, fun id hid => ?_⟩, fun hw => ⟨fun hup => ?_, ?_⟩,
      fun code hcode => ?_⟩
    · have begins := hd.sent id
      rw [alone.others id hid] at begins
      exact List.prefix_nil.mp begins
    · exact (hd.all hw 0 hup).trans alone.sent
    · refine ⟨turn.m, hd.model hw, alone.count, fun stream => ?_⟩
      rw [up_iff_present, ← heard_waiting attends h hw]
      constructor
      · intro hs
        have there := held.known stream hs
        have own : stream.id = 0 := only' _ there.1
        exact ⟨congrArg TcpStream.mk own, own ▸ there⟩
      · rintro ⟨rfl, hp⟩
        exact alone.connected hp
    · have mem := hd.asked.subset hcode
      rcases held.ending with ⟨-, hgoes⟩ | ⟨-, hcodes, hlast⟩
      · exact absurd mem (hgoes code)
      · exact ⟨hcodes code mem, hlast⟩

def keyboard : Ansi Unit := ⟨fun _ => (), fun _ => "x", fun _ => .other⟩

def holding (m : Model) (event : Event Unit) : Platform.Boxes Model Unit (Event Unit) where
  model _ := some m
  event _ := some event
  onInput _ := some fun input => some (.UserInput input)
  onStream closure :=
    if closure = .readOnly 1 then some fun stream => some (.ServerConnected stream)
    else some fun stream => some (.ServerDisconnected stream)
  onData _ := some fun stream data => some (.MessageReceived stream data)

def record (effects : List Abi.Effect) : UpdateForHost where
  sub := { Subscriptions.none with
    stdin := .Ok (.readOnly 5)
    tcpConnect := .Ok ⟨⟨.null, serverAddress⟩, .readOnly 1, .readOnly 2, serverPort⟩
    tcpReceive := .Ok (.readOnly 3) }
  effects := ⟨.readOnly 4, effects⟩
  m := .readOnly 0

theorem holding_record {m m' : Model} {event : Event Unit} {effects : List Abi.Effect}
    {effects' : List App.Effect} (h : effects.map Platform.effectValue = effects') :
    (holding m event).Record ⟨m, getSubs m', effects'⟩ (record effects) where
  held := ⟨rfl, ⟨rfl, trivial, ⟨rfl, rfl, rfl, rfl⟩, rfl, trivial⟩⟩
  effects := h

theorem greets_one : ∃ log s,
    Platform.Runs 65536 (application keyboard) keyboard.parseRawStdin []
      (holding ⟨.NotConnected, [], 0⟩ (.ServerConnected ⟨0⟩)) log s ∧
    s.world.io.sent 0 = asBytes "Hello 1: x" ∧
    s.world.io.sent 0 = greetings keyboard (typed keyboard ((told (seen log)).map Prod.snd)) := by
  let connected : Model := ⟨.Connected ⟨0⟩, ["✓ Connected to server"], 0⟩
  let message := hello keyboard 1 ()
  let greeted : Model :=
    ⟨.Connected ⟨0⟩, ["✓ Connected to server", "→ Sent: " ++ message], 1⟩
  let greeting : RocList UInt8 := ⟨.readOnly 6, asBytes message⟩
  have first : (holding ⟨.NotConnected, [], 0⟩ (.ServerConnected ⟨0⟩)).Record
      (init ⟨0⟩ [] : App.Result Model Unit (Event Unit)) (record []) := holding_record rfl
  have second : (holding connected (.UserInput ())).Record
      ⟨connected, getSubs connected, []⟩ (record []) := holding_record rfl
  have third : (holding greeted (.UserInput ())).Record
      ⟨greeted, getSubs greeted, [.TcpSend ⟨0⟩ (asBytes message)]⟩
      (record [.TcpSend ⟨0⟩ greeting]) := holding_record rfl
  have said : update keyboard ⟨0⟩ connected (.UserInput ()) =
      some ⟨greeted, getSubs greeted, [.TcpSend ⟨0⟩ (asBytes message)]⟩ := rfl
  have inited : Platform.Runs 65536 (application keyboard) keyboard.parseRawStdin []
      (holding ⟨.NotConnected, [], 0⟩ (.ServerConnected ⟨0⟩)) _ _ :=
    .inited rfl first ⟨80, 24⟩ World.initial.io.heap
  have connects := inited.snoc (.host (.clientConnects rfl rfl) (by simp [Platform.isCall]))
  have started := Platform.Runs.noted connects (.clientStarted rfl (by decide)) rfl
  have asked := started.silent (.goto (.initEffectsDone rfl))
  have waiting := (asked.drawn rfl rfl rfl rfl).silent (.rendered rfl rfl)
  have taken := waiting.taken rfl rfl rfl rfl rfl rfl
  have answered := taken.answered rfl rfl (.readOnly 7) rfl rfl rfl second
  have shown := (answered.silent (.updateEffectsDone rfl)).drawn rfl rfl rfl rfl
  have waitingAgain := shown.silent (.rendered rfl rfl)
  -- A key is typed.
  have short : 0 < ([120] : List UInt8).length := by decide
  have typed := waitingAgain.typed rfl rfl rfl rfl short (by decide)
  have greets' := typed.answered rfl rfl (.readOnly 7) rfl rfl said third
  have sent := greets'.noted (.effect (o := .ok) rfl rfl) rfl
  have done := (sent.silent (.updateEffectsDone rfl)).drawn rfl rfl rfl rfl
  exact ⟨_, _, done, rfl, ((greets done).2.1 rfl).1 (by decide)⟩

end RocTui.TcpClient
