import RocTui.Behaviour

namespace RocTui.ElmExample

open RocTui.Lib RocTui.Lib.Elm
open RocTui.Abi RocTui.Markup RocTui.Frame
open RocTui.Host (World)
open RocTui.Platform (Boxes seen signal waits)
open RocTui.App (Ansi Application Key Signal)

structure Model where
  name : String
  cursorPos : Nat
  timer : Nat

inductive Event (Input : Type)
  | UserTyped (input : Input)

variable {Input : Type} (ansi : Ansi Input)

def inputToEvent (input : Input) : Event Input := .UserTyped input

def subs : App.Subscriptions Input (Event Input) where
  stdin := some fun input => some (inputToEvent input)
  acceptTcpConnection := none
  tcpConnect := none
  tcpReceive := none
  timer := none

/-- The sum is a `U64`, whose addition crashes on overflow. -/
def init (ctx : Context) (_ : List String) : Option (App.Result Model Input (Event Input)) :=
  let timer := ctx.nowNanos + 1000000000
  if timer < 2 ^ 64 then some ⟨⟨"Test WattApp", 0, timer⟩, subs, []⟩ else none

/-- The cursor is a `U16`, whose arithmetic crashes on overflow. -/
def newModel (model : Model) (input : Input) : Option (Bool × Model) :=
  match ansi.key input with
  | .CtrlC => some (true, model)
  | .ArrowUp =>
    if 1 ≤ model.cursorPos then some (false, { model with cursorPos := model.cursorPos - 1 })
    else none
  | .ArrowDown =>
    if model.cursorPos + 1 < 2 ^ 16 then
      some (false, { model with cursorPos := model.cursorPos + 1 })
    else none
  | .other => some (false, { model with name := ansi.inputToStr input, cursorPos := 2 })

def update (_ : Context) (model : Model) :
    Event Input → Option (App.Result Model Input (Event Input))
  | .UserTyped input => (newModel ansi model input).map fun (quit, newModel) =>
    ⟨newModel, if quit then .none else subs, []⟩

def view (_ : TerminalSettings) (model : Model) : View :=
  let selected : List Terminal := [.Bg .Blue, .Text "> "]
  let base : List Terminal := [.Fg .Green, .Text "  "]
  .RawMode <|
    [[.Text model.name, .Reset], [.Text "Orange", .Reset], [.Text "Banana", .Reset]].mapIdx
      fun index item =>
        let i := index % 2 ^ 16
        if i = model.cursorPos then selected ++ item else base ++ item

def application : Application Model Input (Event Input) where
  init := init
  update := update ansi
  view settings model := some (view settings model)

def keys (script : List (Context × Signal)) : List Key :=
  script.filterMap fun told => match told.2 with
    | .keys bytes => some (ansi.key (ansi.parseRawStdin bytes))
    | _ => none

def move (pos : Int) : Key → Int
  | .CtrlC => pos
  | .ArrowUp => pos - 1
  | .ArrowDown => pos + 1
  | .other => 2

def position (typed : List Key) : Int := typed.foldl move 0

def InRange (pos : Int) : Prop := 0 ≤ pos ∧ pos < 2 ^ 16

variable {ansi} {args : List String} {settings : TerminalSettings} {c : Context}
  {script : List (Context × Signal)} {turn : App.Result Model Input (Event Input)}

abbrev program (ansi : Ansi Input) (args : List String) (settings : TerminalSettings) :=
  (application ansi).program ansi.parseRawStdin args settings

theorem position_concat (typed : List Key) (key : Key) :
    position (typed ++ [key]) = move (position typed) key := by
  simp [position]

theorem keys_concat (c' : Context) (bytes : List UInt8) :
    keys ansi (script ++ [(c', .keys bytes)]) =
      keys ansi script ++ [ansi.key (ansi.parseRawStdin bytes)] := by
  simp [keys]

theorem newModel_range {model m : Model} {input : Input} {quit : Bool}
    (hpos : model.cursorPos < 2 ^ 16) (h : newModel ansi model input = some (quit, m)) :
    (m.cursorPos : Int) = move model.cursorPos (ansi.key input) ∧
      InRange (move model.cursorPos (ansi.key input)) := by
  unfold newModel at h
  cases hk : ansi.key input with
  | CtrlC =>
    simp only [hk] at h
    cases h
    simp only [move, InRange, true_and]
    omega
  | ArrowUp =>
    simp only [hk] at h
    split at h <;> cases h
    simp only [move, InRange]
    omega
  | ArrowDown =>
    simp only [hk] at h
    split at h <;> cases h
    simp only [move, InRange]
    omega
  | other =>
    simp only [hk] at h
    cases h
    simp [move, InRange]

theorem newModel_eq_none {model : Model} {input : Input} (hpos : model.cursorPos < 2 ^ 16) :
    newModel ansi model input = none ↔ ¬InRange (move model.cursorPos (ansi.key input)) := by
  constructor
  · intro h hrange
    unfold newModel at h
    cases hk : ansi.key input with
    | CtrlC | other =>
      simp only [hk] at h
      cases h
    | ArrowUp | ArrowDown =>
      simp only [hk, move, InRange] at h hrange
      split at h
      · cases h
      · omega
  · intro hrange
    cases hm : newModel ansi model input with
    | none => rfl
    | some next => exact absurd (newModel_range hpos hm).2 hrange

structure Holds (ansi : Ansi Input) (script : List (Context × Signal))
    (turn : App.Result Model Input (Event Input)) : Prop where
  cursor : (turn.m.cursorPos : Int) = position (keys ansi script)
  range : turn.m.cursorPos < 2 ^ 16
  sub : turn.sub = subs ∨ turn.sub = .none
  effects : turn.effects = []

theorem typed_of_event {signal : Signal} {out : Option (Event Input)}
    (hsub : sub = subs ∨ sub = App.Subscriptions.none)
    (h : sub.event ansi.parseRawStdin signal = some out) :
    ∃ bytes, signal = .keys bytes ∧ out = some (.UserTyped (ansi.parseRawStdin bytes)) := by
  rcases hsub with rfl | rfl
  · cases signal with
    | keys bytes =>
      cases h
      exact ⟨bytes, rfl, rfl⟩
    | _ => cases h
  · cases signal <;> cases h

theorem holds (h : (program ansi args settings).reached c script = some turn) :
    Holds ansi script turn := by
  refine reached_induction (p := program ansi args settings) (I := Holds ansi)
    (fun turn hi => ?_) ?_ h
  · simp only [Application.program, application, init] at hi
    split at hi <;> cases hi
    exact ⟨rfl, by simp, .inl rfl, rfl⟩
  · rintro script turn ⟨c', signal⟩ turn' - ih hanswer
    obtain ⟨event, hevent, hupdate⟩ := event_of_answer hanswer
    obtain ⟨bytes, rfl, hout⟩ := typed_of_event ih.sub hevent
    cases hout
    have updated : update ansi c' turn.m (.UserTyped (ansi.parseRawStdin bytes)) = some turn' :=
      hupdate
    obtain ⟨⟨quit, m⟩, hm, rfl⟩ := Option.map_eq_some_iff.mp updated
    obtain ⟨hcursor, hrange⟩ := newModel_range ih.range hm
    rw [← hcursor] at hrange
    refine ⟨?_, Int.ofNat_lt.mp hrange.2, ?_, rfl⟩
    · rw [keys_concat, position_concat, ← ih.cursor]
      exact hcursor
    · cases quit
      · exact .inl rfl
      · exact .inr rfl

theorem asked_nil (c : Context) (script : List (Context × Signal)) :
    (program ansi args settings).asked c script = [] := by
  induction script using List.reverseRecOn with
  | nil =>
    rw [Program.asked]
    cases hi : (program ansi args settings).init c with
    | none => rfl
    | some turn =>
      have begun := (reached_nil (program ansi args settings) c).trans hi
      exact (holds begun).effects
  | append_singleton script told ih =>
    rw [asked_concat, ih]
    cases hr : (program ansi args settings).reached c (script ++ [told]) with
    | none => rfl
    | some turn => exact (holds hr).effects

theorem edge_of_not_inRange {cursor : Nat} {key : Key} (hpos : cursor < 2 ^ 16)
    (h : ¬InRange (move cursor key)) : (cursor : Int) = 0 ∨ (cursor : Int) = 2 ^ 16 - 1 := by
  cases key <;> simp only [move, InRange] at h <;> omega

theorem sendsNothing : Platform.SendsNothing (application ansi) args where
  init ctx turn hi stream data hmem := by
    simp only [application, init] at hi
    split at hi <;> cases hi
    cases hmem
  update ctx m ev turn hu stream data hmem := by
    cases ev with
    | UserTyped input =>
      obtain ⟨out, -, rfl⟩ := Option.map_eq_some_iff.mp hu
      cases hmem

/-- An update crashes where the key moves the cursor out of the range of a `U16`, and nowhere
else. -/
def CrashesAtEdge (ansi : Ansi Input) (typed : List Key) : Host.Obs → Prop
  | .rocUpdate _ _ event reply => ∃ bytes, signal event.source = .keys bytes ∧
    (reply = .crashed ↔ ¬InRange (move (position typed) (ansi.key (ansi.parseRawStdin bytes))))
  | _ => True

section
variable {cap : Nat} {boxes : Boxes Model Input (Event Input)} {log es : List Host.Obs}
  {s s' : Platform.System Model Input (Event Input)}

theorem crashesAtEdge
    (h : Platform.Runs cap (application ansi) ansi.parseRawStdin args boxes log s)
    (hs : Platform.Step cap (application ansi) ansi.parseRawStdin args s es s') :
    ∀ o ∈ es, CrashesAtEdge ansi (keys ansi (told (seen log))) o := by
  cases hs with
  | host _ quiet =>
    intro o ho
    cases o with
    | rocUpdate => cases quiet _ ho
    | _ => trivial
  | init | view =>
    intro o ho
    cases List.mem_singleton.mp ho
    trivial
  | makeEvent hs =>
    obtain ⟨-, -, -, -, ⟨_, _, -, rfl, -⟩ | ⟨-, rfl, -⟩⟩ := Platform.makeEvent_step hs
    · simp [CrashesAtEdge]
    · simp [CrashesAtEdge]
  | update hs answer =>
    intro o ho
    cases List.mem_singleton.mp ho
    obtain ⟨hpc, rfl, -⟩ := Platform.update_step hs
    obtain ⟨phase, hrun, hmeets⟩ := Platform.played h
    simp only [Platform.Meets, hpc] at hmeets
    obtain ⟨turn, ev, rfl, hmodel, -, hevent⟩ := hmeets
    obtain ⟨c, hasked⟩ := asked hrun rfl
    have held : Holds ansi (told (seen log)) turn := holds hasked.reached
    obtain ⟨bytes, hbytes, hout⟩ := typed_of_event held.sub (event_of_update (follows hrun))
    cases hout
    refine ⟨bytes, hbytes, ?_⟩
    rw [← held.cursor, ← newModel_eq_none held.range]
    rw [Platform.updateForHost, hmodel, Script.expectSome_some, Script.ok_bind, hevent,
      Script.expectSome_some, Script.ok_bind] at answer
    cases hm : newModel ansi turn.m (ansi.parseRawStdin bytes) with
    | none =>
      have crashes (ctx : Context) : (application ansi).update ctx turn.m
        (.UserTyped (ansi.parseRawStdin bytes)) = none := congrArg (Option.map _) hm
      rw [crashes] at answer
      cases answer
      simp
    | some next =>
      have returns (ctx : Context) : (application ansi).update ctx turn.m
        (.UserTyped (ansi.parseRawStdin bytes)) = some _ := congrArg (Option.map _) hm
      rw [returns] at answer
      cases answer
      simp

/-- The app does nothing but draw, and once it has started it crashes where a key moves its cursor
past the bounds of a `U16` and nowhere else. -/
theorem crashes_only_at_edge
    (h : Run (Platform.Step cap (application ansi) ansi.parseRawStdin args)
      ⟨World.initial, boxes⟩ log s) :
    effectsIn (seen log) = [] ∧
    (waits s.world.pc = true → ∃ m, s.boxes.model s.world.currentModel = some m ∧
      (m.cursorPos : Int) = position (keys ansi (told (seen log))) ∧ m.cursorPos < 2 ^ 16) ∧
    (∀ es s', Platform.Step cap (application ansi) ansi.parseRawStdin args s es s' →
      ∀ o ∈ es, CrashesAtEdge ansi (keys ansi (told (seen log))) o) ∧
    ∀ call, s.world.pc = .crashed call → seen log = [] ∨
      position (keys ansi (told (seen log))) = 0 ∨
      position (keys ansi (told (seen log))) = 2 ^ 16 - 1 := by
  have spared := Platform.spared_of_sendsNothing sendsNothing h
  obtain ⟨phase, hrun, hmeets⟩ := Platform.played spared
  refine ⟨?_, fun hwaits => ?_, fun es s' hs => crashesAtEdge spared hs, fun call hpc => ?_⟩
  · rcases born hrun with hnone | ⟨c, hhead⟩
    · rw [hnone]
      rfl
    · obtain ⟨-, -, begins⟩ := effects_begin hrun hhead
      rw [asked_nil] at begins
      exact List.prefix_nil.mp begins
  · obtain ⟨turn, rfl, held⟩ := hmeets.waiting hwaits
    obtain ⟨c', -, -, hreached⟩ := complete hrun
    have cursor : Holds ansi (told (seen log)) turn := holds hreached
    exact ⟨turn.m, held.model, cursor.cursor, cursor.range⟩
  · simp only [Platform.Meets, hpc] at hmeets
    subst hmeets
    rcases crashed hrun with ⟨hnone, -⟩ | ⟨c', turn, -, hreached, hcrashes⟩
    · exact .inl hnone
    · right
      have held : Holds ansi (told (seen log)) turn := holds hreached
      rw [← held.cursor]
      rcases hcrashes with hview | ⟨i, hevent⟩ | ⟨c'', i, ev, hevent, hupdate⟩
      · cases hview
      · obtain ⟨bytes, -, hout⟩ := typed_of_event held.sub hevent
        cases hout
      · obtain ⟨bytes, -, hout⟩ := typed_of_event held.sub hevent
        cases hout
        have crashes : newModel ansi turn.m (ansi.parseRawStdin bytes) = none :=
          Option.map_eq_none_iff.mp hupdate
        exact edge_of_not_inRange held.range ((newModel_eq_none held.range).mp crashes)

end

def keyboard : Ansi Unit := ⟨fun _ => (), fun _ => "", fun _ => .ArrowUp⟩

def started : Model := ⟨"Test WattApp", 0, 1000000000⟩

def holding : Boxes Model Unit (Event Unit) where
  model _ := some started
  event _ := some (.UserTyped ())
  onInput _ := some fun input => some (inputToEvent input)
  onStream _ := none
  onData _ := none

def record : UpdateForHost where
  sub := { Subscriptions.none with stdin := .Ok (.readOnly 1) }
  effects := ⟨.null, []⟩
  m := .readOnly 0

theorem holding_record : holding.Record ⟨started, subs, []⟩ record where
  held := ⟨rfl, ⟨rfl, trivial, trivial, trivial, trivial⟩⟩
  effects := rfl

theorem crashes_only_at_edge_up : ∃ log s,
    Run (Platform.Step 65536 (application keyboard) keyboard.parseRawStdin [])
      ⟨World.initial, holding⟩ log s ∧
    (∃ call, s.world.pc = .crashed call) ∧ seen log ≠ [] ∧
    (position (keys keyboard (told (seen log))) = 0 ∨
      position (keys keyboard (told (seen log))) = 2 ^ 16 - 1) := by
  have begun : (application keyboard).init ⟨0⟩ [] = some ⟨started, subs, []⟩ := by
    simp [application, init, started]
  have inited : Platform.Runs 65536 (application keyboard) keyboard.parseRawStdin [] holding _ _ :=
    .inited begun holding_record ⟨80, 24⟩ World.initial.io.heap
  have noTcp := inited.silent (.goto (.tcpNotRequested rfl rfl))
  have asked := noTcp.silent (.goto (.initEffectsDone rfl))
  have waiting := (asked.drawn rfl rfl rfl rfl).silent (.rendered rfl rfl)
  have short : 0 < ([27, 91, 65] : List UInt8).length := by decide
  have typed := waiting.typed rfl rfl rfl rfl short (by decide)
  have answer : Platform.Answers (fun event box => holding.event box = some event)
      (Platform.makeEvent keyboard.parseRawStdin holding (.listU8 (.readOnly 1) [27, 91, 65]))
      (.returned (.readOnly 2) World.initial.io.heap) := .value rfl
  have refused : Platform.Answers holding.Record
      (Platform.updateForHost (application keyboard) holding ⟨0⟩ (.readOnly 0) (.readOnly 2))
      .crashed := .crash
  have made := (Run.mono (fun hs => hs.step) typed).snoc (.makeEvent (.eventMade rfl) answer rfl)
  have crashed := made.snoc_one (.update (.updateCrashes rfl) refused)
  obtain ⟨-, -, -, edge⟩ := crashes_only_at_edge crashed
  exact ⟨_, _, crashed, ⟨_, rfl⟩, List.cons_ne_nil _ _,
    (edge _ rfl).resolve_left (List.cons_ne_nil _ _)⟩

end RocTui.ElmExample
