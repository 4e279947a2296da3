import RocTui.Abi
import RocTui.Tcp

namespace RocTui.Effects

open RocTui.Abi RocTui.Tcp

inductive TermOp
  | enterAlternateScreen | leaveAlternateScreen
  | enableRawMode | disableRawMode
  | clearAll
  | moveTo (column row : Nat)
  | moveToNextLine (lines : Nat)
  | write (text : String)
  | println (line : String)
  deriving DecidableEq, Repr

/-- What `handle_effects` works on.  `sent` is what each socket has taken from its writer. -/
structure HostIo where
  tcp : Option TcpState
  sent : Socket → List UInt8
  heap : Heap
  terminal : List TermOp

def HostIo.emit (io : HostIo) (ops : List TermOp) : HostIo :=
  { io with terminal := io.terminal ++ ops }

def HostIo.cleanupTerminal (io : HostIo) : HostIo :=
  io.emit [.disableRawMode, .leaveAlternateScreen]

/-- How the kernel answers a `write_all`: everything is taken, or an error comes after
`accepted` bytes. -/
inductive WriteOutcome
  | ok
  | fails (accepted : Nat)
  deriving DecidableEq, Repr

def writeAll (o : WriteOutcome) (data : List UInt8) : Except Nat Unit :=
  match o with
  | .ok => .ok ()
  | .fails accepted => if accepted < data.length then .error accepted else .ok ()

/-- What became of a `TcpSend`; `performed` stands for every other effect. -/
inductive SendOutcome
  | performed
  | skipped
  | written (stream : Socket)
  | cut (stream : Socket) (accepted : Nat)
  deriving DecidableEq, Repr

def HostIo.take (io : HostIo) (stream : Socket) (bytes : List UInt8) : HostIo :=
  { io with sent := Function.update io.sent stream (io.sent stream ++ bytes) }

def HostIo.tcpSend (io : HostIo) (o : WriteOutcome) (id : Nat) (data : List UInt8) :
    HostIo × SendOutcome :=
  match io.tcp with
  | none => (io, .skipped)
  | some t =>
    match t.writers id with
    | none => (io, .skipped)
    | some writer =>
      match writeAll o data with
      | .ok () => (io.take writer data, .written writer)
      | .error accepted =>
        ({ io.take writer (data.take accepted) with
            tcp := some { t with writers := Function.update t.writers id none } },
          .cut writer accepted)

def handleEffect (o : WriteOutcome) (io : HostIo) :
    Effect → Option Nat × HostIo × SendOutcome
  | .Exit code => (some code, io, .performed)
  | .Print text => (none, io.emit [.println ("Print: " ++ text.text)], .performed)
  | .WriteToFile content filename =>
    (none, io.emit [.println ("WriteToFile: filename=" ++ filename.text ++ " content=" ++
      content.text)], .performed)
  | .TcpSend stream data =>
    let (io', outcome) := io.tcpSend o stream.id data.asSlice
    -- `payload.decref`: the stream holds no reference, the data list holds one.
    (none, { io' with heap := data.decref io'.heap .bytes }, outcome)

/-- The loop of `handle_effects`; `outcome` answers the write of each effect by the number of
effects after it. -/
def handleEffects (outcome : Nat → WriteOutcome) : List Effect → HostIo → Option Nat × HostIo
  | [], io => (none, io)
  | e :: rest, io =>
    match handleEffect (outcome rest.length) io e with
    | (some code, io', _) => (some code, io')
    | (none, io', _) => handleEffects outcome rest io'

inductive Sent (io : HostIo) (id : Nat) (data : List UInt8) : HostIo → SendOutcome → Prop
  | noTcp : io.tcp = none → Sent io id data io .skipped
  | unknown : io.tcp = some t → t.writers id = none → Sent io id data io .skipped
  | written : io.tcp = some t → t.writers id = some writer →
      Sent io id data (io.take writer data) (.written writer)
  | cut : io.tcp = some t → t.writers id = some writer → accepted < data.length →
      Sent io id data
        { io.take writer (data.take accepted) with
          tcp := some { t with writers := Function.update t.writers id none } }
        (.cut writer accepted)

theorem tcpSend_sent (io : HostIo) (o : WriteOutcome) (id : Nat) (data : List UInt8) :
    Sent io id data (io.tcpSend o id data).1 (io.tcpSend o id data).2 := by
  cases ht : io.tcp with
  | none =>
    simp only [HostIo.tcpSend, ht]
    exact .noTcp ht
  | some t =>
    cases hw : t.writers id with
    | none =>
      simp only [HostIo.tcpSend, ht, hw]
      exact .unknown ht hw
    | some writer =>
      cases o with
      | ok =>
        simp only [HostIo.tcpSend, ht, hw, writeAll]
        exact .written ht hw
      | fails accepted =>
        by_cases hlt : accepted < data.length
        · simp only [HostIo.tcpSend, ht, hw, writeAll, hlt, if_true]
          exact .cut ht hw hlt
        · simp only [HostIo.tcpSend, ht, hw, writeAll, hlt, if_false]
          exact .written ht hw

inductive Handled (io : HostIo) : Effect → Option Nat → HostIo → SendOutcome → Prop
  | exit : Handled io (.Exit code) (some code) io .performed
  | print : Handled io (.Print text) none (io.emit [.println ("Print: " ++ text.text)]) .performed
  | writeToFile : Handled io (.WriteToFile content filename) none
      (io.emit [.println ("WriteToFile: filename=" ++ filename.text ++ " content=" ++
        content.text)]) .performed
  | tcpSend : Sent io stream.id data.asSlice io' outcome →
      Handled io (.TcpSend stream data) none { io' with heap := data.decref io'.heap .bytes }
        outcome

theorem handleEffect_handled (o : WriteOutcome) (io : HostIo) (e : Effect) :
    Handled io e (handleEffect o io e).1 (handleEffect o io e).2.1 (handleEffect o io e).2.2 := by
  cases e with
  | Exit code => exact .exit
  | Print text => exact .print
  | WriteToFile content filename => exact .writeToFile
  | TcpSend stream data => exact .tcpSend (tcpSend_sent io o stream.id data.asSlice)

theorem handled (h : handleEffect o io e = (code, io', outcome)) :
    Handled io e code io' outcome := by
  have hh := handleEffect_handled o io e
  rw [h] at hh
  exact hh

theorem Sent.isSome_tcp {id : Nat} (h : Sent io id data io' outcome) :
    io'.tcp.isSome = io.tcp.isSome := by
  cases h with
  | noTcp | unknown | written => rfl
  | cut ht => simp [ht]

theorem Handled.isSome_tcp (h : Handled io e code io' outcome) :
    io'.tcp.isSome = io.tcp.isSome := by
  cases h with
  | exit | print | writeToFile => rfl
  | tcpSend hs => exact hs.isSome_tcp

theorem Handled.exit_eq {code : Nat} (h : Handled io e (some code) io' outcome) :
    e = .Exit code ∧ io' = io ∧ outcome = .performed := by
  cases h with
  | exit => exact ⟨rfl, rfl, rfl⟩

end RocTui.Effects
