import RocTui.Platform

namespace RocTui.Platform

open RocTui.Lib RocTui.Lib.Elm
open RocTui.Abi RocTui.Tcp RocTui.Dispatch RocTui.Effects RocTui.Host RocTui.Frame
open RocTui.Execution
open RocTui.App (Signal)

def signalOf : EventCall → Signal
  | .listU8 _ bytes => .keys bytes
  | .tcpConnected _ _ id => .connected ⟨id⟩
  | .tcpDisconnected _ _ id => .disconnected ⟨id⟩
  | .tcpReceive _ id data => .received ⟨id⟩ data

def signal : EventSource → Signal
  | .made call => signalOf call
  | .timer => .timer

abbrev Seen := Elm.Obs Context App.Effect Signal (TryResult (List String))

def visible : Host.Obs → List Seen
  | .rocInit ctx (.returned _ _) => [.init ctx]
  | .effect e _ => [.effect (effectValue e)]
  | .rocView _ _ (.returned v _) => [.page (rowsOf v)]
  | .rocUpdate ctx _ event (.returned _ _) => [.update ctx (signal event.source)]
  | _ => []

def seen (log : List Host.Obs) : List Seen := log.flatMap visible

theorem seen_append (log es : List Host.Obs) : seen (log ++ es) = seen log ++ seen es :=
  List.flatMap_append

theorem seen_net (os : List NetObs) : seen (os.map .net) = [] := by
  induction os with
  | nil => rfl
  | cons o os ih => exact ih

def drawing : Seen → List TermOp
  | .effect (.Print text) => [.println ("Print: " ++ text)]
  | .effect (.WriteToFile filename content) =>
    [.println ("WriteToFile: filename=" ++ filename ++ " content=" ++ content)]
  | .page (.Ok rows) =>
    [.clearAll, .moveTo 0 0] ++ rows.flatMap fun row => [.write row, .moveToNextLine 1]
  | _ => []

def entering : List TermOp := [.enterAlternateScreen, .enableRawMode, .clearAll]

def leaving : List TermOp := [.disableRawMode, .leaveAlternateScreen]

def drawn (log : List Host.Obs) : List TermOp := entering ++ (seen log).flatMap drawing

/-- The terminal has taken the effects and the views, in order, and nothing else.  A page that has
been made is drawn in the next step. -/
def Shown (log : List Host.Obs) (w : World) : Prop :=
  match w.pc with
  | .start => w.io.terminal = [] ∧ seen log = []
  | .render v => w.io.terminal ++ drawing (.page (rowsOf v)) = drawn log
  | .exited _ => w.io.terminal = drawn log ++ leaving
  | _ => w.io.terminal = drawn log

theorem drawn_append (log es : List Host.Obs) :
    drawn (log ++ es) = drawn log ++ (seen es).flatMap drawing := by
  rw [drawn, drawn, seen_append, List.flatMap_append, List.append_assoc]

theorem drawing_of_render {v : ViewForHostResult} (h : render v = .ok ops) :
    ops = drawing (.page (rowsOf v)) := by
  cases v with
  | Err =>
    cases h
    rfl
  | Ok rows =>
    rw [render_Ok] at h
    cases h
    simp only [drawing, rowsOf, List.flatMap_map]

theorem handled_drawing (h : Handled io e code io' outcome) :
    io'.terminal = io.terminal ++ drawing (.effect (effectValue e)) := by
  cases h with
  | exit => exact (List.append_nil _).symm
  | print | writeToFile => rfl
  | tcpSend hs => cases hs <;> exact (List.append_nil _).symm

theorem Shown.quiet {w w' : World} (h : Shown log w) (hnone : seen es = [])
    (hpc : w'.pc = w.pc) (hio : w'.io = w.io) : Shown (log ++ es) w' := by
  unfold Shown at h ⊢
  rw [hpc, hio, drawn_append, seen_append, hnone, List.flatMap_nil, List.append_nil,
    List.append_nil]
  exact h

def drew : Pc → Bool
  | .start | .render _ | .exited _ => false
  | _ => true

theorem shown_of_drew {w : World} (hpc : drew w.pc = true) :
    Shown log w ↔ w.io.terminal = drawn log := by
  unfold Shown
  split <;> simp_all [drew]

theorem Shown.still {w w' : World} (h : Shown log w) (hdrew : drew w.pc = true)
    (hdrew' : drew w'.pc = true) (hnone : (seen es).flatMap drawing = [])
    (hio : w'.io.terminal = w.io.terminal) : Shown (log ++ es) w' := by
  rw [shown_of_drew hdrew']
  rw [shown_of_drew hdrew] at h
  rw [hio, h, drawn_append, hnone, List.append_nil]

theorem Shown.step (hw : w.WellFormed) (h : Shown log w) (hs : Host.Step cap w es w') :
    Shown (log ++ es) w' := by
  have drew_of {pc : Pc} (hpc : w.pc = pc) (hdrew : drew pc = true) : drew w.pc = true :=
    hpc ▸ hdrew
  cases hs with
  | enterTerminal hpc =>
    simp only [Shown, hpc] at h
    change w.io.terminal ++ entering = drawn (log ++ [])
    rw [h.1, List.append_nil, drawn, h.2]
    rfl
  | effect hpc he =>
    rw [shown_of_drew (drew_of hpc rfl)] at h
    refine (shown_of_drew rfl).mpr ?_
    rw [drawn_append, ← h]
    exact (handled_drawing (handled he)).trans (by simp [seen, visible])
  | exit hpc he =>
    rw [shown_of_drew (drew_of hpc rfl)] at h
    rename_i io _ _ _ _
    change io.terminal ++ leaving = _ ++ leaving
    rw [drawn_append, ← h, handled_drawing (handled he)]
    simp [seen, visible]
  | viewReturns hpc =>
    rw [shown_of_drew (drew_of hpc rfl)] at h
    change w.io.terminal ++ _ = _
    rw [drawn_append, ← h]
    simp [seen, visible]
  | rendered hpc hr =>
    simp only [Shown, hpc] at h
    refine (shown_of_drew rfl).mpr ?_
    rw [List.append_nil, ← h, ← drawing_of_render hr]
    rfl
  | noEvent hn =>
    have before : drew w.pc = true := by cases hn <;> exact drew_of (by assumption) rfl
    rw [shown_of_drew before] at h
    change w.io.terminal ++ leaving = _ ++ leaving
    rw [drawn_append, ← h]
    simp [seen, visible]
  | goto hg =>
    cases hg with
    | misread hm => simp [hw.placed.reads_ok] at hm
    | _ hpc => exact h.still (drew_of hpc rfl) rfl rfl rfl
  | thread hrun ht => exact h.quiet (seen_net _) rfl rfl
  | tick => exact h.quiet rfl rfl rfl
  | _ hpc => exact h.still (drew_of hpc rfl) rfl rfl rfl

theorem shown (h : Host.Runs cap log w) : Shown log w :=
  h.invariant_of (I := Shown) Runs.wellFormed ⟨rfl, rfl⟩ fun hw hi hs => hi.step hw hs

def outcomeOf : Host.Obs → Option SendOutcome
  | .effect _ outcome => some outcome
  | _ => none

def outcomes (log : List Host.Obs) : List SendOutcome := log.filterMap outcomeOf

def gives (stream : Socket) : App.Effect → SendOutcome → List UInt8
  | .TcpSend _ data, .written writer => if writer = stream then data else []
  | .TcpSend _ data, .cut writer accepted => if writer = stream then data.take accepted else []
  | _, _ => []

def given (log : List Host.Obs) (stream : Socket) : List UInt8 :=
  (List.zipWith (gives stream) (effectsIn (seen log)) (outcomes log)).flatten

end RocTui.Platform
