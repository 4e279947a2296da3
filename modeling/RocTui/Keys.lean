import RocTui.Stdin

namespace RocTui.Keys

open RocTui.Lib RocTui.Abi RocTui.Tcp RocTui.Dispatch RocTui.Effects RocTui.Host
open RocTui.Execution RocTui.Stdin

def stdinData (e : Event) : Option (List UInt8) :=
  match e.source with
  | .made (.listU8 _ data) => some data
  | _ => none

/-- What the stdin events handed to `roc_update` carry, `parse` being `ANSI.parse_raw_stdin`. -/
def delivered (parse : List UInt8 → Input) (log : List Obs) : List Input :=
  ((foldedEvents log).filterMap stdinData).map parse

/-- What has been read and not handed to `roc_update`: the event is still in the making, is
waiting for its update, or was lost when its making crashed. -/
def undelivered : Pc → List (List UInt8)
  | .makeEvent (.listU8 _ data) => [data]
  | .update event => (stdinData event).toList
  | .crashed (.makeEvent (.listU8 _ data)) => [data]
  | _ => []

def lost : Pc → List (List UInt8)
  | .crashed (.makeEvent (.listU8 _ data)) => [data]
  | _ => []

theorem passed_eq (h : Runs cap log w) :
    passed log = (returnedEvents log).filterMap stdinData ++ lost w.pc := by
  refine h.invariant_of
    (I := fun log w => passed log = (returnedEvents log).filterMap stdinData ++ lost w.pc)
    Runs.wellFormed rfl ?_
  intro past s es t hw hi hs
  have hrunning : lost s.pc = [] := by
    have hrun := step_running hs
    cases hpc : s.pc with
    | crashed call => simp [hpc, Pc.running] at hrun
    | _ => rfl
  rw [hrunning, List.append_nil] at hi
  rw [passed_append, returnedEvents_append, List.filterMap_append, hi, List.append_assoc,
    List.append_cancel_left_eq]
  cases hs with
  | thread hrun ht =>
    simp [passed, returnedEvents, returnedEvent, hrunning, List.filterMap_map,
      Function.comp_def]
  | tick => simpa [passed, returnedEvents] using hrunning
  | goto hg =>
    cases hg with
    | misread hm => simp [hw.placed.reads_ok] at hm
    | _ => simp [passed, returnedEvents, lost]
  | eventMade | makeEventCrashes =>
    rename EventCall => call
    cases call <;>
      simp [passed, returnedEvents, returnedEvent, stdinData, lost, List.filterMap_cons]
  | timerEvent => simp [passed, returnedEvents, returnedEvent, stdinData, lost]
  | _ => simp [passed, returnedEvents, returnedEvent, lost]

theorem reads_eq {c : Console} (h : ConsoleRuns cap log c) :
    c.reads = (foldedEvents log).filterMap stdinData ++ undelivered c.world.pc := by
  have hruns : Runs cap log c.world := ConsoleRuns.runs h
  rw [← (passedOn h).reads, passed_eq hruns, returnedEvents_eq hruns, List.filterMap_append,
    List.append_assoc, List.append_assoc, List.append_cancel_left_eq]
  cases hpc : c.world.pc with
  | makeEvent call => cases call <;> rfl
  | update event =>
    cases hdata : stdinData event <;> simp [pendingEvents, lost, inFlight, undelivered, hdata]
  | crashed call =>
    cases call with
    | makeEvent call => cases call <;> rfl
    | _ => rfl
  | _ => rfl

theorem length_flatten_eq_iff {groups : List (List α)} (h : ∀ g ∈ groups, g ≠ []) :
    groups.flatten.length = groups.length ↔ ∀ g ∈ groups, g.length = 1 := by
  have hle : ∀ gs : List (List α), (∀ g ∈ gs, g ≠ []) → gs.length ≤ gs.flatten.length := by
    intro gs hgs
    induction gs with
    | nil => simp
    | cons g gs ih =>
      have hg : 0 < g.length := List.length_pos_of_ne_nil (hgs g (by simp))
      have htail := ih fun x hx => hgs x (by simp [hx])
      simp only [List.flatten_cons, List.length_append, List.length_cons]
      omega
  induction groups with
  | nil => simp
  | cons g gs ih =>
    have hg : 0 < g.length := List.length_pos_of_ne_nil (h g (by simp))
    have htail : ∀ x ∈ gs, x ≠ [] := fun x hx => h x (by simp [hx])
    have hgs := hle gs htail
    simp only [List.flatten_cons, List.length_append, List.length_cons, List.forall_mem_cons,
      ← ih htail]
    omega

theorem flatten_singles {groups : List (List α)} (h : ∀ g ∈ groups, g.length = 1)
    (f : List α → β) : groups.map f = groups.flatten.map fun a => f [a] := by
  induction groups with
  | nil => rfl
  | cons g gs ih =>
    obtain ⟨a, rfl⟩ := List.length_eq_one_iff.mp (h g (by simp))
    simpa using ih fun x hx => h x (by simp [hx])

/-- One event for each read, whatever it holds; that is one for each key press exactly when
every read holds one key press.  `groups` are the key presses, read by read. -/
theorem delivered_by_read {c : Console} (parse : List UInt8 → Input)
    (h : ConsoleRuns cap log c) :
    delivered parse log ++ (undelivered c.world.pc).map parse = c.reads.map parse ∧
    ∀ groups : List (List (List UInt8)), (∀ g ∈ groups, g ≠ []) →
      c.reads = groups.map List.flatten → undelivered c.world.pc = [] →
      (delivered parse log = groups.flatten.map parse ↔ ∀ g ∈ groups, g.length = 1) := by
  have hreads : delivered parse log ++ (undelivered c.world.pc).map parse = c.reads.map parse := by
    rw [reads_eq h, List.map_append, delivered]
  refine ⟨hreads, fun groups hne hgroups hrest => ?_⟩
  rw [hrest, List.map_nil, List.append_nil, hgroups] at hreads
  rw [hreads]
  constructor
  · intro heq
    have hlen := congrArg List.length heq
    simp only [List.length_map] at hlen
    exact (length_flatten_eq_iff hne).mp hlen.symm
  · intro hone
    rw [List.map_map, flatten_singles hone]
    simp

theorem keys_handled {bytes : List UInt8} (hne : bytes ≠ []) (hlen : bytes.length ≤ 16384) :
    ∃ log c, ConsoleRuns cap log c ∧ c.reads = [bytes] ∧ undelivered c.world.pc = [] := by
  have hread : ∃ log d m, ConsoleRuns cap log
      (atKeys (.makeEvent (.listU8 (.readOnly 1) bytes)) d [bytes] m) :=
    keys_typed_run hne hlen
  obtain ⟨log, d, m, hrun⟩ := hread
  let event : Event := ⟨.readOnly 2, .made (.listU8 (.readOnly 1) bytes)⟩
  have made : ∃ log, ConsoleRuns cap log (atKeys (.update event) d [bytes] m) :=
    ⟨_, hrun.snoc (.host (.eventMade rfl) trivial)⟩
  obtain ⟨log, hmade⟩ := made
  let r : UpdateForHost := ⟨keysInit.sub, ⟨.null, []⟩, .readOnly 0⟩
  have updated : ∃ log, ConsoleRuns cap log (atKeys (.effects [] (some r)) d [bytes] m) :=
    have hs : Step cap { keysWorld with pc := .update event }
        [.rocUpdate keysWorld.makeContext keysWorld.currentModel event
          (.returned r keysWorld.io.heap)]
        { keysWorld with pc := .effects [] (some r) } := .updateReturns rfl
    ⟨_, hmade.snoc (.host hs trivial)⟩
  obtain ⟨log, hupdated⟩ := updated
  exact ⟨log, _, hupdated, rfl, rfl⟩

theorem delivered_by_read_typed : ∃ log c, ConsoleRuns 65536 log c ∧
    delivered List.length log = [[[104], [105]].flatten].map List.length := by
  have hhandled : ∃ log c, ConsoleRuns 65536 log c ∧ c.reads = [[104, 105]] ∧
      undelivered c.world.pc = [] := keys_handled (by simp) (by simp)
  obtain ⟨log, c, hrun, hreads, hrest⟩ := hhandled
  have hdelivered := (delivered_by_read List.length hrun).1
  rw [hrest, List.map_nil, List.append_nil, hreads] at hdelivered
  exact ⟨log, c, hrun, hdelivered⟩

theorem keys_merged : ∃ log c, ConsoleRuns 65536 log c ∧ c.reads = [[97, 98]] ∧
    undelivered c.world.pc = [] ∧ ∀ (Input : Type) (parse : List UInt8 → Input),
      delivered parse log ≠ [[97], [98]].map parse := by
  have hhandled : ∃ log c, ConsoleRuns 65536 log c ∧ c.reads = [[97, 98]] ∧
      undelivered c.world.pc = [] := keys_handled (by simp) (by simp)
  obtain ⟨log, c, hrun, hreads, hrest⟩ := hhandled
  refine ⟨log, c, hrun, hreads, hrest, fun Input parse heq => ?_⟩
  have hall := reads_eq hrun
  rw [hreads, hrest, List.append_nil] at hall
  rw [delivered, ← hall] at heq
  exact absurd (congrArg List.length heq) (by simp)

end RocTui.Keys
