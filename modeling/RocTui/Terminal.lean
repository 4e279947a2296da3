import RocTui.Execution

namespace RocTui.Terminal

open RocTui.Lib RocTui.Abi RocTui.Tcp RocTui.Dispatch RocTui.Effects RocTui.Host
  RocTui.Execution

structure Screen where
  alternate : Bool
  raw : Bool
  deriving DecidableEq, Repr

def Screen.normal : Screen := ⟨false, false⟩

def Screen.taken : Screen := ⟨true, true⟩

def Screen.apply (s : Screen) : TermOp → Screen
  | .enterAlternateScreen => { s with alternate := true }
  | .leaveAlternateScreen => { s with alternate := false }
  | .enableRawMode => { s with raw := true }
  | .disableRawMode => { s with raw := false }
  | _ => s

def screenOf (ops : List TermOp) : Screen := ops.foldl Screen.apply .normal

def draws : TermOp → Bool
  | .clearAll | .moveTo _ _ | .moveToNextLine _ | .write _ | .println _ => true
  | _ => false

theorem foldl_draws {ops : List TermOp} (s : Screen) (h : ∀ op ∈ ops, draws op = true) :
    ops.foldl Screen.apply s = s := by
  induction ops generalizing s with
  | nil => rfl
  | cons op ops ih =>
    have keeps : s.apply op = s := by
      have hop := h op List.mem_cons_self
      cases op with
      | clearAll | moveTo | moveToNextLine | write | println => rfl
      | _ => cases hop
    rw [List.foldl_cons, keeps]
    exact ih s fun o ho => h o (List.mem_cons_of_mem _ ho)

theorem screenOf_append (ops ops' : List TermOp) :
    screenOf (ops ++ ops') = ops'.foldl Screen.apply (screenOf ops) := List.foldl_append

theorem screenOf_draws (ops : List TermOp) (h : ∀ op ∈ ops', draws op = true) :
    screenOf (ops ++ ops') = screenOf ops := by
  rw [screenOf_append, foldl_draws _ h]

theorem screenOf_cleanup (io : HostIo) : screenOf io.cleanupTerminal.terminal = .normal := by
  change screenOf (io.terminal ++ [.disableRawMode, .leaveAlternateScreen]) = .normal
  rw [screenOf_append]
  rfl

theorem screenOf_enter (io : HostIo) :
    screenOf (io.emit [.enterAlternateScreen, .enableRawMode, .clearAll]).terminal = .taken := by
  change screenOf (io.terminal ++ [.enterAlternateScreen, .enableRawMode, .clearAll]) = .taken
  rw [screenOf_append]
  rfl

theorem render_draws {v : ViewForHostResult} (h : render v = .ok ops) :
    ∀ op ∈ ops, draws op = true := by
  cases v with
  | Err =>
    cases h
    exact fun op hop => nomatch hop
  | Ok rows =>
    rw [render_Ok] at h
    cases h
    intro op hop
    rw [List.mem_append, List.mem_flatMap] at hop
    rcases hop with hop | ⟨row, _, hop⟩
    · simp only [List.mem_cons, List.not_mem_nil, or_false] at hop
      rcases hop with rfl | rfl <;> rfl
    · simp only [List.mem_cons, List.not_mem_nil, or_false] at hop
      rcases hop with rfl | rfl <;> rfl

theorem handled_screen (h : Handled io e code io' outcome) :
    screenOf io'.terminal = screenOf io.terminal := by
  cases h with
  | exit => rfl
  | print | writeToFile => exact screenOf_draws _ (by simp [draws])
  | tcpSend hs => cases hs <;> rfl

/-- The replies that end the process where it stands: a crash inside Roc, and a terminal that
will not tell its size. -/
def disturbs : Obs → Bool
  | .terminalSize none => true
  | .rocInit _ .crashed | .rocView _ _ .crashed | .makeEvent _ .crashed
  | .rocUpdate _ _ _ .crashed => true
  | _ => false

def Undisturbed (log : List Obs) : Prop := ∀ o ∈ log, disturbs o = false

theorem undisturbed_append (log es : List Obs) :
    Undisturbed (log ++ es) ↔ Undisturbed log ∧ Undisturbed es := by
  simp [Undisturbed, or_imp, forall_and]

def Shown (log : List Obs) (w : World) : Prop :=
  match w.pc with
  | .start => screenOf w.io.terminal = .normal ∧ Undisturbed log
  | .exited _ => screenOf w.io.terminal = .normal ∧ Undisturbed log
  | .crashed _ | .panicked => screenOf w.io.terminal = .taken ∧ ¬Undisturbed log
  | .misread => False
  | _ => screenOf w.io.terminal = .taken ∧ Undisturbed log

theorem Shown.of_running (h : Shown log w) (hrun : w.pc.running = true) : Undisturbed log := by
  unfold Shown at h
  cases hpc : w.pc with
  | crashed | panicked | misread => simp [hpc, Pc.running] at hrun
  | _ =>
    simp only [hpc] at h
    exact h.2

theorem Shown.taken (h : Shown log w) (hrun : w.pc.running = true) (hpc : w.pc ≠ .start) :
    screenOf w.io.terminal = .taken := by
  unfold Shown at h
  cases hc : w.pc with
  | start => exact (hpc hc).elim
  | exited | crashed | panicked | misread => simp [hc, Pc.running] at hrun
  | _ =>
    simp only [hc] at h
    exact h.1

theorem step_shown (hw : w.WellFormed) (h : Shown past w) (hs : Step cap w es w') :
    Shown (past ++ es) w' := by
  have run := step_running hs
  have quiet := h.of_running run
  cases hs with
  | enterTerminal hpc =>
    refine ⟨screenOf_enter w.io, ?_⟩
    rw [List.append_nil]
    exact quiet
  | sizeRead hpc | initReturns hpc | serverStarted hpc | clientConnects hpc | clientStarted hpc
  | increfCounted hpc | viewReturns hpc | recvDiscarded hpc | recvDispatched hpc | eventMade hpc
  | timerEvent hpc | updateReturns hpc =>
    refine ⟨h.taken run (by simp [hpc]), ?_⟩
    rw [undisturbed_append]
    exact ⟨quiet, by simp [Undisturbed, disturbs]⟩
  | updateEffectsDone hpc | increfStatic hpc | byteRead hpc =>
    refine ⟨h.taken run (by simp [hpc]), ?_⟩
    rw [List.append_nil]
    exact quiet
  | sizeFails hpc | initCrashes hpc | viewCrashes hpc | makeEventCrashes hpc | updateCrashes hpc =>
    refine ⟨h.taken run (by simp [hpc]), ?_⟩
    rw [undisturbed_append]
    simp [Undisturbed, disturbs]
  | rendered hpc hr =>
    refine ⟨?_, ?_⟩
    · exact (screenOf_draws _ (render_draws hr)).trans (h.taken run (by simp [hpc]))
    · rw [List.append_nil]
      exact quiet
  | effect hpc he =>
    refine ⟨?_, ?_⟩
    · exact (handled_screen (handled he)).trans (h.taken run (by simp [hpc]))
    · rw [undisturbed_append]
      exact ⟨quiet, by simp [Undisturbed, disturbs]⟩
  | exit | noEvent =>
    refine ⟨screenOf_cleanup _, ?_⟩
    rw [undisturbed_append]
    exact ⟨quiet, by simp [Undisturbed, disturbs]⟩
  | goto hg =>
    rw [List.append_nil]
    cases hg with
    | misread hm => simp [hw.placed.reads_ok] at hm
    | unwrapsNone hpc ht =>
      have placed := hw.placed
      simp [World.Placed, hpc, World.hasTcp, ht] at placed
    | _ hpc => exact ⟨h.taken run (by simp [hpc]), quiet⟩
  | thread hrun ht =>
    rename_i os _
    have same : Undisturbed (past ++ os.map .net) ↔ Undisturbed past := by
      rw [undisturbed_append]
      apply and_iff_left
      intro o ho
      obtain ⟨n, _, rfl⟩ := List.mem_map.mp ho
      rfl
    unfold Shown at h ⊢
    simp only [same]
    exact h
  | tick hrun =>
    rw [List.append_nil]
    exact h

theorem shown (h : Runs cap log w) : Shown log w := by
  refine h.invariant_of (I := Shown) Runs.wellFormed ?_ fun hw hi hs => step_shown hw hi hs
  exact ⟨rfl, fun o ho => nomatch ho⟩

/-- A process that has ended has left the terminal as it found it exactly if no call into Roc
crashed and the terminal told its size. -/
theorem restored_iff_undisturbed (h : Runs cap log w) (hend : w.pc.running = false) :
    screenOf w.io.terminal = .normal ↔ Undisturbed log := by
  have now := shown h
  unfold Shown at now
  cases hpc : w.pc with
  | exited code =>
    simp only [hpc] at now
    exact ⟨fun _ => now.2, fun _ => now.1⟩
  | crashed call =>
    simp only [hpc] at now
    rw [now.1]
    exact ⟨nofun, fun quiet => (now.2 quiet).elim⟩
  | panicked =>
    simp only [hpc] at now
    rw [now.1]
    exact ⟨nofun, fun quiet => (now.2 quiet).elim⟩
  | misread => simp [hpc] at now
  | _ => simp [hpc, Pc.running] at hend

theorem restored_iff_undisturbed_quitter : ∃ log w, Runs 65536 log w ∧ w.pc = .exited 3 ∧
    (screenOf w.io.terminal = .normal ↔ Undisturbed log) := by
  obtain ⟨log, w, quit, hpc, _⟩ := quits
  exact ⟨log, w, quit, hpc, restored_iff_undisturbed quit (by rw [hpc]; rfl)⟩

theorem crash_leaves_screen : ¬∀ log w, Runs 65536 log w → w.pc.running = false →
    screenOf w.io.terminal = .normal := by
  intro restored
  have dequeued := Runs.clientWaiting.tcp rfl rfl rfl rfl rfl rfl rfl
  have crashed := (dequeued.made rfl (.readOnly 6)).snoc_one (.updateCrashes rfl)
  cases restored _ _ crashed rfl

end RocTui.Terminal
