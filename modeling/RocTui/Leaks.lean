import RocTui.Ownership

namespace RocTui.Leaks

open RocTui.Lib RocTui.Abi RocTui.Tcp RocTui.Dispatch RocTui.Effects RocTui.Host
  RocTui.Execution RocTui.Release RocTui.Ownership

/-- Nothing on the heap was handed over that the host does not look at again. -/
structure Spare (log : List Obs) : Prop where
  discards_nil : ∀ o ∈ log, discards o = []
  unused_nil : ∀ p ∈ superseded log, unused p.1.sub p.2 = []

theorem dropped_eq_nil : dropped log = [] ↔ Spare log := by
  simp only [dropped, List.append_eq_nil_iff, List.flatMap_eq_nil_iff]
  exact ⟨fun h => ⟨h.1, h.2⟩, fun h => ⟨h.1, h.2⟩⟩

/-- A waiting host owns just the current model and `Subscriptions` exactly if nothing else on the
heap came with what it was handed; and what the labels take in and release, the heap counts. -/
theorem owns_current_iff (h : Runs cap log w) (hc : ∀ o ∈ log, Conforms o)
    (hpc : w.pc = .wait) :
    ((∀ a, owned log a = (reference .model w.currentModel ++ w.currentSubs.refs).count a) ↔
      Spare log) ∧
    ∀ kind n, w.io.heap.count ⟨kind, .heap n⟩ = countOf log ⟨kind, .heap n⟩ := by
  have owns := owned_eq (conforming h hc) (by simp [hpc, Pc.running])
  refine ⟨?_, count_eq h⟩
  rw [← dropped_eq_nil]
  constructor
  · intro current
    rw [List.eq_nil_iff_forall_not_mem]
    intro a ha
    have pos := List.count_pos_iff.mpr ha
    have eq := owns a
    rw [current a, held] at eq
    simp only [kept, hpc, List.count_append] at eq
    omega
  · intro none a
    rw [owns a, held, none, List.append_nil]
    simp only [kept, hpc]

theorem owns_current_iff_ticker : ∃ w, Runs 65536 tickLog w ∧
    foldedEvents tickLog = [⟨.heap 9, .timer⟩] ∧
    ∀ a, owned tickLog a = (reference .model w.currentModel ++ w.currentSubs.refs).count a := by
  obtain ⟨w, hrun, hpc⟩ := ticks
  have none : dropped tickLog = [] := rfl
  have current := owns_current_iff hrun conforms_tickLog hpc
  exact ⟨w, hrun, rfl, current.1.mpr (dropped_eq_nil.mp none)⟩

theorem rows_leak : ¬∀ log w, Runs 65536 log w → (∀ o ∈ log, Conforms o) → w.pc = .wait →
    ∀ a, owned log a = (reference .model w.currentModel ++ w.currentSubs.refs).count a := by
  intro current
  have inited : Runs 65536 _ (.inited ⟨80, 24⟩ ⟨.none, ⟨.null, []⟩, .readOnly 0⟩ _) :=
    Runs.inited ⟨80, 24⟩ ⟨.none, ⟨.null, []⟩, .readOnly 0⟩ World.initial.io.heap
  have begun := (inited.noTcp rfl rfl).snoc_silent (.goto (.initEffectsDone rfl))
  have retained := begun.snoc_silent (.increfStatic rfl rfl)
  have viewed : Runs 65536 _ { World.initial with
      pc := .render (.Ok ⟨.heap 3, [⟨.null, "hi"⟩]⟩)
      settings := ⟨80, 24⟩
      currentModel := .readOnly 0
      io := World.initial.io.emit [.enterAlternateScreen, .enableRawMode, .clearAll] } :=
    retained.snoc_one (.viewReturns rfl)
  have waits := viewed.snoc_silent (.rendered rfl rfl)
  have owns := current _ _ waits (by simp [Conforms, reference]) rfl ⟨.rows, .heap 3⟩
  exact absurd owns (by decide)

end RocTui.Leaks
