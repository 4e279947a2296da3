import RocTui.Seen

namespace RocTui.Platform

open RocTui.Lib RocTui.Abi RocTui.Effects RocTui.Host RocTui.Execution RocTui.Release
open RocTui.App (Application)

/-- How a record is handed over: counted, and with an effects list that is the host's alone or
releases nothing within reach of what the host goes on with. -/
def HandsOver : Host.Obs → Prop
  | .rocInit _ (.returned r heap) | .rocUpdate _ _ _ (.returned r heap) =>
    ∃ others, HandedOver heap r.effects r.m (r.sub.refs ++ others) ∧
      (r.effects.hasOneRef heap .effects = true ∨
        ∀ q ∈ released r.effects.asSlice, heap.count q ≠ 0 →
          ∀ p ∈ reference .model r.m ++ r.sub.refs, ¬heap.Reaches p q)
  | _ => True

/-- All that the roots reach has more references than are still to be released. -/
structure Covered (h : Heap) (effects : List Abi.Effect) (roots : List Alloc) : Prop where
  static : Static h
  covers : ∀ q ∈ released effects, h.count q ≠ 0 → (∃ r ∈ roots, h.Reaches r q) →
    (released effects).count q < h.count q

theorem covered_of_handedOver {r : UpdateForHost}
    (hh : HandedOver h r.effects r.m (r.sub.refs ++ others))
    (hspares : r.effects.hasOneRef h .effects = true ∨
      ∀ q ∈ released r.effects.asSlice, h.count q ≠ 0 →
        ∀ p ∈ reference .model r.m ++ r.sub.refs, ¬h.Reaches p q) :
    Covered h r.effects.asSlice (reference .model r.m ++ r.sub.refs) := by
  refine ⟨hh.static, fun q hq hc ⟨p, hp, hreach⟩ => ?_⟩
  rcases hspares with hone | happart
  · obtain ⟨n, ha, hcount⟩ := hh.unique hone
    have balanced := hh.balanced_cons ha
    have stored : (released r.effects.asSlice).Subperm
        (h.children ⟨.effects, r.effects.addr⟩) := by
      rw [ha]
      exact (released_sublist r.effects.asSlice).subperm.trans (hh.stored n ha)
    have root : p ∈ reference .model r.m ++ (r.sub.refs ++ others) := by
      rw [← List.append_assoc]
      exact List.mem_append_left _ hp
    have remains := balanced.remaining_pos hcount root hreach
    have covered := balanced.release_unique hcount stored hc
    rw [RefHeap.count_decrefAll] at covered
    omega
  · exact absurd hreach (happart q hq hc p hp)

theorem Covered.next {roots : List Alloc} (hc : Covered io.heap (e :: rest) roots)
    (hh : Handled io e none io' outcome) : Covered io'.heap rest roots := by
  have heap := handled_heap hc.static hh
  have goes : isExit e = false := by cases hh <;> rfl
  rw [heap]
  refine ⟨hc.static.decrefAll _, fun q hq hne ⟨r, hr, hreach⟩ => ?_⟩
  rw [RefHeap.count_decrefAll] at hne ⊢
  have all := hc.covers q (by rw [released_cons goes]; exact List.mem_append_right _ hq) (by omega)
    ⟨r, hr, hreach.congr (RefHeap.children_decrefAll _ _).symm⟩
  rw [released_cons goes, List.count_append] at all
  omega

def Careful (w : World) : Prop :=
  match w.pc with
  | .startTcp effects | .clientNotify _ effects | .effects effects _ =>
    Covered w.io.heap effects (roots w)
  | _ => True

theorem effect_pc (hs : Host.Step cap w es w') (ho : .effect e outcome ∈ es) :
    ∃ rest next, w.pc = .effects (e :: rest) next := by
  cases hs with
  | effect hpc | exit hpc =>
    cases List.mem_singleton.mp ho
    exact ⟨_, _, hpc⟩
  | _ => simp at ho

theorem Careful.not_dangles (h : Careful w) (hs : Host.Step cap w es w') :
    ∀ o ∈ es, ¬Dangles w o := by
  intro o ho hd
  cases o with
  | effect e outcome =>
    obtain ⟨q, hq, hone, hreach⟩ := hd
    obtain ⟨rest, next, hpc⟩ := effect_pc hs ho
    simp only [Careful, hpc] at h
    have goes : isExit e = false := by
      cases e with
      | Exit code => cases hq
      | _ => rfl
    have mem : q ∈ released (e :: rest) := by
      rw [released_cons goes]
      exact List.mem_append_left _ hq
    have fewer := h.covers q mem (by omega) hreach
    have pos := List.count_pos_iff.mpr mem
    omega
  | _ => exact hd

theorem Careful.step (hw : w.WellFormed) (h : Careful w) (hs : Host.Step cap w es w')
    (hover : ∀ o ∈ es, HandsOver o) : Careful w' := by
  cases hs with
  | initReturns | updateReturns =>
    obtain ⟨others, hh, hspares⟩ := hover _ (List.mem_singleton_self _)
    exact covered_of_handedOver hh hspares
  | serverStarted hpc | clientConnects hpc | clientStarted hpc =>
    simp only [Careful, hpc] at h
    unfold Careful roots
    unfold roots at h
    rw [hpc] at h
    exact h
  | effect hpc he =>
    simp only [Careful, hpc] at h
    have covered := h.next (handled he)
    unfold roots at covered
    rw [hpc] at covered
    rename_i next
    cases next <;> exact covered
  | goto hg =>
    cases hg with
    | tcpNotRequested hpc | tcpFails hpc =>
      simp only [Careful, hpc] at h
      unfold roots at h
      rw [hpc] at h
      exact h
    | misread hm => simp [hw.placed.reads_ok] at hm
    | _ => trivial
  | thread | tick => exact h
  | _ => trivial

theorem careful (h : Host.Runs cap log w) (hover : ∀ o ∈ log, HandsOver o) : Careful w :=
  Run.invariant_of (I := fun _ w => Careful w)
    (fun hr => Host.Runs.wellFormed (Run.mono (fun hs => hs.1) hr)) trivial
    (fun hw hi hs => hi.step hw hs.1 hs.2) (Run.restrict h hover)

variable {Model Input Event : Type} {app : Application Model Input Event}
  {parseRawStdin : List UInt8 → Input} {args : List String} {boxes : Boxes Model Input Event}

/-- Nothing in the boxes is disturbed where records are handed over as they should be. -/
theorem spared (h : Run (Step cap app parseRawStdin args) ⟨World.initial, boxes⟩ log s)
    (hover : ∀ o ∈ log, HandsOver o) : Runs cap app parseRawStdin args boxes log s := by
  induction h with
  | nil => exact .nil
  | snoc hr hs ih =>
    have before := fun o ho => hover o (List.mem_append_left _ ho)
    have host : Host.Runs cap _ _ := Run.project System.world (fun hs => .inl (step_host hs)) hr
    exact (ih before).snoc (hs.spares fun w => (careful host before).not_dangles)

end RocTui.Platform
