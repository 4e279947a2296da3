import RocTui.Ownership

namespace RocTui.Consumption

open RocTui.Lib RocTui.Abi RocTui.Tcp RocTui.Dispatch RocTui.Effects RocTui.Host
  RocTui.Execution RocTui.Release RocTui.Ownership

/-- A call consumes only references the host owns. -/
def Covered (past : List Obs) (o : Obs) : Prop :=
  ∀ a ∈ consumes o, ((consumes o).count a : Int) ≤ owned past a

theorem covered_call (h : Conforming cap past w) (hpc : w.pc = .makeEvent call)
    (reply : Reply RocBox) : Covered past (.makeEvent call reply) := by
  have owns := owned_eq h (by simp [hpc, Pc.running])
  have source := sourced (Conforming.runs h)
  simp only [Sourced, hpc] at source
  intro a _
  have le := count_closure_le source a
  rw [owns, held]
  simp only [consumes, kept, hpc, List.count_append]
  omega

theorem covered (h : Conforming cap log w) : Always Covered log := by
  refine Run.always ?_ h
  intro past w es w' hr hs
  have owns := owned_eq hr (step_running hs.1)
  cases hs.1 with
  | viewReturns hpc | viewCrashes hpc | updateReturns hpc | updateCrashes hpc =>
    refine ⟨?_, trivial⟩
    intro a _
    rw [owns, held]
    simp only [consumes, kept, hpc, List.count_append]
    omega
  | eventMade hpc => exact ⟨covered_call hr hpc _, by simp [Covered, consumes], trivial⟩
  | makeEventCrashes hpc => exact ⟨covered_call hr hpc _, trivial⟩
  | thread hrun ht =>
    apply after_net
    intro o past' a ha
    cases ha
  | _ => simp [Always.After, Covered, consumes]

/-- An update leaves the host one reference to the model it returned and none to any other. -/
def LeavesOneModel (past : List Obs) (o : Obs) : Prop :=
  ∀ ctx model event r heap, o = .rocUpdate ctx model event (.returned r heap) →
    ∀ ptr, owned (past ++ [o]) ⟨.model, ptr⟩ = (reference .model r.m).count ⟨.model, ptr⟩

theorem model_notMem_reference (h : kind ≠ .model) (ptr ptr' : Addr) :
    ⟨.model, ptr'⟩ ∉ reference kind ptr := by
  intro hm
  cases mem_reference hm
  exact h rfl

theorem model_notMem_str (s : RocStr) (ptr : Addr) : ⟨.model, ptr⟩ ∉ s.refs :=
  model_notMem_reference (by decide) _ _

theorem notMem_tryRefs {f : α → List Alloc} (h : ∀ p, a ∉ f p) (t : TryResult α) :
    a ∉ t.refs f := by
  cases t with
  | Err => exact List.not_mem_nil
  | Ok p => exact h p

theorem model_notMem_subs (subs : Subscriptions) (ptr : Addr) : ⟨.model, ptr⟩ ∉ subs.refs := by
  have event : ∀ p q, ⟨.model, q⟩ ∉ reference .event p := model_notMem_reference (by decide)
  have callable : ∀ p q, ⟨.model, q⟩ ∉ reference .callable p :=
    model_notMem_reference (by decide)
  simp only [Subscriptions.refs, List.mem_append, not_or, and_assoc]
  refine ⟨?_, ?_, ?_, ?_, ?_⟩ <;> apply notMem_tryRefs <;> intro p
  · exact event _ _
  · simp [callable, model_notMem_str]
  · exact callable _ _
  · simp [callable, model_notMem_str]
  · exact callable _ _

theorem model_notMem_texts (e : Effect) (ptr : Addr) : ⟨.model, ptr⟩ ∉ textRefs e := by
  cases e <;> simp [textRefs, model_notMem_str]

theorem model_notMem_data (e : Effect) (ptr : Addr) : ⟨.model, ptr⟩ ∉ dataRefs e := by
  cases e with
  | TcpSend stream data => exact model_notMem_reference (by decide) _ _
  | _ => exact List.not_mem_nil

theorem model_notMem_discards (o : Obs) (ptr : Addr) : ⟨.model, ptr⟩ ∉ discards o := by
  have effects : ∀ p q, ⟨.model, q⟩ ∉ reference .effects p := model_notMem_reference (by decide)
  have rows : ∀ p q, ⟨.model, q⟩ ∉ reference .rows p := model_notMem_reference (by decide)
  cases o with
  | rocInit ctx reply | rocUpdate ctx model event reply =>
    cases reply <;> simp [discards, effects, model_notMem_texts]
  | rocView settings model reply =>
    cases reply with
    | crashed => exact List.not_mem_nil
    | returned v heap =>
      refine notMem_tryRefs ?_ v
      intro l
      simp [rows, model_notMem_str]
  | _ => exact List.not_mem_nil

theorem model_notMem_dropped (log : List Obs) (ptr : Addr) : ⟨.model, ptr⟩ ∉ dropped log := by
  simp only [dropped, List.mem_append, List.mem_flatMap, not_or, not_exists, not_and]
  constructor
  · intro o _
    exact model_notMem_discards o ptr
  · intro p _ hm
    exact model_notMem_subs p.1.sub ptr (List.diff_subset _ _ hm)

theorem leavesOneModel (h : Conforming cap log w) : Always LeavesOneModel log := by
  refine Run.always ?_ h
  intro past w es w' hr hs
  have owns := owned_eq (hr.snoc hs)
  cases hs.1 with
  | updateReturns hpc =>
    refine ⟨?_, trivial⟩
    intro _ _ _ _ _ heq ptr
    cases heq
    rename_i r _
    have subs := List.count_eq_zero.mpr (model_notMem_subs r.sub ptr)
    have data : (r.effects.asSlice.flatMap dataRefs).count ⟨.model, ptr⟩ = 0 := by
      simp [List.count_eq_zero, model_notMem_data]
    have lost := fun log => List.count_eq_zero.mpr (model_notMem_dropped log ptr)
    rw [owns rfl, held, List.count_append, lost]
    simp only [kept, List.count_append, subs, data]
    omega
  | thread hrun ht =>
    apply after_net
    intro o past' _ _ _ _ _ heq
    cases heq
  | _ => simp [Always.After, LeavesOneModel]

def takes : Obs → Bool
  | .makeEvent _ _ => true
  | .rocUpdate _ _ ⟨_, .timer⟩ _ => true
  | _ => false

inductive Takes (subs : Subscriptions) : Obs → Prop
  | callback : FromSubs subs call → Takes subs (.makeEvent call reply)
  | timer : subs.timer = .Ok p → Takes subs (.rocUpdate ctx model ⟨p.onFire, .timer⟩ reply)

def Untouched (log : List Obs) (subs : Subscriptions) : Prop :=
  ∃ before o r rest, log = before ++ o :: rest ∧ receipt o = some r ∧ receipts rest = [] ∧
    (∀ x ∈ rest, takes x = false) ∧ r.sub = subs

/-- A call uses up something of the latest `Subscriptions`, and is the first to do so. -/
def FirstUse (past : List Obs) (o : Obs) : Prop :=
  takes o = true → ∃ subs, Untouched past subs ∧ Takes subs o

theorem Untouched.append (h : Untouched log subs) (hret : receipts es = [])
    (htakes : ∀ x ∈ es, takes x = false) : Untouched (log ++ es) subs := by
  obtain ⟨before, o, r, rest, rfl, ho, hrest, hall, hsub⟩ := h
  refine ⟨before, o, r, rest ++ es, by simp, ho, ?_, ?_, hsub⟩
  · rw [receipts_append, hrest, hret]
    rfl
  · intro x hx
    rcases List.mem_append.mp hx with hold | hnew
    · exact hall x hold
    · exact htakes x hnew

theorem Untouched.fresh (ho : receipt o = some r) : Untouched (log ++ [o]) r.sub :=
  ⟨log, o, r, [], rfl, ho, rfl, by simp, rfl⟩

def Whole (log : List Obs) (w : World) : Prop :=
  match w.pc with
  | .start | .size | .init => True
  | .effects _ (some r) => Untouched log r.sub
  | .update event => event.source = .timer → Untouched log w.currentSubs
  | .exited _ | .crashed _ | .panicked | .misread => True
  | _ => Untouched log w.currentSubs

theorem Whole.quiet {w w' : World} (h : Whole past w) (hret : receipts es = [])
    (htakes : ∀ x ∈ es, takes x = false) (hpc : w'.pc = w.pc)
    (hsubs : w'.currentSubs = w.currentSubs) : Whole (past ++ es) w' := by
  unfold Whole at h ⊢
  rw [hpc, hsubs]
  cases hp : w.pc with
  | start | size | init | exited | crashed | panicked | misread => trivial
  | effects rest next =>
    simp only [hp] at h ⊢
    cases next with
    | none | some r => exact h.append hret htakes
  | update event =>
    simp only [hp] at h ⊢
    exact fun ht => (h ht).append hret htakes
  | _ =>
    simp only [hp] at h ⊢
    exact h.append hret htakes

theorem whole_step (hw : w.WellFormed) (h : Whole past w) (hs : Step cap w es w') :
    Whole (past ++ es) w' := by
  cases hs with
  | initReturns | updateReturns =>
    simp only [Whole]
    exact Untouched.fresh rfl
  | updateEffectsDone hpc =>
    simp only [Whole, hpc] at h ⊢
    rw [List.append_nil]
    exact h
  | thread hrun ht =>
    refine h.quiet ?_ ?_ rfl rfl
    · exact filterMap_net (fun _ => rfl) _
    · intro x hx
      obtain ⟨n, _, rfl⟩ := List.mem_map.mp hx
      rfl
  | tick => exact h.quiet rfl (by simp) rfl rfl
  | effect hpc he =>
    rename_i next
    cases next with
    | none | some r =>
      simp only [Whole, hpc] at h ⊢
      exact h.append rfl (by simp [takes])
  | goto hg =>
    rw [List.append_nil]
    unfold Whole at h
    cases hg with
    | misread hm => simp [hw.placed.reads_ok] at hm
    | unwrapsNone => trivial
    | _ hpc =>
      simp only [Whole, hpc] at h ⊢
      exact h
  | exit | noEvent | sizeFails | initCrashes | viewCrashes | makeEventCrashes | updateCrashes
  | enterTerminal | sizeRead =>
    trivial
  | eventMade => simp [Whole]
  | timerEvent hpc =>
    simp only [Whole, hpc] at h ⊢
    exact fun _ => h.append rfl (by simp [takes])
  | _ hpc =>
    simp only [Whole, hpc] at h ⊢
    exact h.append rfl (by simp [takes])

theorem whole (h : Runs cap log w) : Whole log w := by
  refine h.invariant_of (I := Whole) Runs.wellFormed ?_ fun hw hi hs => whole_step hw hi hs
  trivial

theorem firstUse_call (h : Runs cap past w) (hpc : w.pc = .makeEvent call)
    (reply : Reply RocBox) : FirstUse past (.makeEvent call reply) := by
  have now := whole h
  have source := sourced h
  simp only [Whole, Sourced, hpc] at now source
  exact fun _ => ⟨w.currentSubs, now, .callback source⟩

theorem firstUse_update (h : Runs cap past w) (hpc : w.pc = .update event) (ctx : Context)
    (model : RocBox) (reply : Reply UpdateForHost) :
    FirstUse past (.rocUpdate ctx model event reply) := by
  have now := whole h
  have source := sourced h
  simp only [Whole, Sourced, hpc] at now source
  intro ht
  obtain ⟨box, call | _⟩ := event
  · cases ht
  · obtain ⟨p, hp, rfl⟩ := source
    exact ⟨w.currentSubs, now rfl, .timer hp⟩

theorem firstUse (h : Runs cap log w) : Always FirstUse log := by
  refine h.always ?_
  intro past w es w' hr hs
  cases hs with
  | eventMade hpc => exact ⟨firstUse_call hr hpc _, by simp [FirstUse, takes], trivial⟩
  | makeEventCrashes hpc => exact ⟨firstUse_call hr hpc _, trivial⟩
  | updateReturns hpc | updateCrashes hpc => exact ⟨firstUse_update hr hpc _ _ _, trivial⟩
  | thread hrun ht =>
    apply after_net
    intro o past' htakes
    cases htakes
  | _ => simp [Always.After, FirstUse, takes]

def OwnsModel (past : List Obs) (o : Obs) : Prop :=
  ∀ model, modelPassed o = some model → ∀ a ∈ reference .model model, 0 < owned past a

theorem Covered.ownsModel (h : Covered past o) : OwnsModel past o := by
  intro model hmodel a ha
  have mem : a ∈ consumes o := by
    cases o with
    | rocView settings m reply =>
      cases hmodel
      exact ha
    | rocUpdate ctx m event reply =>
      cases hmodel
      exact List.mem_append_left _ ha
    | _ => cases hmodel
  have pos := List.count_pos_iff.mpr mem
  have le := h a mem
  omega

def PassesLive (past : List Obs) (o : Obs) : Prop :=
  ∀ model, modelPassed o = some model → ∀ a ∈ reference .model model, 0 < countOf past a

theorem OwnsModel.live (h : OwnsModel past o) (hb : Backed past) : PassesLive past o := by
  intro model hmodel a ha
  have owns := h model hmodel a ha
  cases model with
  | null | readOnly => cases ha
  | heap n =>
    cases mem_reference ha
    have counts := hb n
    omega

theorem passesLive (h : Conforming cap log w) (hc : Always Honours log) :
    Always PassesLive log := by
  induction h with
  | nil => exact Always.nil
  | snoc hr hs ih =>
    refine (ih hc.of_append).append ?_
    have live := backed (Conforming.runs hr) hc.of_append
    have owns := covered (hr.snoc hs)
    cases hs.1 with
    | viewReturns | viewCrashes | updateReturns | updateCrashes =>
      exact ⟨owns.of_concat.2.ownsModel.live live, trivial⟩
    | thread hrun ht =>
      apply after_net
      intro o past' model hm
      cases hm
    | _ => simp [Always.After, PassesLive, modelPassed]

/-- On the way to a view the count of the model box goes up by one; a count of 0 stays. -/
def RaisesModel (cap : Nat) (w : World) : Prop :=
  ∀ es w' n, w.pc = .incref → Step cap w es w' → w'.pc = .view →
    w'.io.heap.count ⟨.model, .heap n⟩ =
      if w.io.heap.count ⟨.model, .heap n⟩ = 0 then 0
      else w.io.heap.count ⟨.model, .heap n⟩ +
        (reference .model w.currentModel).count ⟨.model, .heap n⟩

theorem raisesModel (cap : Nat) (w : World) : RaisesModel cap w := by
  intro es w' n hpc hs hview
  cases hs with
  | increfCounted => exact count_increfBox _ _ _ _
  | increfStatic _ hstatic =>
    by_cases hm : w.currentModel = .heap n
    · have zero : w.io.heap.count ⟨.model, .heap n⟩ = 0 := by simpa [counted, hm] using hstatic
      simp [zero]
    · have other : (reference .model w.currentModel).count ⟨.model, .heap n⟩ = 0 := by
        refine List.count_eq_zero.mpr fun hmem => hm ?_
        have same := mem_reference hmem
        simpa using same.symm
      simp only [other, Nat.add_zero]
      split <;> omega
  | goto hg => cases hg <;> simp_all
  | noEvent hn => cases hn <;> simp_all
  | thread | tick =>
    rw [hpc] at hview
    cases hview
  | _ => simp_all

structure Sound (cap : Nat) (log : List Obs) (w : World) : Prop where
  ownsModel : Always OwnsModel log
  oneModel : Always LeavesOneModel log
  firstUse : Always FirstUse log
  foldedOnce : returnedEvents log = foldedEvents log ++ pendingEvents w.pc
  readsOk : w.reads = .ok () ∧ w.pc ≠ .misread
  covered : Always Covered log
  counts : ∀ kind n, w.io.heap.count ⟨kind, .heap n⟩ = countOf log ⟨kind, .heap n⟩
  raises : RaisesModel cap w
  backed : Always Honours log → Backed log ∧ Always PassesLive log

/-- The main loop owns all it passes on, and passes each callback, timer box and event on at
most once. -/
theorem loop_sound (h : Runs cap log w) (hc : ∀ o ∈ log, Conforms o) : Sound cap log w where
  ownsModel := (covered (conforming h hc)).imp fun _ _ hp => hp.ownsModel
  oneModel := leavesOneModel (conforming h hc)
  firstUse := firstUse h
  foldedOnce := returnedEvents_eq h
  readsOk := by
    have placed := (Runs.wellFormed h).placed
    refine ⟨placed.reads_ok, ?_⟩
    intro hpc
    simp [World.Placed, hpc] at placed
  covered := covered (conforming h hc)
  counts := count_eq h
  raises := raisesModel cap w
  backed honours := ⟨backed h honours, passesLive (conforming h hc) honours⟩

theorem loop_sound_ticker : ∃ w, Runs 65536 tickLog w ∧
    foldedEvents tickLog = [⟨.heap 9, .timer⟩] ∧ Sound 65536 tickLog w ∧
    Always PassesLive tickLog := by
  obtain ⟨w, hrun, _⟩ := ticks
  have sound := loop_sound hrun conforms_tickLog
  exact ⟨w, hrun, rfl, sound, (sound.backed honours_tickLog).2⟩

end RocTui.Consumption
