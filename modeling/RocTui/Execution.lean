import RocTui.History
import RocTui.Rounds

namespace RocTui.Execution

open RocTui.Lib RocTui.Abi RocTui.Tcp RocTui.Dispatch RocTui.Effects RocTui.Host

def receipt : Obs → Option UpdateForHost
  | .rocInit _ (.returned r _) => some r
  | .rocUpdate _ _ _ (.returned r _) => some r
  | _ => none

def executedEffect : Obs → Option Effect
  | .effect e _ => some e
  | _ => none

def returnedEvent : Obs → Option Event
  | .event e => some e
  | _ => none

def foldedEvent : Obs → Option Event
  | .rocUpdate _ _ event _ => some event
  | _ => none

def receipts (log : List Obs) : List UpdateForHost := log.filterMap receipt

def executed (log : List Obs) : List Effect := log.filterMap executedEffect

def returnedEffects (log : List Obs) : List Effect :=
  (receipts log).flatMap fun r => r.effects.asSlice

def returnedEvents (log : List Obs) : List Event := log.filterMap returnedEvent

def foldedEvents (log : List Obs) : List Event := log.filterMap foldedEvent

def latest (log : List Obs) : Option UpdateForHost := (receipts log).getLast?

def untilExit : List Effect → List Effect
  | [] => []
  | .Exit code :: _ => [.Exit code]
  | e :: rest => e :: untilExit rest

def isExit : Effect → Bool
  | .Exit _ => true
  | _ => false

def pendingEffects : Pc → List Effect
  | .startTcp effects | .clientNotify _ effects | .effects effects _ => effects
  | _ => []

def pendingEvents : Pc → List Event
  | .update event => [event]
  | _ => []

section
variable (log es : List Obs)

theorem receipts_append : receipts (log ++ es) = receipts log ++ receipts es :=
  List.filterMap_append

theorem executed_append : executed (log ++ es) = executed log ++ executed es :=
  List.filterMap_append

theorem returnedEffects_append :
    returnedEffects (log ++ es) = returnedEffects log ++ returnedEffects es := by
  simp [returnedEffects, receipts_append]

theorem returnedEvents_append :
    returnedEvents (log ++ es) = returnedEvents log ++ returnedEvents es := List.filterMap_append

theorem foldedEvents_append :
    foldedEvents (log ++ es) = foldedEvents log ++ foldedEvents es := List.filterMap_append

end

theorem untilExit_append (done rest : List Effect) (h : ∀ e ∈ done, isExit e = false) :
    untilExit (done ++ rest) = done ++ untilExit rest := by
  induction done with
  | nil => rfl
  | cons e done ih =>
    have tail := ih fun x hx => h x (List.mem_cons_of_mem _ hx)
    cases e with
    | Exit code => simp [isExit] at h
    | Print text => simp only [List.cons_append, untilExit, tail]
    | WriteToFile content filename => simp only [List.cons_append, untilExit, tail]
    | TcpSend stream data => simp only [List.cons_append, untilExit, tail]

/-- How far the run is through the effects it has been handed: still going through them, or
ended by the first `Exit`. -/
inductive Progress (log : List Obs) (w : World) : Prop
  | going : (∀ e ∈ executed log, isExit e = false) →
      executed log ++ pendingEffects w.pc = returnedEffects log → Progress log w
  | exited {code : Nat} : (∀ e ∈ done, isExit e = false) →
      executed log = done ++ [.Exit code] → returnedEffects log = executed log ++ dropped →
      w.pc = .exited code → Progress log w

theorem Progress.begins (h : Progress log w) :
    executed log <+: untilExit (returnedEffects log) := by
  cases h with
  | going hdone heq =>
    rw [← heq, untilExit_append _ _ hdone]
    exact List.prefix_append _ _
  | exited hdone hex heq hpc =>
    rw [heq, hex, List.append_assoc, untilExit_append _ _ hdone]
    exact List.prefix_rfl

theorem Progress.complete (h : Progress log w) (hp : pendingEffects w.pc = []) :
    executed log = untilExit (returnedEffects log) := by
  cases h with
  | going hdone heq =>
    rw [← heq, hp, untilExit_append _ _ hdone]
    simp [untilExit]
  | exited hdone hex heq hpc =>
    rw [heq, hex, List.append_assoc, untilExit_append _ _ hdone]
    rfl

theorem step_running (h : Step cap w es w') : w.pc.running = true := by
  cases h with
  | goto hg =>
    cases hg with
    | misread hm =>
      cases hpc : w.pc with
      | exited code => simp [World.reads, hpc, pure, Except.pure] at hm
      | crashed call => simp [World.reads, hpc, pure, Except.pure] at hm
      | panicked => simp [World.reads, hpc, pure, Except.pure] at hm
      | misread => simp [World.reads, hpc, pure, Except.pure] at hm
      | _ => rfl
    | _ => simp [Pc.running, *]
  | noEvent hn => cases hn <;> simp [Pc.running, *]
  | thread hrun ht => exact hrun
  | tick hrun => exact hrun
  | _ => simp [Pc.running, *]

theorem Progress.quiet {w w' : World} (hdone : ∀ e ∈ executed past, isExit e = false)
    (heq : executed past ++ pendingEffects w.pc = returnedEffects past) (hex : executed es = [])
    (hret : receipts es = []) (hpend : pendingEffects w'.pc = pendingEffects w.pc) :
    Progress (past ++ es) w' := by
  refine .going ?_ ?_
  · rw [executed_append, hex, List.append_nil]
    exact hdone
  · rw [executed_append, returnedEffects_append, hex, hpend, List.append_nil, heq]
    simp [returnedEffects, hret]

theorem Progress.receive {w w' : World} (hdone : ∀ e ∈ executed past, isExit e = false)
    (heq : executed past ++ pendingEffects w.pc = returnedEffects past) (hex : executed es = [])
    (hret : receipts es = [r]) (hnone : pendingEffects w.pc = [])
    (hpend : pendingEffects w'.pc = r.effects.asSlice) : Progress (past ++ es) w' := by
  refine .going ?_ ?_
  · rw [executed_append, hex, List.append_nil]
    exact hdone
  · rw [executed_append, returnedEffects_append, hex, hpend, ← heq, hnone]
    simp [returnedEffects, hret]

theorem Progress.step (hw : w.WellFormed) (h : Progress past w) (hs : Step cap w es w') :
    Progress (past ++ es) w' := by
  have run := step_running hs
  cases h with
  | exited _ _ _ hpc => simp [hpc, Pc.running] at run
  | going hdone heq =>
    cases hs with
    | effect hpc he =>
      have hpend : pendingEffects w.pc = _ := congrArg pendingEffects hpc
      refine .going ?_ ?_
      · rw [executed_append]
        intro e hmem
        rw [List.mem_append] at hmem
        cases hmem with
        | inl hold => exact hdone e hold
        | inr hnew =>
          simp only [executed, executedEffect, List.filterMap_cons, List.filterMap_nil,
            List.mem_singleton] at hnew
          rw [hnew]
          cases handled he <;> rfl
      · rw [executed_append, returnedEffects_append, ← heq, hpend]
        simp [executed, executedEffect, returnedEffects, receipts, receipt, List.filterMap_cons,
          pendingEffects]
    | exit hpc he =>
      rename_i outcome rest _ code
      have hpend : pendingEffects w.pc = _ := congrArg pendingEffects hpc
      obtain ⟨rfl, _, _⟩ := (handled he).exit_eq
      have performed : executed (past ++ [.effect (.Exit code) outcome]) =
          executed past ++ [.Exit code] := by
        rw [executed_append]
        rfl
      have returned : returnedEffects (past ++ [.effect (.Exit code) outcome]) =
          executed (past ++ [.effect (.Exit code) outcome]) ++ rest := by
        rw [performed, returnedEffects_append, ← heq, hpend]
        simp [returnedEffects, receipts, receipt, List.filterMap_cons, pendingEffects]
      exact .exited hdone performed returned rfl
    | initReturns hpc | updateReturns hpc =>
      refine Progress.receive hdone heq rfl rfl ?_ rfl
      rw [hpc]
      rfl
    | thread hrun ht =>
      refine Progress.quiet hdone heq ?_ ?_ rfl
      · exact filterMap_net (fun _ => rfl) _
      · exact filterMap_net (fun _ => rfl) _
    | tick => exact Progress.quiet hdone heq rfl rfl rfl
    | goto hg =>
      refine Progress.quiet hdone heq rfl rfl ?_
      cases hg with
      | misread hm => simp [hw.placed.reads_ok] at hm
      | _ => simp [pendingEffects, *]
    | noEvent hn =>
      refine Progress.quiet hdone heq rfl rfl ?_
      cases hn <;> simp [pendingEffects, *]
    | _ =>
      refine Progress.quiet hdone heq rfl rfl ?_
      simp [pendingEffects, *]

theorem progress (h : Runs cap log w) : Progress log w := by
  refine h.invariant_of (I := Progress) Runs.wellFormed ?_ fun hw hi hs => hi.step hw hs
  exact .going (fun e he => nomatch he) rfl

theorem returnedEvents_eq (h : Runs cap log w) :
    returnedEvents log = foldedEvents log ++ pendingEvents w.pc := by
  refine h.invariant_of
    (I := fun log w => returnedEvents log = foldedEvents log ++ pendingEvents w.pc)
    Runs.wellFormed rfl ?_
  intro past s es t hw hi hs
  rw [returnedEvents_append, foldedEvents_append, hi]
  cases hs with
  | thread hrun ht =>
    simp [returnedEvents, returnedEvent, foldedEvents, foldedEvent, List.filterMap_map,
      Function.comp_def]
  | tick => simp [returnedEvents, foldedEvents]
  | goto hg =>
    cases hg with
    | misread hm => simp [hw.placed.reads_ok] at hm
    | _ => simp [returnedEvents, foldedEvents, pendingEvents, *]
  | noEvent hn =>
    cases hn <;>
      simp [returnedEvents, returnedEvent, foldedEvents, foldedEvent, List.filterMap_cons,
        pendingEvents, *]
  | _ =>
    simp [returnedEvents, returnedEvent, foldedEvents, foldedEvent, List.filterMap_cons,
      pendingEvents, *]

theorem latest_of_quiet (h : receipts es = []) : latest (past ++ es) = latest past := by
  simp [latest, receipts_append, h]

theorem latest_concat (h : receipts es = [r]) : latest (past ++ es) = some r := by
  simp [latest, receipts_append, h]

/-- Outside `handle_effects` the loop holds the model and `Subscriptions` of the latest record;
inside, it still holds those of the record before. -/
def Current (log : List Obs) (w : World) : Prop :=
  match w.pc with
  | .start | .size | .init => receipts log = []
  | .effects _ (some r) => latest log = some r
  | .exited _ | .crashed _ | .panicked | .misread => True
  | _ => ∃ r, latest log = some r ∧ r.m = w.currentModel ∧ r.sub = w.currentSubs

theorem Current.quiet {w w' : World} (h : Current past w) (hret : receipts es = [])
    (hpc : w'.pc = w.pc) (hm : w'.currentModel = w.currentModel)
    (hsubs : w'.currentSubs = w.currentSubs) : Current (past ++ es) w' := by
  unfold Current
  rw [latest_of_quiet hret, receipts_append, hret, List.append_nil, hpc, hm, hsubs]
  exact h

theorem Current.step (hw : w.WellFormed) (h : Current past w) (hs : Step cap w es w') :
    Current (past ++ es) w' := by
  cases hs with
  | initReturns => exact ⟨_, latest_concat rfl, rfl, rfl⟩
  | updateReturns => exact latest_concat rfl
  | updateEffectsDone hpc =>
    simp only [Current, hpc] at h
    exact ⟨_, by rwa [List.append_nil], rfl, rfl⟩
  | thread hrun ht =>
    refine h.quiet ?_ rfl rfl rfl
    exact filterMap_net (fun _ => rfl) _
  | tick => exact h.quiet rfl rfl rfl rfl
  | effect hpc he =>
    rename_i next
    unfold Current at h ⊢
    rw [latest_of_quiet rfl]
    cases next with
    | none => simpa only [hpc] using h
    | some r => simpa only [hpc] using h
  | goto hg =>
    rw [List.append_nil]
    unfold Current at h
    cases hg with
    | misread hm => simp [hw.placed.reads_ok] at hm
    | unwrapsNone => trivial
    | _ hpc =>
      simp only [hpc] at h
      exact h
  | exit | noEvent | sizeFails | initCrashes | viewCrashes | makeEventCrashes | updateCrashes =>
    trivial
  | enterTerminal hpc | sizeRead hpc =>
    simp only [Current, hpc] at h
    change receipts (past ++ _) = []
    rw [receipts_append, h]
    rfl
  | _ hpc =>
    unfold Current at h ⊢
    rw [latest_of_quiet rfl]
    simp only [hpc] at h
    exact h

theorem current (h : Runs cap log w) : Current log w :=
  h.invariant_of (I := Current) Runs.wellFormed rfl fun hw hi hs => hi.step hw hs

def modelPassed : Obs → Option RocBox
  | .rocView _ model _ => some model
  | .rocUpdate _ model _ _ => some model
  | _ => none

def Settled (past : List Obs) (o : Obs) : Prop :=
  (receipt o).isSome → executed past = returnedEffects past

def PassesLatest (past : List Obs) (o : Obs) : Prop :=
  ∀ model, modelPassed o = some model → ∃ r, latest past = some r ∧ r.m = model

theorem Progress.settled (h : Progress log w) (hrun : w.pc.running = true)
    (hpend : pendingEffects w.pc = []) : executed log = returnedEffects log := by
  cases h with
  | going _ heq => rwa [hpend, List.append_nil] at heq
  | exited _ _ _ hpc => simp [hpc, Pc.running] at hrun

theorem settled (h : Runs cap log w) : Always Settled log := by
  refine h.always ?_
  intro past w es w' hr hs
  have run := step_running hs
  cases hs with
  | initReturns hpc | updateReturns hpc =>
    refine ⟨fun _ => (progress hr).settled run ?_, trivial⟩
    rw [hpc]
    rfl
  | thread hrun ht =>
    apply after_net
    intro o past' hrec
    cases hrec
  | _ => simp [Always.After, Settled, receipt]

theorem passesLatest (h : Runs cap log w) : Always PassesLatest log := by
  refine h.always ?_
  intro past w es w' hr hs
  have now := current hr
  cases hs with
  | viewReturns hpc | viewCrashes hpc | updateReturns hpc | updateCrashes hpc =>
    simp only [Current, hpc] at now
    obtain ⟨r, latest, model, _⟩ := now
    refine ⟨?_, trivial⟩
    intro m hm
    cases hm
    exact ⟨r, latest, model⟩
  | thread hrun ht =>
    apply after_net
    intro o past' model hm
    cases hm
  | _ => simp [Always.After, PassesLatest, modelPassed]

theorem exit_last (h : Runs cap log w) : ∀ past code outcome rest,
    log = past ++ .effect (.Exit code) outcome :: rest → rest = [] ∧ w.pc = .exited code := by
  induction h with
  | nil =>
    intro past code outcome rest heq
    simp at heq
  | @snoc history w es w' hr hs ih =>
    have run := step_running hs
    have fresh : ∀ code outcome, Obs.effect (.Exit code) outcome ∉ history := by
      intro code outcome hmem
      obtain ⟨past, rest, heq⟩ := List.append_of_mem hmem
      have ended := (ih past code outcome rest heq).2
      simp [ended, Pc.running] at run
    intro past code outcome rest heq
    have hmem : Obs.effect (.Exit code) outcome ∈ es := by
      have all : Obs.effect (.Exit code) outcome ∈ history ++ es := by simp [heq]
      exact (List.mem_append.mp all).resolve_left (fresh code outcome)
    cases hs with
    | exit hpc he =>
      rw [List.mem_singleton] at hmem
      cases hmem
      obtain ⟨same, _, _⟩ := (handled he).exit_eq
      cases same
      refine ⟨?_, rfl⟩
      rcases List.eq_nil_or_concat rest with hnil | ⟨init, last, rfl⟩
      · exact hnil
      · have split : history ++ [.effect (.Exit code) outcome] =
            (past ++ .effect (.Exit code) outcome :: init) ++ [last] := by simpa using heq
        refine (fresh code outcome ?_).elim
        rw [(List.append_inj' split rfl).1]
        exact List.mem_append_right _ List.mem_cons_self
    | effect hpc he =>
      rw [List.mem_singleton] at hmem
      cases hmem
      cases handled he
    | thread hrun ht => simp at hmem
    | _ => simp at hmem

theorem batch (h : Runs cap log w) (hlog : log = before ++ o :: rest) (ho : receipt o = some r)
    (hrest : receipts rest = []) :
    executed rest <+: untilExit r.effects.asSlice ∧
    (pendingEffects w.pc = [] → executed rest = untilExit r.effects.asSlice) := by
  have past : executed before = returnedEffects before :=
    settled h before o rest hlog (by simp [ho])
  have noExit : ∀ e ∈ executed before, isExit e = false := by
    intro e he
    obtain ⟨x, hx, hxe⟩ := List.mem_filterMap.mp he
    cases x with
    | effect e' outcome =>
      cases hxe
      cases e with
      | Exit code =>
        obtain ⟨p, q, rfl⟩ := List.append_of_mem hx
        have last := (exit_last h p code outcome (q ++ o :: rest) (by simp [hlog])).1
        simp at last
      | _ => rfl
    | _ => cases hxe
  have performed : executed log = executed before ++ executed rest := by
    have none : executedEffect o = none := by
      cases o with
      | effect e outcome => cases ho
      | _ => rfl
    rw [hlog, executed_append]
    simp [executed, none]
  have returned : returnedEffects log = executed before ++ r.effects.asSlice := by
    have last : receipts (o :: rest) = [r] := by
      simpa [receipts, List.filterMap_cons, ho] using hrest
    rw [hlog, returnedEffects_append, past]
    simp [returnedEffects, last]
  have hbegins := (progress h).begins
  have hcomplete := (progress h).complete
  rw [performed, returned, untilExit_append _ _ noExit] at hbegins hcomplete
  refine ⟨(List.prefix_append_right_inj _).mp hbegins, fun hp => ?_⟩
  exact List.append_cancel_left (hcomplete hp)

def lineOf : Effect → Option String
  | .Print text => some ("Print: " ++ text.text)
  | .WriteToFile content filename =>
    some ("WriteToFile: filename=" ++ filename.text ++ " content=" ++ content.text)
  | _ => none

def printedLine : TermOp → Option String
  | .println line => some line
  | _ => none

def printed (ops : List TermOp) : List String := ops.filterMap printedLine

theorem printed_append (ops ops' : List TermOp) :
    printed (ops ++ ops') = printed ops ++ printed ops' := List.filterMap_append

def taken (stream : Socket) : Obs → List UInt8
  | .effect (.TcpSend _ data) (.written writer) => if writer = stream then data.asSlice else []
  | .effect (.TcpSend _ data) (.cut writer accepted) =>
    if writer = stream then data.asSlice.take accepted else []
  | _ => []

def takenBy (log : List Obs) (stream : Socket) : List UInt8 := log.flatMap (taken stream)

theorem sent_take (io : HostIo) (writer : Socket) (bytes : List UInt8) (stream : Socket) :
    (io.take writer bytes).sent stream =
      io.sent stream ++ if writer = stream then bytes else [] := by
  by_cases hs : writer = stream
  · simp [HostIo.take, hs]
  · simp [HostIo.take, hs, Function.update_of_ne (Ne.symm hs)]

theorem handled_sent (h : Handled io e code io' outcome) (stream : Socket) :
    io'.sent stream = io.sent stream ++ taken stream (.effect e outcome) := by
  cases h with
  | exit | print | writeToFile => exact (List.append_nil _).symm
  | tcpSend hs =>
    cases hs with
    | noTcp | unknown => exact (List.append_nil _).symm
    | written | cut => exact sent_take _ _ _ _

theorem handled_printed (h : Handled io e code io' outcome) :
    printed io'.terminal = printed io.terminal ++ [e].filterMap lineOf := by
  cases h with
  | exit => exact (List.append_nil _).symm
  | print | writeToFile => exact List.filterMap_append
  | tcpSend hs => cases hs <;> exact (List.append_nil _).symm

theorem printed_render {v : ViewForHostResult} (h : render v = .ok ops) : printed ops = [] := by
  cases v with
  | Err =>
    cases h
    rfl
  | Ok rows =>
    rw [render_Ok] at h
    cases h
    simp [printed, printedLine, List.filterMap_cons, List.filterMap_flatMap]

theorem sent_step (hs : Step cap w es w') (stream : Socket) :
    w'.io.sent stream = w.io.sent stream ++ takenBy es stream := by
  cases hs with
  | effect hpc he | exit hpc he =>
    rw [takenBy, List.flatMap_singleton]
    exact handled_sent (handled he) stream
  | thread hrun ht =>
    rename_i os n
    have none : takenBy (os.map .net) stream = [] := flatMap_net (fun _ => rfl) os
    rw [none, List.append_nil]
  | _ => simp [takenBy, taken, HostIo.emit, HostIo.cleanupTerminal]

theorem sent_eq (h : Runs cap log w) (stream : Socket) :
    w.io.sent stream = takenBy log stream := by
  induction h with
  | nil => rfl
  | snoc hr hs ih => rw [sent_step hs, ih, takenBy, takenBy, takenBy, List.flatMap_append]

theorem printed_step (hs : Step cap w es w') :
    printed w'.io.terminal = printed w.io.terminal ++ (executed es).filterMap lineOf := by
  cases hs with
  | effect hpc he => exact handled_printed (handled he)
  | exit hpc he =>
    have restored : printed [.disableRawMode, .leaveAlternateScreen] = [] := rfl
    rename_i io _ _ _ _
    change printed (io.terminal ++ _) = _
    rw [printed_append, restored, List.append_nil]
    exact handled_printed (handled he)
  | rendered hpc hr =>
    have none := printed_render hr
    simpa [printed, HostIo.emit, executed] using none
  | thread hrun ht =>
    rename_i os n
    have none : executed (os.map .net) = [] := filterMap_net (fun _ => rfl) os
    rw [none, List.filterMap_nil, List.append_nil]
  | _ =>
    simp [printed, printedLine, executed, executedEffect, List.filterMap_cons, HostIo.emit,
      HostIo.cleanupTerminal]

theorem printed_eq (h : Runs cap log w) :
    printed w.io.terminal = (executed log).filterMap lineOf := by
  induction h with
  | nil => rfl
  | snoc hr hs ih => rw [printed_step hs, ih, executed_append, List.filterMap_append]

/-- A `TcpSend` goes to the writer of its connection, all of it unless the write fails, and is
skipped if there is none. -/
inductive Answered (io : HostIo) (stream : TcpStream) (data : RocList UInt8) : SendOutcome → Prop
  | noTcp : io.tcp = none → Answered io stream data .skipped
  | unknown : io.tcp = some t → t.writers stream.id = none → Answered io stream data .skipped
  | written : io.tcp = some t → t.writers stream.id = some writer →
      Answered io stream data (.written writer)
  | cut : io.tcp = some t → t.writers stream.id = some writer →
      accepted < data.asSlice.length → Answered io stream data (.cut writer accepted)

theorem send_keeps (h : w.pc = .effects (.TcpSend stream data :: rest) next)
    (hs : Step cap w [.effect (.TcpSend stream data) outcome] w') :
    w'.pc = .effects rest next ∧ Answered w.io stream data outcome ∧ ∀ t, w.io.tcp = some t →
      ∃ t', w'.io.tcp = some t' ∧ ∀ i, i ≠ stream.id → t'.writers i = t.writers i := by
  generalize hes : [Obs.effect (.TcpSend stream data) outcome] = es at hs
  cases hs with
  | effect hpc he =>
    rw [h] at hpc
    cases hpc
    cases hes
    refine ⟨rfl, ?_, ?_⟩
    · cases handled he with
      | tcpSend hsent =>
        cases hsent with
        | noTcp ht => exact .noTcp ht
        | unknown ht hw => exact .unknown ht hw
        | written ht hw => exact .written ht hw
        | cut ht hw hlt => exact .cut ht hw hlt
    · intro t ht
      cases handled he with
      | tcpSend hsent =>
        cases hsent with
        | noTcp | unknown | written => exact ⟨t, ht, fun _ _ => rfl⟩
        | cut ht' =>
          rw [ht] at ht'
          cases ht'
          refine ⟨_, rfl, ?_⟩
          intro i hi
          exact Function.update_of_ne hi _ _
  | exit hpc he =>
    rw [h] at hpc
    cases hpc
    cases handled he
  | thread hrun ht => cases ht <;> simp at hes
  | _ => simp at hes

/-- The host performs the effects the app returns, in order and up to the first `Exit`: their
lines are on the terminal and their bytes in the sockets.  It folds every event once, over the
latest model; and a failing `TcpSend` disturbs nothing else. -/
theorem effects_in_order (h : Runs cap log w) :
    executed log <+: untilExit (returnedEffects log) ∧
    (pendingEffects w.pc = [] → executed log = untilExit (returnedEffects log)) ∧
    printed w.io.terminal = (executed log).filterMap lineOf ∧
    (∀ stream, w.io.sent stream = takenBy log stream) ∧
    (∀ past code outcome rest, log = past ++ .effect (.Exit code) outcome :: rest →
      rest = [] ∧ w.pc = .exited code ∧ ∀ es w', ¬Step cap w es w') ∧
    returnedEvents log = foldedEvents log ++ pendingEvents w.pc ∧
    Always PassesLatest log ∧
    (∀ stream data rest next outcome w', w.pc = .effects (.TcpSend stream data :: rest) next →
      Step cap w [.effect (.TcpSend stream data) outcome] w' →
      w'.pc = .effects rest next ∧ Answered w.io stream data outcome ∧ ∀ t, w.io.tcp = some t →
        ∃ t', w'.io.tcp = some t' ∧ ∀ i, i ≠ stream.id → t'.writers i = t.writers i) := by
  refine ⟨(progress h).begins, (progress h).complete, printed_eq h, sent_eq h, ?_,
    returnedEvents_eq h, passesLatest h, ?_⟩
  · intro past code outcome rest heq
    have last := exit_last h past code outcome rest heq
    refine ⟨last.1, last.2, ?_⟩
    intro es w' hs
    have run := step_running hs
    simp [last.2, Pc.running] at run
  · intro stream data rest next outcome w' hpc hs
    exact send_keeps hpc hs

def quitter : InitForHost :=
  ⟨.none, ⟨.readOnly 1, [.Print ⟨.null, "bye"⟩, .TcpSend ⟨7⟩ ⟨.null, []⟩, .Exit 3, .Exit 4]⟩,
    .readOnly 0⟩

theorem quits : ∃ log w, Runs 65536 log w ∧ w.pc = .exited 3 ∧
    executed log = [.Print ⟨.null, "bye"⟩, .TcpSend ⟨7⟩ ⟨.null, []⟩, .Exit 3] := by
  have inited : Runs 65536 _ (.inited ⟨80, 24⟩ quitter World.initial.io.heap) :=
    Runs.inited ⟨80, 24⟩ quitter World.initial.io.heap
  have shown := (inited.noTcp rfl rfl).snoc_one (.effect (o := .ok) rfl rfl)
  have sent := shown.snoc_one (.effect (o := .ok) rfl rfl)
  have quit := sent.snoc_one (.exit (o := .ok) rfl rfl)
  exact ⟨_, _, quit, rfl, rfl⟩

theorem effects_in_order_quitter : ∃ log w, Runs 65536 log w ∧ w.pc = .exited 3 ∧
    executed log = [.Print ⟨.null, "bye"⟩, .TcpSend ⟨7⟩ ⟨.null, []⟩, .Exit 3] ∧
    executed log = untilExit (returnedEffects log) ∧
    printed w.io.terminal = (executed log).filterMap lineOf := by
  obtain ⟨log, w, quit, hpc, hexecuted⟩ := quits
  have order := effects_in_order quit
  exact ⟨log, w, quit, hpc, hexecuted, order.2.1 (by simp [hpc, pendingEffects]), order.2.2.1⟩

end RocTui.Execution
