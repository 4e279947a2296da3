import RocTui.History
import RocTui.Lib.Chorus
import RocTui.Rounds

namespace RocTui.Delivery

open RocTui.Lib RocTui.Abi RocTui.Tcp RocTui.Dispatch RocTui.Host

/-- What a connection tells the main loop, chunk by chunk; its id is its socket. -/
def transcript (stream : Socket) (chunks : List (List UInt8)) (ended : Bool) : List TcpEvent :=
  .Connected stream stream :: chunks.map (.Data stream) ++
    if ended then [.Disconnected stream] else []

def hello (stream : Socket) : List TcpEvent := [.Connected stream stream]

def script (log : List Obs) (stream : Socket) (ended : Bool) : List TcpEvent :=
  transcript stream (chunksOf log stream) ended

def ends : TcpEvent → Bool
  | .Disconnected _ => true
  | _ => false

def readerVoice (r : Reader) : Voice Socket TcpEvent :=
  match r.pc with
  | .reading => ⟨r.stream, [], false⟩
  | .sending ev => ⟨r.stream, [ev], ends ev⟩
  | .notifying ev => ⟨r.stream, [], ends ev⟩
  | .finished => ⟨r.stream, [], true⟩

def listenerVoices (l : Listener) : List (Voice Socket TcpEvent) :=
  match l.pc with
  | .accepting => []
  | .cloning id stream | .sending id stream => [⟨stream, [.Connected id stream], false⟩]
  | .notifying _ stream | .spawning _ stream => [⟨stream, [], false⟩]

def netVoices (n : Net) : List (Voice Socket TcpEvent) :=
  n.readers.map readerVoice ++ n.listener.toList.flatMap listenerVoices

def mainVoices : Pc → List (Voice Socket TcpEvent)
  | .clientNotify stream _ => [⟨stream, [], false⟩]
  | _ => []

def listenerHandles (l : Listener) : List (Nat × Socket) :=
  match l.pc with
  | .accepting => []
  | .cloning id stream | .sending id stream | .notifying id stream | .spawning id stream =>
    [(id, stream)]

def handles (n : Net) : List (Nat × Socket) :=
  n.readers.map (fun r => (r.id, r.stream)) ++ n.listener.toList.flatMap listenerHandles

section
variable (id : Nat) (stream : Socket) (ev : TcpEvent)

@[simp] theorem readerVoice_reading :
    readerVoice ⟨id, stream, .reading⟩ = ⟨stream, [], false⟩ := rfl
@[simp] theorem readerVoice_sending :
    readerVoice ⟨id, stream, .sending ev⟩ = ⟨stream, [ev], ends ev⟩ := rfl
@[simp] theorem readerVoice_notifying :
    readerVoice ⟨id, stream, .notifying ev⟩ = ⟨stream, [], ends ev⟩ := rfl

@[simp] theorem readerVoice_afterNotify :
    readerVoice ⟨id, stream, afterNotify ev⟩ = ⟨stream, [], ends ev⟩ := by
  cases ev <;> rfl

end

theorem keys_listenerVoices (l : Listener) :
    (listenerVoices l).map Voice.key = (listenerHandles l).map Prod.snd := by
  cases l with
  | mk nextId pc => cases pc <;> rfl

theorem key_readerVoice (r : Reader) : (readerVoice r).key = r.stream := by
  cases r with
  | mk id stream pc => cases pc <;> rfl

theorem keys_netVoices (n : Net) :
    (netVoices n).map Voice.key = (handles n).map Prod.snd := by
  cases hl : n.listener with
  | none => simp [netVoices, handles, hl, key_readerVoice]
  | some l => simp [netVoices, handles, hl, key_readerVoice, keys_listenerVoices]

/-- Ids count the connections modulo the width of `next_id`. -/
structure Numbered (log : List Obs) (n : Net) : Prop where
  nextId : ∀ l, n.listener = some l → l.nextId = n.accepted % 2 ^ 64
  handles : ∀ p ∈ handles n, p.1 = p.2 % 2 ^ 64 ∧ p.2 < n.accepted
  opened : opened log = (List.range n.accepted).map fun k => (k % 2 ^ 64, k)

theorem Numbered.keep (h : Numbered log n) (hacc : n'.accepted = n.accepted)
    (hnext : n'.listener.map Listener.nextId = n.listener.map Listener.nextId)
    (hsub : ∀ p ∈ Delivery.handles n', p ∈ Delivery.handles n)
    (hopened : Host.opened es = []) : Numbered (log ++ es) n' := by
  refine ⟨?_, ?_, ?_⟩
  · intro l hl
    rw [hl, Option.map_some] at hnext
    obtain ⟨l', hl', heq⟩ := Option.map_eq_some_iff.mp hnext.symm
    rw [hacc, ← heq]
    exact h.nextId l' hl'
  · intro p hp
    rw [hacc]
    exact h.handles p (hsub p hp)
  · rw [opened_append, hopened, hacc, h.opened, List.append_nil]

theorem thread_numbered (h : Numbered log n) (hs : ThreadStep cap n os n') :
    Numbered (log ++ os.map .net) n' := by
  cases hs with
  | @accept _ id hl =>
    have id_eq : id = n.accepted % 2 ^ 64 := h.nextId _ hl
    have old := h.handles
    refine ⟨?_, ?_, ?_⟩
    · intro l heq
      cases heq
      change (id + 1) % 2 ^ 64 = (n.accepted + 1) % 2 ^ 64
      rw [id_eq, Nat.mod_add_mod]
    · intro p hp
      simp only [handles, hl, listenerHandles, Option.toList_some, List.flatMap_cons,
        List.flatMap_nil, List.append_nil, List.mem_append, List.mem_singleton] at hp old
      rcases hp with hp | rfl
      · exact ⟨(old p hp).1, Nat.lt_succ_of_lt (old p hp).2⟩
      · exact ⟨id_eq, Nat.lt_succ_self _⟩
    · rw [opened_append, h.opened, List.range_succ, List.map_append, id_eq]
      rfl
  | acceptFails hl => exact h.keep rfl rfl (fun _ hp => hp) rfl
  | cloneFails hl | clone hl | sendConnected hl | notifyConnected hl | spawn hl =>
    refine h.keep rfl (by simp [hl]) ?_ rfl
    simp +contextual [handles, listenerHandles, hl]
  | read hr | readEnds hr | send hr | notify hr =>
    refine h.keep rfl rfl ?_ rfl
    simp [handles, hr]

theorem hello_eq (log : List Obs) {stream : Socket} (h : chunksOf log stream = []) :
    script log stream false = hello stream := by
  simp [script, transcript, h, hello]

theorem script_begins (log : List Obs) (stream : Socket) :
    script log stream false <+: script log stream true := by
  simp [script, transcript]

theorem id_of_mem_script {log : List Obs} {stream : Socket} {ended : Bool} {ev : TcpEvent}
    (h : ev ∈ script log stream ended) : ev.id = stream := by
  simp only [script, transcript, List.cons_append, List.mem_cons, List.mem_append,
    List.mem_map] at h
  rcases h with rfl | ⟨chunk, _, rfl⟩ | h
  · rfl
  · rfl
  · cases ended with
    | false => simp at h
    | true =>
      simp only [if_true, List.mem_singleton] at h
      rw [h]
      rfl

theorem not_begun {log : List Obs} {stream : Socket}
    (h : sentOf log stream ++ hello stream = script log stream false) :
    sentOf log stream = [] ∧ script log stream false = hello stream := by
  have chunks : chunksOf log stream = [] := by
    rcases List.eq_nil_or_concat (chunksOf log stream) with hnil | ⟨before, last, hc⟩
    · exact hnil
    · simp only [script, transcript, hello, hc, List.concat_eq_append, List.map_append,
        List.map_cons, List.map_nil, Bool.false_eq_true, if_false, List.append_nil,
        ← List.cons_append] at h
      cases (List.append_inj' h rfl).2
  have hello_eq := hello_eq log chunks
  rw [hello_eq] at h
  exact ⟨by simpa using h, hello_eq⟩

theorem sentOf_concat (log : List Obs) (ev : TcpEvent) (k : Socket) :
    sentOf (log ++ [.net (.sent ev)]) k = sentOf log k ++ if ev.id = k then [ev] else [] := by
  rw [sentOf_append]
  by_cases hk : ev.id = k <;> simp [sentOf, sentEvents, Obs.sentEvent, hk]

theorem chunksOf_concat (log : List Obs) (stream k : Socket) (chunk : List UInt8) :
    chunksOf (log ++ [.net (.read stream chunk)]) k =
      chunksOf log k ++ if stream = k then [chunk] else [] := by
  rw [chunksOf_append]
  by_cases hk : stream = k <;> simp [chunksOf, Obs.chunkOf, hk]

/-- The TCP threads as a chorus on the channel. -/
abbrev Heard (log : List Obs) (voices : List (Voice Socket TcpEvent)) : Prop :=
  Voice.Chorus hello (sentOf log) (script log) voices

theorem Heard.silent_obs (h : Heard log voices) (hsent : sentEvents es = [])
    (hread : ∀ k, chunksOf es k = []) : Heard (log ++ es) voices := by
  have sent_eq : sentOf (log ++ es) = sentOf log := by
    funext k
    rw [sentOf_append]
    simp [sentOf, hsent]
  have script_eq : script (log ++ es) = script log := by
    funext k ended
    simp [script, chunksOf_append, hread]
  unfold Heard
  rw [sent_eq, script_eq]
  exact h

theorem Heard.say (h : Heard log (before ++ ⟨stream, [ev], ended⟩ :: after)) :
    Heard (log ++ [.net (.sent ev)]) (before ++ ⟨stream, [], ended⟩ :: after) := by
  have speaks := h.speaks ⟨stream, [ev], ended⟩ (by simp)
  have mem : ev ∈ script log stream ended := by
    rw [← speaks]
    simp
  have id_eq := id_of_mem_script mem
  have script_eq : script (log ++ [.net (.sent ev)]) = script log := by
    funext k ended
    simp [script, chunksOf, Obs.chunkOf, List.filterMap_cons]
  refine h.replace rfl ?_ ?_ ?_
  · intro k hk
    have other : ev.id ≠ k := fun heq => hk (heq.symm.trans id_eq)
    simp [sentOf_concat, other]
  · intro k _
    rw [script_eq]
  · rw [script_eq, sentOf_concat, id_eq, if_pos rfl, List.append_nil]
    exact speaks

theorem Heard.hear (h : Heard log (before ++ ⟨stream, [], false⟩ :: after)) :
    Heard (log ++ [.net (.read stream chunk)])
      (before ++ ⟨stream, [.Data stream chunk], false⟩ :: after) := by
  have speaks := h.speaks ⟨stream, [], false⟩ (by simp)
  have sent_eq : sentOf (log ++ [.net (.read stream chunk)]) = sentOf log := by
    funext k
    simp [sentOf, sentEvents, Obs.sentEvent, List.filterMap_cons]
  refine h.replace rfl ?_ ?_ ?_
  · intro k _
    rw [sent_eq]
  · intro k hk
    funext ended
    simp [script, chunksOf_concat, Ne.symm hk]
  · simp only [List.append_nil] at speaks
    rw [sent_eq, speaks]
    simp [script, transcript, chunksOf_concat]

theorem Heard.stop (h : Heard log (before ++ ⟨stream, [], false⟩ :: after)) :
    Heard log (before ++ ⟨stream, [.Disconnected stream], true⟩ :: after) := by
  have speaks := h.speaks ⟨stream, [], false⟩ (by simp)
  refine h.replace rfl (fun _ _ => rfl) (fun _ _ => rfl) ?_
  simp only [List.append_nil] at speaks
  rw [speaks]
  simp [script, transcript]

theorem thread_accepted (h : ThreadStep cap n os n') : n.accepted ≤ n'.accepted := by
  cases h with
  | accept => exact Nat.le_succ _
  | _ => exact Nat.le_refl _

theorem Numbered.reader (h : Numbered log n) (hb : n.accepted ≤ 2 ^ 64)
    (hr : n.readers = before ++ r :: after) : r.id = r.stream := by
  have num := h.handles (r.id, r.stream) (by simp [Delivery.handles, hr])
  simp only at num
  rw [num.1, Nat.mod_eq_of_lt (Nat.lt_of_lt_of_le num.2 hb)]

theorem Numbered.listening (h : Numbered log n) (hb : n.accepted ≤ 2 ^ 64)
    (hl : n.listener = some l) (hp : p ∈ listenerHandles l) : p.1 = p.2 := by
  have num := h.handles p (by simp [Delivery.handles, hl, hp])
  rw [num.1, Nat.mod_eq_of_lt (Nat.lt_of_lt_of_le num.2 hb)]

theorem thread_heard (hb : n'.accepted ≤ 2 ^ 64) (hn : Numbered log n)
    (h : Heard log (netVoices n)) (hs : ThreadStep cap n os n') :
    Heard (log ++ os.map .net) (netVoices n') := by
  have hb' : n.accepted ≤ 2 ^ 64 := Nat.le_trans (thread_accepted hs) hb
  cases hs with
  | @accept _ id hl =>
    have id_eq : id = n.accepted := by
      rw [show id = n.accepted % 2 ^ 64 from hn.nextId _ hl]
      exact Nat.mod_eq_of_lt hb
    have fresh : n.accepted ∉ (netVoices n).map Voice.key := by
      rw [keys_netVoices]
      intro hmem
      obtain ⟨p, hp, heq⟩ := List.mem_map.mp hmem
      exact (hn.handles p hp).2.ne heq
    have joined : Heard (log ++ [.net (.opened id n.accepted)])
        (netVoices n ++ [⟨n.accepted, hello n.accepted, false⟩]) :=
      Heard.silent_obs (h.join fresh) rfl (fun _ => rfl)
    simpa [netVoices, hl, listenerVoices, hello, id_eq] using joined
  | acceptFails hl => simpa using h
  | cloneFails hl =>
    have id_eq := hn.listening hb' hl (List.mem_singleton_self _)
    simp only at id_eq
    simp only [netVoices, hl, listenerVoices, Option.toList_some, List.flatMap_cons,
      List.flatMap_nil, List.append_nil, id_eq] at h ⊢
    have speaks := h.speaks _ (List.mem_append_right _ (List.mem_singleton_self _))
    simpa using h.leave (not_begun speaks)
  | clone hl | notifyConnected hl | spawn hl =>
    simpa [netVoices, hl, listenerVoices] using h
  | sendConnected hl =>
    simp only [netVoices, hl, listenerVoices, Option.toList_some, List.flatMap_cons,
      List.flatMap_nil, List.append_nil] at h ⊢
    exact Heard.say h
  | read hr =>
    have id_eq := hn.reader hb' hr
    simp only at id_eq
    simp only [netVoices, hr, List.map_append, List.map_cons, readerVoice_reading,
      readerVoice_sending, List.append_assoc, List.cons_append, id_eq, ends] at h ⊢
    exact Heard.hear h
  | readEnds hr =>
    have id_eq := hn.reader hb' hr
    simp only at id_eq
    simp only [netVoices, hr, List.map_append, List.map_cons, readerVoice_reading,
      readerVoice_sending, List.append_assoc, List.cons_append, id_eq, ends] at h ⊢
    simpa using Heard.stop h
  | send hr =>
    simp only [netVoices, hr, List.map_append, List.map_cons, readerVoice_sending,
      readerVoice_notifying, List.append_assoc, List.cons_append] at h ⊢
    exact Heard.say h
  | notify hr hp =>
    simp only [netVoices, hr, List.map_append, List.map_cons, readerVoice_afterNotify,
      readerVoice_notifying] at h ⊢
    simpa using h

theorem step_numbered (hw : w.WellFormed) (h : Numbered past w.net) (hs : Step cap w es w') :
    Numbered (past ++ es) w'.net := by
  have hp := hw.placed
  cases hs with
  | serverStarted hpc =>
    simp only [World.Placed, hpc] at hp
    rw [hp.1] at h ⊢
    refine ⟨?_, ?_, ?_⟩
    · intro l heq
      cases heq
      rfl
    · intro p hmem
      simp [handles, Net.startServer, Net.idle, listenerHandles] at hmem
    · rw [opened_append, h.opened]
      rfl
  | clientConnects hpc =>
    simp only [World.Placed, hpc] at hp
    rw [hp.1] at h ⊢
    refine ⟨?_, ?_, ?_⟩
    · intro l heq
      cases heq
    · intro p hmem
      simp [handles, Net.startClient, Net.idle] at hmem
    · rw [opened_append, h.opened]
      rfl
  | clientStarted hpc =>
    simp only [World.Placed, hpc] at hp
    obtain ⟨hnet, rfl, _⟩ := hp
    rw [hnet] at h ⊢
    refine ⟨?_, ?_, ?_⟩
    · intro l heq
      cases heq
    · intro p hmem
      simp only [handles, Net.clientReader, Net.startClient, Net.idle, List.nil_append,
        List.map_cons, List.map_nil, Option.toList_none, List.flatMap_nil, List.append_nil,
        List.mem_singleton] at hmem
      rw [hmem]
      exact ⟨rfl, Nat.one_pos⟩
    · rw [opened_append, h.opened]
      rfl
  | thread hrun ht => exact thread_numbered h ht
  | _ => exact h.keep rfl rfl (fun _ hmem => hmem) rfl

theorem mainVoices_eq_nil {pc : Pc} (h : ∀ stream effects, pc ≠ .clientNotify stream effects) :
    mainVoices pc = [] := by
  cases pc with
  | clientNotify stream effects => exact (h stream effects rfl).elim
  | _ => rfl

theorem step_accepted (h : Step cap w es w') : w.net.accepted ≤ w'.net.accepted := by
  cases h with
  | clientConnects => exact Nat.le_succ _
  | thread hrun ht => exact thread_accepted ht
  | _ => exact Nat.le_refl _

/-- `start_tcp_client` speaks for its connection until it hands it to the reader thread. -/
theorem step_heard (hw : w.WellFormed) (hn : Numbered past w.net)
    (hb : w'.net.accepted ≤ 2 ^ 64) (h : Heard past (netVoices w.net ++ mainVoices w.pc))
    (hs : Step cap w es w') :
    Heard (past ++ es) (netVoices w'.net ++ mainVoices w'.pc) := by
  have hp := hw.placed
  cases hs with
  | serverStarted hpc =>
    simp only [World.Placed, hpc] at hp
    rw [hp.1, hpc] at h
    rw [hp.1]
    exact Heard.silent_obs h rfl (fun _ => rfl)
  | clientConnects hpc =>
    simp only [World.Placed, hpc] at hp
    rw [hp.1, hpc] at h
    rw [hp.1]
    have joined : Heard (past ++ [.net (.opened 0 0)]) [⟨0, hello 0, false⟩] :=
      Heard.silent_obs (h.join (by simp [netVoices, mainVoices, Net.idle])) rfl (fun _ => rfl)
    have said : Heard (past ++ [.net (.opened 0 0)] ++ [.net (.sent (.Connected 0 0))])
        ([] ++ ⟨0, [], false⟩ :: []) := Heard.say joined
    rw [List.append_assoc] at said
    exact said
  | clientStarted hpc =>
    simp only [World.Placed, hpc] at hp
    rw [hp.1, hpc] at h
    rw [hp.1]
    exact Heard.silent_obs h rfl (fun _ => rfl)
  | thread hrun ht =>
    have awake := ThreadStep.awake ht
    have quiet : mainVoices w.pc = [] := by
      apply mainVoices_eq_nil
      intro stream effects hpc
      simp only [World.Placed, hpc] at hp
      simp [hp.1, Net.idle, Net.startClient] at awake
    simp only [quiet, List.append_nil] at h ⊢
    exact thread_heard hb hn h ht
  | byteRead hpc | recvDiscarded hpc | recvDispatched hpc =>
    rw [hpc] at h
    exact Heard.silent_obs h rfl (fun _ => rfl)
  | goto hg =>
    rw [List.append_nil]
    cases hg with
    | misread hm => simp [hp.reads_ok] at hm
    | _ => simpa [mainVoices, *] using h
  | noEvent hn =>
    refine Heard.silent_obs ?_ rfl (fun _ => rfl)
    cases hn <;> simpa [mainVoices, *] using h
  | tick => simpa using h
  | _ =>
    refine Heard.silent_obs ?_ rfl (fun _ => rfl)
    simpa [mainVoices, *] using h

structure Told (log : List Obs) (w : World) : Prop where
  numbered : Numbered log w.net
  heard : w.net.accepted ≤ 2 ^ 64 → Heard log (netVoices w.net ++ mainVoices w.pc)

theorem told (h : Runs cap log w) : Told log w := by
  refine h.invariant_of (I := Told) Runs.wellFormed ?_ ?_
  · refine ⟨⟨?_, ?_, rfl⟩, fun _ => Voice.Chorus.none fun k => ⟨rfl, hello_eq [] rfl⟩⟩
    · intro l hl
      cases hl
    · intro p hp
      simp [handles, World.initial, Net.idle] at hp
  · intro past s es t hw hi hs
    refine ⟨step_numbered hw hi.numbered hs, fun hb => ?_⟩
    exact step_heard hw hi.numbered hb (hi.heard (Nat.le_trans (step_accepted hs) hb)) hs

theorem dequeuedOf_begins (h : Runs cap log w) (id : Nat) :
    dequeuedOf log id <+: sentOf log id := by
  unfold dequeuedOf sentOf
  rw [h.fifo, List.filter_append]
  exact List.prefix_append _ _

theorem transcript_concat {stream : Socket} {chunks : List (List UInt8)} {l : List TcpEvent}
    {ev : TcpEvent} (h : l ++ [ev] <+: transcript stream chunks true) :
    (l = [] ∧ ev = .Connected stream stream) ∨
    (∃ l', l = .Connected stream stream :: l' ∧ (∀ x ∈ l', ∃ data, x = .Data stream data) ∧
      ∀ writer, ev ≠ .Connected stream writer) := by
  cases l with
  | nil =>
    rw [List.nil_append, transcript, List.cons_append, List.cons_prefix_cons] at h
    exact .inl ⟨rfl, h.1⟩
  | cons c l' =>
    rw [List.cons_append, transcript, List.cons_append, List.cons_prefix_cons] at h
    obtain ⟨rfl, htail⟩ := h
    refine .inr ⟨l', rfl, ?_, ?_⟩
    · have within : l' <+: chunks.map (.Data stream) := by
        apply List.prefix_of_prefix_length_le ((List.prefix_append l' [ev]).trans htail)
          (List.prefix_append _ _)
        have len := htail.length_le
        simpa using len
      intro x hx
      obtain ⟨data, _, rfl⟩ := List.mem_map.mp (within.subset hx)
      exact ⟨data, rfl⟩
    · rintro writer rfl
      have mem := htail.subset (List.mem_append_right l' (List.mem_singleton_self _))
      simp at mem

/-- Notices of the dequeued events that a callback subscription matched. -/
def listened (log : List Obs) : List Notice :=
  (dequeued log).filterMap fun (subs, ev) =>
    if listens subs ev.notice then some ev.notice else none

def eventNotice (e : Event) : Option Notice :=
  match e.source with
  | .made call => call.notice
  | .timer => none

def handedNotice : Obs → Option Notice
  | .rocUpdate _ _ event _ => eventNotice event
  | _ => none

def handed (log : List Obs) : List Notice := log.filterMap handedNotice

def inFlight : Pc → List Notice
  | .makeEvent call => call.notice.toList
  | .update event => (eventNotice event).toList
  | .crashed (.makeEvent call) => call.notice.toList
  | _ => []

theorem listened_append (log es : List Obs) :
    listened (log ++ es) = listened log ++ listened es := by
  simp [listened, dequeued_append]

theorem handed_append (log es : List Obs) : handed (log ++ es) = handed log ++ handed es :=
  List.filterMap_append

theorem listened_dequeued (subs : Subscriptions) (ev : TcpEvent) :
    listened [.dequeued subs ev] = if listens subs ev.notice then [ev.notice] else [] := by
  cases hl : listens subs ev.notice <;> simp [listened, dequeued, Obs.dequeuedEvent, hl]

theorem handed_rocUpdate (ctx : Context) (model : RocBox) (event : Event)
    (reply : Reply UpdateForHost) :
    handed [.rocUpdate ctx model event reply] = (eventNotice event).toList := by
  cases hn : eventNotice event <;> simp [handed, handedNotice, hn]

theorem step_handed (hw : w.WellFormed) (h : listened past = handed past ++ inFlight w.pc)
    (hs : Step cap w es w') : listened (past ++ es) = handed (past ++ es) ++ inFlight w'.pc := by
  rw [listened_append, handed_append, h]
  cases hs with
  | recvDiscarded hpc ht hc hd =>
    rw [listened_dequeued, listens_of_discarded hd]
    simp [handed, handedNotice, inFlight, hpc]
  | recvDispatched hpc ht hc hd =>
    obtain ⟨hl, hn, -⟩ := dispatched hd
    rw [listened_dequeued, hl]
    simp [handed, handedNotice, inFlight, hpc, hn]
  | thread hrun ht =>
    cases ht <;>
      simp [listened, dequeued, Obs.dequeuedEvent, handed, handedNotice, List.filterMap_cons]
  | tick => simp [listened, dequeued, handed]
  | goto hg =>
    cases hg with
    | misread hm => simp [hw.placed.reads_ok] at hm
    | stdinRead hpc =>
      simp [listened, dequeued, handed, inFlight, hpc, EventCall.notice]
    | _ => simp [listened, dequeued, handed, inFlight, *]
  | noEvent hn =>
    cases hn <;>
      simp [listened, dequeued, Obs.dequeuedEvent, handed, handedNotice, List.filterMap_cons,
        inFlight, *]
  | eventMade hpc | timerEvent hpc =>
    simp [listened, dequeued, Obs.dequeuedEvent, handed, handedNotice, List.filterMap_cons,
      inFlight, eventNotice, hpc]
  | updateReturns hpc | updateCrashes hpc =>
    rw [handed_rocUpdate]
    simp [listened, dequeued, Obs.dequeuedEvent, List.filterMap_cons, inFlight, hpc]
  | _ =>
    simp [listened, dequeued, Obs.dequeuedEvent, handed, handedNotice, List.filterMap_cons,
      inFlight, *]

theorem Runs.handed (h : Runs cap log w) :
    listened log = Delivery.handed log ++ inFlight w.pc :=
  h.invariant_of (I := fun log w => listened log = Delivery.handed log ++ inFlight w.pc)
    Runs.wellFormed rfl (fun hw hi hs => step_handed hw hi hs)

theorem Numbered.opened_eq (h : Numbered log n) (hb : n.accepted ≤ 2 ^ 64) :
    Host.opened log = (List.range n.accepted).map fun k => (k, k) := by
  rw [h.opened]
  apply List.map_congr_left
  intro k hk
  rw [Nat.mod_eq_of_lt (Nat.lt_of_lt_of_le (List.mem_range.mp hk) hb)]

theorem Told.connected (h : Told log w) (hp : w.Placed) {k : Socket}
    (hk : k ∈ (netVoices w.net ++ mainVoices w.pc).map Voice.key) : k < w.net.accepted := by
  rw [List.map_append, List.mem_append, keys_netVoices] at hk
  cases hk with
  | inl hnet =>
    obtain ⟨p, hp, rfl⟩ := List.mem_map.mp hnet
    exact (h.numbered.handles p hp).2
  | inr hmain =>
    cases hpc : w.pc with
    | clientNotify stream effects =>
      simp only [World.Placed, hpc] at hp
      simp only [mainVoices, hpc, List.map_cons, List.map_nil, List.mem_singleton] at hmain
      rw [hmain, hp.1, hp.2.1]
      exact Nat.one_pos
    | _ => simp [mainVoices, hpc] at hmain

theorem connected_of_sent (h : Runs cap log w) (hb : w.net.accepted ≤ 2 ^ 64) {ev : TcpEvent}
    (hev : ev ∈ sentEvents log) : (ev.id, ev.id) ∈ opened log := by
  have told := told h
  have mem : ev ∈ sentOf log ev.id := List.mem_filter.mpr ⟨hev, decide_eq_true rfl⟩
  have speaks : ev.id ∈ (netVoices w.net ++ mainVoices w.pc).map Voice.key := by
    by_contra hno
    rw [((told.heard hb).silent _ hno).1] at mem
    cases mem
  rw [told.numbered.opened_eq hb]
  exact List.mem_map.mpr
    ⟨ev.id, List.mem_range.mpr (told.connected (Runs.wellFormed h).placed speaks), rfl⟩

theorem dequeuedOf_transcript (h : Runs cap log w) (hb : w.net.accepted ≤ 2 ^ 64) (id : Nat) :
    dequeuedOf log id <+: transcript id (chunksOf log id) true :=
  (dequeuedOf_begins h id).trans (((told h).heard hb).said_begins (script_begins log) id)

/-- The main loop hears every connection in its own order, under its own id and byte for byte,
and hands on exactly the events a callback subscription matched when they were dequeued. -/
theorem delivered_in_order (h : Runs cap log w) :
    (w.net.accepted ≤ 2 ^ 64 →
      ((opened log).map Prod.fst).Nodup ∧
      (∀ ev ∈ (dequeued log).map Prod.snd, ∃ stream, (ev.id, stream) ∈ opened log) ∧
      ∀ id stream, (id, stream) ∈ opened log →
        dequeuedOf log id <+: .Connected id stream ::
          (chunksOf log stream).map (.Data id) ++ [.Disconnected id]) ∧
    listened log = handed log ++ inFlight w.pc := by
  refine ⟨?_, Runs.handed h⟩
  intro hb
  have ids := (told h).numbered.opened_eq hb
  refine ⟨?_, ?_, ?_⟩
  · rw [ids, List.map_map]
    simpa [Function.comp_def] using List.nodup_range
  · intro ev hev
    refine ⟨ev.id, connected_of_sent h hb ?_⟩
    rw [h.fifo]
    exact List.mem_append_left _ hev
  · intro id stream hmem
    rw [ids, List.mem_map] at hmem
    obtain ⟨k, _, heq⟩ := hmem
    cases heq
    exact dequeuedOf_transcript h hb _

theorem delivered_in_order_client : ∃ log w, Runs 65536 log w ∧
    handed log ++ inFlight w.pc = [.connected 0] ∧
    dequeuedOf log 0 <+: [.Connected 0 0, .Data 0 [104, 105], .Disconnected 0] ∧
    listened log = handed log ++ inFlight w.pc := by
  have idle : World.clientWaiting.net.readers = [] ++ ⟨0, 0, .reading⟩ :: [] := rfl
  have chunk : 0 < ([104, 105] : List UInt8).length := by decide
  have read := Runs.clientWaiting.snoc_one (.thread rfl (.read idle chunk (by decide)))
  have dequeued := Runs.tcp read rfl rfl rfl rfl rfl rfl rfl
  have delivered := delivered_in_order dequeued
  exact ⟨_, _, dequeued, rfl, (delivered.1 (by decide)).2.2 0 0 (by decide), delivered.2⟩

end RocTui.Delivery
