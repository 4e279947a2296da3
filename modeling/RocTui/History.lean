import RocTui.Places

namespace RocTui.Host

open RocTui.Lib RocTui.Abi RocTui.Tcp RocTui.Dispatch RocTui.Effects

def Obs.sentEvent : Obs → Option TcpEvent
  | .net (.sent ev) => some ev
  | _ => none

def Obs.openedAs : Obs → Option (Nat × Socket)
  | .net (.opened id stream) => some (id, stream)
  | _ => none

def Obs.chunkOf (stream : Socket) : Obs → Option (List UInt8)
  | .net (.read stream' chunk) => if stream' = stream then some chunk else none
  | _ => none

def Obs.dequeuedEvent : Obs → Option (Subscriptions × TcpEvent)
  | .dequeued subs ev => some (subs, ev)
  | _ => none

def sentEvents (log : List Obs) : List TcpEvent := log.filterMap Obs.sentEvent

def sentOf (log : List Obs) (id : Nat) : List TcpEvent :=
  (sentEvents log).filter (·.id = id)

def opened (log : List Obs) : List (Nat × Socket) := log.filterMap Obs.openedAs

def chunksOf (log : List Obs) (stream : Socket) : List (List UInt8) :=
  log.filterMap (Obs.chunkOf stream)

def dequeued (log : List Obs) : List (Subscriptions × TcpEvent) :=
  log.filterMap Obs.dequeuedEvent

def dequeuedOf (log : List Obs) (id : Nat) : List TcpEvent :=
  ((dequeued log).map Prod.snd).filter (·.id = id)

section
variable (log : List Obs) (k : Nat)

theorem sentEvents_append (es : List Obs) :
    sentEvents (log ++ es) = sentEvents log ++ sentEvents es := List.filterMap_append

theorem sentOf_append (es : List Obs) : sentOf (log ++ es) k = sentOf log k ++ sentOf es k := by
  simp [sentOf, sentEvents_append]

theorem opened_append (es : List Obs) : opened (log ++ es) = opened log ++ opened es :=
  List.filterMap_append

theorem chunksOf_append (es : List Obs) :
    chunksOf (log ++ es) k = chunksOf log k ++ chunksOf es k := List.filterMap_append

theorem dequeued_append (es : List Obs) : dequeued (log ++ es) = dequeued log ++ dequeued es :=
  List.filterMap_append

end

theorem filterMap_net {f : Obs → Option β} (h : ∀ o, f (.net o) = none) (os : List NetObs) :
    (os.map Obs.net).filterMap f = [] := by
  rw [List.filterMap_map]
  exact List.filterMap_eq_nil_iff.mpr fun o _ => h o

theorem flatMap_net {f : Obs → List β} (h : ∀ o, f (.net o) = []) (os : List NetObs) :
    (os.map Obs.net).flatMap f = [] := by
  rw [List.flatMap_map]
  exact List.flatMap_eq_nil_iff.mpr fun o _ => h o

theorem after_net {P : List Obs → Obs → Prop} {os : List NetObs}
    (h : ∀ o past, P past (.net o)) :
    Always.After P log (os.map Obs.net) := by
  apply Always.After.of_forall
  intro o ho past
  obtain ⟨n, _, rfl⟩ := List.mem_map.mp ho
  exact h n past

/-- The channel is a FIFO: what was sent and not yet dequeued is what it holds, in order. -/
theorem Step.fifo (h : sentEvents past = (dequeued past).map Prod.snd ++ w.net.channel)
    (hs : Step cap w es w') :
    sentEvents (past ++ es) = (dequeued (past ++ es)).map Prod.snd ++ w'.net.channel := by
  rw [sentEvents_append, dequeued_append, h]
  cases hs with
  | clientConnects =>
    simp [sentEvents, dequeued, List.filterMap_cons, Obs.sentEvent, Obs.dequeuedEvent,
      Net.startClient]
  | recvDiscarded hpc ht hc | recvDispatched hpc ht hc =>
    simp [sentEvents, dequeued, List.filterMap_cons, Obs.sentEvent, Obs.dequeuedEvent, hc]
  | thread hrun ht =>
    cases ht <;> simp [sentEvents, dequeued, List.filterMap_cons, Obs.sentEvent, Obs.dequeuedEvent]
  | _ =>
    simp [sentEvents, dequeued, List.filterMap_cons, Obs.sentEvent, Obs.dequeuedEvent,
      Net.startServer, Net.clientReader]

theorem Runs.fifo (h : Runs cap log w) :
    sentEvents log = (dequeued log).map Prod.snd ++ w.net.channel :=
  h.invariant (I := fun log w => sentEvents log = (dequeued log).map Prod.snd ++ w.net.channel)
    rfl (fun hi hs => hs.fifo hi)

end RocTui.Host
