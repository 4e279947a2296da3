import RocTui.Delivery
import RocTui.Lib.Ring

namespace RocTui.Backpressure

open RocTui.Lib RocTui.Abi RocTui.Tcp RocTui.Effects RocTui.Host RocTui.Delivery

/-- The capacity of the notification pipe, what the socket buffers of a connection hold in each
direction, the sender's and the receiver's taken as one, and how much the peer receives at once. -/
structure Sizes where
  pipe : Nat
  toPeer : Nat
  toHost : Nat
  recv : Nat

/-- The process with one connection and its peer: how much of the current `write_all` the
connection has taken, the bytes under way, and those the peer still has to send back. -/
structure Link where
  world : World
  written : Nat
  toPeer : List UInt8
  held : List UInt8
  toHost : List UInt8

def Link.of (w : World) : Link := ⟨w, 0, [], [], []⟩

def writer (w : World) (id : Nat) : Option Socket := w.io.tcp.bind (·.writers id)

variable (x : Socket)

def writing (w : World) : Option (List UInt8) :=
  match w.pc with
  | .effects (.TcpSend stream data :: _) _ =>
    if writer w stream.id = some x then some data.asSlice else none
  | _ => none

def moves : Obs → Bool
  | .effect _ (.written stream) | .effect _ (.cut stream _) | .net (.read stream _) => stream == x
  | _ => false

def up : ReaderPc → Bool
  | .sending (.Disconnected _) | .notifying (.Disconnected _) | .finished => false
  | _ => true

def Connected (n : Net) : Prop := ∀ r ∈ n.readers, r.stream = x → up r.pc = true

/-- The process, the connection `x` and a peer that sends everything back before it receives
more. -/
inductive LinkStep (z : Sizes) : Link → List Obs → Link → Prop
  | host : Step z.pipe l.world es w → (∀ o ∈ es, moves x o = false) → Connected x w.net →
      LinkStep z l es { l with world := w }
  | write : writing x l.world = some data → 0 < k → l.written + k ≤ data.length →
      l.toPeer.length + k ≤ z.toPeer →
      LinkStep z l []
        { l with
          written := l.written + k
          toPeer := l.toPeer ++ (data.drop l.written).take k }
  | wrote : writing x l.world = some data → l.written = data.length →
      Step z.pipe l.world [.effect e (.written x)] w →
      LinkStep z l [.effect e (.written x)] { l with world := w, written := 0 }
  | breaks : writing x l.world = some data → l.written < data.length →
      Step z.pipe l.world [.effect e (.cut x l.written)] w →
      LinkStep z l [.effect e (.cut x l.written)] { l with world := w, written := 0 }
  | read : l.toHost = chunk ++ rest → Step z.pipe l.world [.net (.read x chunk)] w →
      LinkStep z l [.net (.read x chunk)] { l with world := w, toHost := rest }
  | peerRecv : l.held = [] → l.toPeer = chunk ++ rest → 0 < chunk.length →
      chunk.length ≤ z.recv → LinkStep z l [] { l with held := chunk, toPeer := rest }
  | peerSend : l.held = chunk ++ rest → 0 < chunk.length →
      l.toHost.length + chunk.length ≤ z.toHost →
      LinkStep z l [] { l with held := rest, toHost := l.toHost ++ chunk }

/-- The main thread is blocked in `write_all`, the reader of the connection in `pipe_notify`, and
the peer in its send. -/
structure CircularWait (z : Sizes) (l : Link) : Prop where
  main : ∃ data, writing x l.world = some data ∧ l.written < data.length ∧
    z.toPeer ≤ l.toPeer.length
  reader : ∃ r ∈ l.world.net.readers, r.stream = x ∧ ∃ ev, r.pc = .notifying ev
  pipe : z.pipe ≤ l.world.net.pipe
  peer : l.held ≠ [] ∧ z.toHost ≤ l.toHost.length

/-- The bytes a list of effects sends to `x` before it exits. -/
def owed (writer : Nat → Option Socket) : List Effect → Nat
  | [] => 0
  | .Exit _ :: _ => 0
  | .TcpSend stream data :: rest =>
    (if writer stream.id = some x then data.asSlice.length else 0) + owed writer rest
  | _ :: rest => owed writer rest

def pending (w : World) : Nat :=
  match w.pc with
  | .effects rest _ => owed x (writer w) rest
  | _ => 0

def Alone (n : Net) : Prop := n.listener = none ∧ ∀ r ∈ n.readers, r.stream = x

instance (n : Net) : Decidable (Alone x n) := inferInstanceAs (Decidable (_ ∧ _))

/-- How many reads from `x` there are room for, while nothing takes a byte from the pipe. -/
def reads (cap : Nat) (n : Net) : Nat :=
  (if Alone x n then cap - n.pipe else 0) +
    n.readers.countP fun r => r.stream == x && r.pc == .reading

/-- What is left of the writing, and what there is to take it in. -/
def ring (z : Sizes) (l : Link) : Ring where
  left := pending x l.world - l.written
  room := z.toPeer - l.toPeer.length
  held := l.held.length
  drain := reads x z.pipe l.world.net + (z.toHost - l.toHost.length)

def returns : Obs → Bool
  | .rocUpdate _ _ _ (.returned _ _) => true
  | _ => false

section Owed

variable {x}

theorem owed_mono {f g : Nat → Option Socket} (h : ∀ id, f id = some x → g id = some x)
    (es : List Effect) : owed x f es ≤ owed x g es := by
  induction es with
  | nil => exact Nat.le_refl _
  | cons e es ih =>
    cases e with
    | Exit code => exact Nat.le_refl _
    | Print text | WriteToFile content filename => exact ih
    | TcpSend stream data =>
      simp only [owed]
      by_cases hf : f stream.id = some x
      · rw [if_pos hf, if_pos (h _ hf)]
        omega
      · rw [if_neg hf]
        omega

theorem owed_nobody {f : Nat → Option Socket} (h : ∀ id, f id ≠ some x) (es : List Effect) :
    owed x f es = 0 := by
  induction es with
  | nil => rfl
  | cons e es ih =>
    cases e with
    | Exit code => rfl
    | Print text | WriteToFile content filename => exact ih
    | TcpSend stream data => simp [owed, h, ih]

theorem owed_tail (f : Nat → Option Socket) {e : Effect} (he : ∀ code, e ≠ .Exit code)
    (es : List Effect) : owed x f es ≤ owed x f (e :: es) := by
  cases e with
  | Exit code => exact absurd rfl (he code)
  | Print text | WriteToFile content filename => exact Nat.le_refl _
  | TcpSend stream data => simp [owed]

theorem writing_spec {w : World} {data : List UInt8} (h : writing x w = some data) :
    ∃ stream bytes rest next, w.pc = .effects (.TcpSend stream bytes :: rest) next ∧
      writer w stream.id = some x ∧ bytes.asSlice = data := by
  cases hpc : w.pc with
  | effects es next =>
    cases es with
    | nil => simp [writing, hpc] at h
    | cons e rest =>
      cases e with
      | TcpSend stream bytes =>
        simp only [writing, hpc, Option.ite_none_right_eq_some, Option.some.injEq] at h
        exact ⟨_, _, _, _, rfl, h.1, h.2⟩
      | Exit code | Print text | WriteToFile content filename => simp [writing, hpc] at h
  | _ => simp [writing, hpc] at h

theorem pending_writing {w : World} {data : List UInt8} (h : writing x w = some data) :
    ∃ e rest next, w.pc = .effects (e :: rest) next ∧
      pending x w = data.length + owed x (writer w) rest := by
  obtain ⟨stream, bytes, rest, next, hpc, hwriter, rfl⟩ := writing_spec h
  exact ⟨_, _, _, hpc, by simp [pending, hpc, owed, hwriter]⟩

theorem writing_moves {w : World} {data : List UInt8} {e : Effect} {rest : List Effect}
    {next : Option UpdateForHost} (h : writing x w = some data)
    (hpc : w.pc = .effects (e :: rest) next) (hh : Handled w.io e code io outcome) :
    moves x (.effect e outcome) = true := by
  obtain ⟨stream, bytes, rest', next', hpc', hwriter, -⟩ := writing_spec h
  obtain ⟨hlist, -⟩ := Pc.effects.inj (hpc.symm.trans hpc')
  obtain ⟨rfl, -⟩ := List.cons.inj hlist
  cases hh with
  | tcpSend hs =>
    cases hs with
    | noTcp ht => simp [writer, ht] at hwriter
    | unknown ht hnone => simp [writer, ht, hnone] at hwriter
    | written ht hsome | cut ht hsome =>
      simp only [writer, ht, Option.bind_some, hsome, Option.some.injEq] at hwriter
      simp [moves, hwriter]

theorem writer_handled {w : World} (h : Handled w.io e none io outcome) (pc : Pc) (id : Nat)
    (hx : writer { w with pc := pc, io := io } id = some x) : writer w id = some x := by
  cases h with
  | print | writeToFile => exact hx
  | tcpSend hs =>
    cases hs with
    | noTcp | unknown | written => exact hx
    | @cut t sender accepted ht hsender =>
      simp only [writer, Option.bind_some, ht, Function.update_apply] at hx ⊢
      split at hx
      · cases hx
      · exact hx

theorem pending_effect {w : World} (h : Handled w.io e none io outcome) (rest : List Effect)
    (next : Option UpdateForHost) :
    pending x { w with pc := .effects rest next, io := io } ≤ owed x (writer w) rest :=
  owed_mono (writer_handled h _) rest

theorem pending_nobody {w : World} (h : ∀ id, writer w id ≠ some x) : pending x w = 0 := by
  unfold pending
  split
  · exact owed_nobody h _
  · rfl

theorem handled_continues (h : Handled io e none io' outcome) (code : Nat) : e ≠ .Exit code := by
  rintro rfl
  cases h

theorem pending_step {w w' : World} (hw : w.Placed) (hs : Step cap w es w')
    (hreturns : ∀ o ∈ es, returns o = false) : pending x w' ≤ pending x w := by
  cases hs with
  | effect hpc he =>
    have hh := handled he
    refine Nat.le_trans (pending_effect hh _ _) ?_
    simp only [pending, hpc]
    exact owed_tail (writer w) (handled_continues hh) _
  | updateReturns hpc =>
    have hreturned := hreturns _ (List.mem_singleton_self _)
    simp [returns] at hreturned
  | serverStarted hpc | clientStarted hpc =>
    rw [pending_nobody fun id => by simp [writer, TcpState.new]]
    exact Nat.zero_le _
  | goto hg =>
    cases hg with
    | tcpNotRequested hpc | tcpFails hpc =>
      have htcp : w.io.tcp = none := by
        simp only [World.Placed, hpc] at hw
        exact hw.2
      rw [pending_nobody fun id => by simp [writer, htcp]]
      exact Nat.zero_le _
    | _ => exact Nat.zero_le _
  | thread | tick => exact Nat.le_refl _
  | _ => exact Nat.zero_le _

theorem pending_wrote {w w' : World} {data : List UInt8} (hdata : writing x w = some data)
    (hs : Step cap w [.effect e outcome] w') : pending x w' + data.length ≤ pending x w := by
  obtain ⟨e, rest, next, hpc, hpending⟩ := pending_writing hdata
  rw [hpending]
  generalize hes : [Obs.effect _ outcome] = es at hs
  cases hs with
  | effect hpc' he =>
    obtain ⟨hlist, rfl⟩ := Pc.effects.inj (hpc'.symm.trans hpc)
    obtain ⟨rfl, rfl⟩ := List.cons.inj hlist
    rw [Nat.add_comm]
    exact Nat.add_le_add_left (pending_effect (handled he) _ _) _
  | exit hpc' he =>
    simp only [pending]
    omega
  | thread hrun ht => simp [eq_comm, List.map_eq_singleton_iff] at hes
  | _ => cases hes

end Owed

section Reads

variable {x} {cap : Nat} {n n' : Net}

theorem alone_congr (hlistener : n'.listener = n.listener)
    (hstreams : n'.readers.map Reader.stream = n.readers.map Reader.stream) :
    Alone x n' ↔ Alone x n := by
  have hreaders : (∀ r ∈ n'.readers, r.stream = x) ↔ ∀ r ∈ n.readers, r.stream = x := by
    rw [← List.forall_mem_map (f := Reader.stream) (P := (· = x)), hstreams, List.forall_mem_map]
  rw [Alone, Alone, hlistener, hreaders]

theorem reads_reader {id stream k : Nat} {pc pc' : ReaderPc}
    (hr : n.readers = before ++ ⟨id, stream, pc⟩ :: after)
    (hr' : n'.readers = before ++ ⟨id, stream, pc'⟩ :: after)
    (hlistener : n'.listener = n.listener)
    (hown : (if Alone x n then cap - n.pipe else 0) + (if stream = x ∧ pc = .reading then 1 else 0)
      ≤ (if Alone x n then cap - n'.pipe else 0) +
        (if stream = x ∧ pc' = .reading then 1 else 0) + k) :
    reads x cap n ≤ reads x cap n' + k := by
  have halone : Alone x n' ↔ Alone x n := alone_congr hlistener (by simp [hr, hr'])
  simp only [reads, hr, hr', List.countP_append, List.countP_cons, Bool.and_eq_true, beq_iff_eq,
    if_congr halone rfl rfl]
  omega

theorem thread_reads (h : ThreadStep cap n os n') (hup : Connected x n')
    (hos : ∀ o ∈ os, moves x (.net o) = false) : reads x cap n ≤ reads x cap n' := by
  cases h with
  | accept hl => simp [reads, Alone, hl]
  | acceptFails hl => exact Nat.le_refl _
  | cloneFails hl => simp [reads, Alone, hl]
  | clone hl => simp [reads, Alone, hl]
  | sendConnected hl => simp [reads, Alone, hl]
  | notifyConnected hl => simp [reads, Alone, hl]
  | spawn hl => simp [reads, Alone, hl]
  | @read _ _ _ _ id stream hr =>
    have hne : stream ≠ x := by simpa [moves] using hos
    exact reads_reader (k := 0) hr rfl rfl (by simp [hne])
  | readEnds hr =>
    have hdown := hup _ (List.mem_append_right _ List.mem_cons_self)
    refine reads_reader (k := 0) hr rfl rfl ?_
    have hne : _ ≠ x := fun heq => by simpa [up] using hdown heq
    simp [hne]
  | send hr => exact reads_reader (k := 0) hr rfl rfl (by simp)
  | @notify _ _ _ ev id stream hr hcap =>
    refine reads_reader (k := 0) hr rfl rfl ?_
    by_cases hx : stream = x
    · have hpc : afterNotify ev = .reading := by
        cases ev with
        | Disconnected id =>
          have hdown := hup _ (List.mem_append_right _ List.mem_cons_self) hx
          simp [afterNotify, up] at hdown
        | Connected id writer | Data id data => rfl
      simp only [hx, hpc, true_and, if_true, reduceCtorEq, if_false]
      split <;> omega
    · have hothers : ¬Alone x n := fun h => hx (h.2 ⟨id, stream, .notifying ev⟩ (by simp [hr]))
      simp [hothers]

theorem thread_read (h : ThreadStep cap n [.read x chunk] n') :
    reads x cap n ≤ reads x cap n' + 1 ∧ 0 < chunk.length ∧
      ∃ r ∈ n.readers, r.stream = x ∧ r.pc = .reading := by
  cases h with
  | @read _ _ _ _ id _ hr hpos =>
    refine ⟨reads_reader hr rfl rfl (by simp), hpos, ⟨id, x, .reading⟩, ?_, rfl, rfl⟩
    rw [hr]
    exact List.mem_append_right _ List.mem_cons_self

theorem step_reads {w w' : World} (hs : Step cap w es w') (hup : Connected x w'.net)
    (hes : ∀ o ∈ es, moves x o = false) :
    pending x w' = 0 ∨ reads x cap w.net ≤ reads x cap w'.net := by
  cases hs with
  | thread hrun ht =>
    refine .inr (thread_reads ht hup fun o ho => hes _ (List.mem_map_of_mem ho))
  | serverStarted | clientStarted =>
    exact .inl (pending_nobody fun id => by simp [writer, TcpState.new])
  | clientConnects | byteRead | recvDiscarded | recvDispatched => exact .inl rfl
  | _ => exact .inr (Nat.le_refl _)

theorem step_read {w w' : World} (hs : Step cap w [.net (.read x chunk)] w') :
    pending x w' = pending x w ∧ reads x cap w.net ≤ reads x cap w'.net + 1 ∧
      0 < chunk.length ∧ ∃ r ∈ w.net.readers, r.stream = x ∧ r.pc = .reading := by
  generalize hes : [Obs.net _] = es at hs
  cases hs with
  | @thread os _ _ hrun ht =>
    obtain rfl : os = [.read x chunk] := by
      cases os with
      | nil => cases hes
      | cons o os => cases os <;> simp_all
    exact ⟨rfl, thread_read ht⟩
  | _ => cases hes

theorem effect_net {w w' : World} (hs : Step cap w [.effect e outcome] w') : w'.net = w.net := by
  generalize hes : [Obs.effect _ _] = es at hs
  cases hs with
  | thread hrun ht => simp [eq_comm, List.map_eq_singleton_iff] at hes
  | effect | exit => rfl
  | _ => cases hes

end Reads

section Move

variable {x} {z : Sizes} {l l' : Link}

structure Bounded (z : Sizes) (l : Link) : Prop where
  toPeer : l.toPeer.length ≤ z.toPeer
  toHost : l.toHost.length ≤ z.toHost

theorem Bounded.step (h : Bounded z l) (hs : LinkStep x z l es l') : Bounded z l' := by
  obtain ⟨hpeer, hhost⟩ := h
  cases hs with
  | host | wrote | breaks => exact ⟨hpeer, hhost⟩
  | write hdata hpos hle hroom =>
    refine ⟨?_, hhost⟩
    simp only [List.length_append, List.length_take]
    omega
  | read hbytes =>
    refine ⟨hpeer, ?_⟩
    rw [hbytes, List.length_append] at hhost
    exact Nat.le_of_add_left_le hhost
  | peerRecv hheld hbytes =>
    refine ⟨?_, hhost⟩
    rw [hbytes, List.length_append] at hpeer
    exact Nat.le_of_add_left_le hpeer
  | peerSend hbytes hpos hroom => exact ⟨hpeer, by simpa using hroom⟩

theorem ring_move (hw : l.world.Placed) (hb : Bounded z l) (hs : LinkStep x z l es l')
    (hes : ∀ o ∈ es, returns o = false) : Ring.Move (ring x z l) (ring x z l') := by
  cases hs with
  | host hs hmoves hup =>
    rcases step_reads hs hup hmoves with hzero | hreads
    · exact .done (by simp [ring, hzero])
    · have hpending := pending_step (x := x) hw hs hes
      exact .ease (Nat.sub_le_sub_right hpending _) (Nat.add_le_add_right hreads _)
  | @write data k _ hdata hpos hle hroom =>
    obtain ⟨e, rest, next, -, hpending⟩ := pending_writing hdata
    have hmove : Ring.Move (ring x z l) _ := .write (k := k) (by simp only [ring]; omega)
      (by simp only [ring]; omega)
    have hlength : ((data.drop l.written).take k).length = k := by
      rw [List.length_take, List.length_drop]
      omega
    simpa only [ring, List.length_append, hlength, Nat.sub_sub] using hmove
  | wrote hdata hall hs =>
    have hwrote := pending_wrote hdata hs
    refine .ease (by simp only [ring]; omega) ?_
    simp only [ring, effect_net hs, Nat.le_refl]
  | breaks hdata hpart hs =>
    have hwrote := pending_wrote hdata hs
    refine .ease (by simp only [ring]; omega) ?_
    simp only [ring, effect_net hs, Nat.le_refl]
  | read hbytes hs =>
    obtain ⟨hpending, hreads, hpos, -⟩ := step_read hs
    have hhost := hb.toHost
    rw [hbytes, List.length_append] at hhost
    refine .ease (by simp only [ring, hpending, Nat.le_refl]) ?_
    simp only [ring, hbytes, List.length_append]
    omega
  | @peerRecv chunk rest _ hheld hbytes =>
    have hpeer := hb.toPeer
    rw [hbytes, List.length_append] at hpeer
    have hmove : Ring.Move (ring x z l) _ := .take (k := chunk.length) (by simp [ring, hheld])
    have hroom : z.toPeer - (chunk.length + rest.length) + chunk.length =
      z.toPeer - rest.length := by omega
    simpa only [ring, hbytes, List.length_append, hroom] using hmove
  | @peerSend chunk rest _ hbytes hpos hroom =>
    have hmove : Ring.Move (ring x z l) _ := .give (k := chunk.length)
      (by simp [ring, hbytes]) (by simp only [ring]; omega)
    have hleft : chunk.length + rest.length - chunk.length = rest.length := by omega
    have hdrain : reads x z.pipe l.world.net + (z.toHost - l.toHost.length) - chunk.length =
        reads x z.pipe l.world.net + (z.toHost - (l.toHost.length + chunk.length)) := by omega
    simpa only [ring, hbytes, List.length_append, hleft, hdrain] using hmove

end Move

section Sockets

variable {cap : Nat} {n n' : Net}

def sockets (n : Net) : List Socket := (handles n).map Prod.snd

theorem sockets_eq (n : Net) : sockets n =
    n.readers.map Reader.stream ++ (n.listener.toList.flatMap listenerHandles).map Prod.snd := by
  rw [sockets, handles, List.map_append, List.map_map]
  rfl

theorem thread_sockets (hlt : ∀ s ∈ sockets n, s < n.accepted) (hd : (sockets n).Nodup)
    (hs : ThreadStep cap n os n') : (sockets n').Nodup := by
  cases hs with
  | accept hl =>
    rw [sockets_eq, hl] at hd hlt
    simp only [Option.toList_some, List.flatMap_cons, List.flatMap_nil, listenerHandles,
      List.append_nil, List.map_nil] at hd hlt
    simp only [sockets_eq, Option.toList_some, List.flatMap_cons, List.flatMap_nil,
      listenerHandles, List.append_nil, List.map_cons, List.map_nil]
    exact List.nodup_append.mpr ⟨hd, List.nodup_singleton _, fun s hs t ht =>
      List.mem_singleton.mp ht ▸ Nat.ne_of_lt (hlt s hs)⟩
  | acceptFails hl => exact hd
  | cloneFails hl =>
    rw [sockets_eq] at hd ⊢
    simpa [listenerHandles] using (List.nodup_append.mp hd).1
  | clone hl | sendConnected hl | notifyConnected hl | spawn hl =>
    simpa [sockets_eq, hl, listenerHandles] using hd
  | read hr | readEnds hr | send hr | notify hr => simpa [sockets_eq, hr] using hd

theorem step_sockets {w w' : World} (hw : w.Placed)
    (hlt : ∀ s ∈ sockets w.net, s < w.net.accepted) (hd : (sockets w.net).Nodup)
    (hs : Step cap w es w') : (sockets w'.net).Nodup := by
  cases hs with
  | thread hrun ht => exact thread_sockets hlt hd ht
  | serverStarted hpc =>
    simp only [World.Placed, hpc] at hw
    simp [sockets_eq, hw.1, Net.idle, Net.startServer, listenerHandles]
  | clientStarted hpc =>
    simp only [World.Placed, hpc] at hw
    simp [sockets_eq, hw.1, Net.idle, Net.startClient, Net.clientReader]
  | _ => exact hd

theorem sockets_nodup (h : Runs cap log w) : (sockets w.net).Nodup := by
  have hknown : ∀ {past s}, Runs cap past s → s.Placed ∧ ∀ k ∈ sockets s.net, k < s.net.accepted :=
    fun hr => ⟨hr.wellFormed.placed, List.forall_mem_map.mpr fun p hp =>
      ((told hr).numbered.handles p hp).2⟩
  refine h.invariant_of (I := fun _ w => (sockets w.net).Nodup) hknown ?_ ?_
  · exact List.nodup_nil
  · exact fun hw hd hs => step_sockets hw.1 hw.2 hd hs

theorem reader_unique (hd : (sockets n).Nodup) (hr : r ∈ n.readers) (hr' : r' ∈ n.readers)
    (heq : r.stream = r'.stream) : r = r' := by
  rw [sockets_eq] at hd
  exact List.inj_on_of_nodup_map (List.nodup_append.mp hd).1 hr hr' heq

end Sockets

section Runs

variable {x} {z : Sizes} {l l' : Link}

theorem CircularWait.jammed (h : CircularWait x z l) (hd : (sockets l.world.net).Nodup) :
    (ring x z l).Jammed := by
  obtain ⟨⟨data, hdata, hpart, hroom⟩, ⟨r, hr, hx, ev, hpc⟩, hpipe, hheld, hhost⟩ := h
  obtain ⟨e, rest, next, -, hpending⟩ := pending_writing hdata
  have hidle : l.world.net.readers.countP (fun r => r.stream == x && r.pc == .reading) = 0 := by
    refine List.countP_eq_zero.mpr fun r' hr' hboth => ?_
    simp only [Bool.and_eq_true, beq_iff_eq] at hboth
    obtain rfl := reader_unique hd hr hr' (hx.trans hboth.1.symm)
    rw [hpc] at hboth
    cases hboth.2
  constructor
  · simp only [ring]
    omega
  · simp only [ring]
    omega
  · exact List.length_pos_iff.mpr hheld
  · simp only [ring, reads, hidle]
    split <;> omega

theorem step_writing {w w' : World} {data : List UInt8} (hw : w.Placed)
    (hdata : writing x w = some data) (hs : Step cap w es w') :
    (∃ e outcome, es = [.effect e outcome] ∧ moves x (.effect e outcome) = true) ∨
      w'.pc = w.pc ∧ w'.io = w.io ∧
        (w'.net = w.net ∨ ∃ os, es = os.map .net ∧ ThreadStep cap w.net os w'.net) := by
  obtain ⟨e, rest, next, hpc', -⟩ := pending_writing hdata
  cases hs with
  | effect hpc he | exit hpc he =>
    exact .inl ⟨_, _, rfl, writing_moves hdata hpc (handled he)⟩
  | thread hrun ht => exact .inr ⟨rfl, rfl, .inr ⟨_, rfl, ht⟩⟩
  | tick => exact .inr ⟨rfl, rfl, .inl rfl⟩
  | goto hg =>
    have hreads := hw.reads_ok
    cases hg <;> simp_all
  | noEvent hn => cases hn <;> simp_all
  | _ => simp_all

theorem thread_full {cap : Nat} {n n' : Net} (hs : ThreadStep cap n os n') (hfull : cap ≤ n.pipe) :
    n'.pipe = n.pipe ∧ ∀ r ∈ n.readers, (∃ ev, r.pc = .notifying ev) → r ∈ n'.readers := by
  cases hs with
  | notify hr hcap | notifyConnected hl hcap => exact absurd hfull (Nat.not_le_of_lt hcap)
  | read hr | readEnds hr | send hr =>
    refine ⟨rfl, fun r hmem ⟨ev, hev⟩ => ?_⟩
    rw [hr, List.mem_append, List.mem_cons] at hmem
    rcases hmem with hmem | rfl | hmem
    · exact List.mem_append_left _ hmem
    · cases hev
    · exact List.mem_append_right _ (List.mem_cons_of_mem _ hmem)
  | spawn hl => exact ⟨rfl, fun r hmem _ => List.mem_append_left _ hmem⟩
  | _ => exact ⟨rfl, fun r hmem _ => hmem⟩

theorem CircularWait.stays (h : CircularWait x z l) (hr : Runs z.pipe log l.world)
    (hs : LinkStep x z l es l') (hunbroken : ∀ e accepted, es ≠ [.effect e (.cut x accepted)]) :
    CircularWait x z l' := by
  obtain ⟨⟨data, hdata, hpart, hroom⟩, ⟨r, hmem, hx, ev, hpc⟩, hpipe, hheld, hhost⟩ := h
  cases hs with
  | @host es w _ hs hmoves hup =>
    rcases step_writing hr.wellFormed.placed hdata hs with
      ⟨e, outcome, rfl, hmoved⟩ | ⟨hsame, hio, hnet⟩
    · rw [hmoves _ (List.mem_singleton_self _)] at hmoved
      cases hmoved
    · have hwriting : writing x w = some data := by
        rw [← hdata]
        simp only [writing, writer, hsame, hio]
        rfl
      obtain ⟨hpipe', hreaders⟩ : w.net.pipe = l.world.net.pipe ∧ r ∈ w.net.readers := by
        rcases hnet with heq | ⟨os, -, ht⟩
        · rw [heq]
          exact ⟨rfl, hmem⟩
        · obtain ⟨hpipe', hkept⟩ := thread_full ht hpipe
          exact ⟨hpipe', hkept r hmem ⟨ev, hpc⟩⟩
      exact ⟨⟨data, hwriting, hpart, hroom⟩, ⟨r, hreaders, hx, ev, hpc⟩, hpipe' ▸ hpipe, hheld,
        hhost⟩
  | write hdata' hpos hle hroom' => omega
  | wrote hdata' hall =>
    obtain rfl := Option.some.inj (hdata.symm.trans hdata')
    omega
  | breaks => exact absurd rfl (hunbroken _ _)
  | read hbytes hs =>
    obtain ⟨-, -, -, r', hmem', hx', hreading⟩ := step_read hs
    obtain rfl := reader_unique (sockets_nodup hr) hmem hmem' (hx.trans hx'.symm)
    rw [hpc] at hreading
    cases hreading
  | peerRecv hnone => exact absurd hnone hheld
  | peerSend hbytes hpos hroom' => omega

theorem LinkStep.project (hs : LinkStep x z l es l') :
    Step z.pipe l.world es l'.world ∨ es = [] ∧ l'.world = l.world := by
  cases hs with
  | host hs | wrote _ _ hs | breaks _ _ hs | read _ hs => exact .inl hs
  | write | peerRecv | peerSend => exact .inr ⟨rfl, rfl⟩

variable (x)

/-- Whatever `update` returns fits, as things stand when `handle_effects` begins. -/
def Careful (z : Sizes) (es : List Obs) (l : Link) : Prop :=
  (∃ o ∈ es, returns o = true) → (ring x z l).Fits

end Runs

section Talk

variable {x} {z : Sizes} {l l' : Link}

theorem connected_reader {n n' : Net} {id stream : Nat} {pc pc' : ReaderPc}
    (hr : n.readers = before ++ ⟨id, stream, pc⟩ :: after)
    (hr' : n'.readers = before ++ ⟨id, stream, pc'⟩ :: after)
    (hown : up pc' = true → up pc = true) (h : Connected x n') : Connected x n := by
  simp only [Connected, hr, hr', List.forall_mem_append, List.forall_mem_cons] at h ⊢
  exact ⟨h.1, fun hx => hown (h.2.1 hx), h.2.2⟩

theorem connected_before {w w' : World} (hs : Step cap w es w') (h : Connected x w'.net) :
    Connected x w.net := by
  cases hs with
  | thread hrun ht =>
    cases ht with
    | read hr | readEnds hr => exact connected_reader hr rfl (fun _ => rfl) h
    | @send _ _ _ ev _ _ hr =>
      refine connected_reader hr rfl ?_ h
      cases ev <;> exact id
    | @notify _ _ _ ev _ _ hr =>
      refine connected_reader hr rfl ?_ h
      cases ev with
      | Disconnected => exact id
      | Connected | Data => exact fun _ => rfl
    | spawn => exact fun r hr => h r (List.mem_append_left _ hr)
    | _ => exact h
  | clientStarted => exact fun r hr => h r (List.mem_append_left _ hr)
  | _ => exact h

theorem linked (h : Runs z.pipe log w) (hup : Connected x w.net)
    (hlog : ∀ o ∈ log, moves x o = false ∧ returns o = false) :
    Run (fun l es l' => LinkStep x z l es l' ∧ Careful x z es l') (.of World.initial) log
      (.of w) := by
  induction h with
  | nil => exact .nil
  | snoc hr hs ih =>
    have hbefore := ih (connected_before hs hup) fun o ho => hlog o (List.mem_append_left _ ho)
    have hafter := fun o ho => hlog o (List.mem_append_right _ ho)
    refine hbefore.snoc ⟨.host hs (fun o ho => (hafter o ho).1) hup, ?_⟩
    rintro ⟨o, ho, hreturns⟩
    rw [(hafter o ho).2] at hreturns
    cases hreturns

def talk (n : Nat) : UpdateForHost :=
  ⟨clientSubs, ⟨.readOnly 4, [.TcpSend ⟨0⟩ ⟨.readOnly 5, List.replicate n 0⟩]⟩, .readOnly 0⟩

def connectedClient (pc : Pc) (reader : ReaderPc) (channel : List TcpEvent) (pipe : Nat) : World :=
  { World.clientWaiting with
    pc := pc
    net := ⟨none, [⟨0, 0, reader⟩], channel, pipe, 1⟩
    io := { World.clientWaiting.io with tcp := some (TcpState.new.apply (.Connected 0 0)) } }

theorem updating (hpipe : 0 < z.pipe) : ∃ log event,
    Run (fun l es l' => LinkStep 0 z l es l' ∧ Careful 0 z es l') (.of World.initial) log
      (.of (connectedClient (.update event) .reading [] 0)) := by
  have inited : Runs z.pipe _ (.inited ⟨80, 24⟩ clientInit World.initial.io.heap) :=
    Runs.inited ⟨80, 24⟩ clientInit World.initial.io.heap
  have waiting := (inited.client rfl rfl hpipe).waiting rfl rfl
  have dequeued := Runs.tcp waiting rfl rfl rfl rfl rfl rfl rfl
  have made := dequeued.made rfl (.readOnly 6)
  have hup : Connected 0 (connectedClient .start .reading [] 0).net := by
    simp [Connected, connectedClient, up]
  have quiet := linked (z := z) made hup
  exact ⟨_, _, quiet (by decide)⟩

def talking (n : Nat) (reader : ReaderPc) (channel : List TcpEvent) (pipe : Nat) : World :=
  connectedClient (.effects (talk n).effects.asSlice (some (talk n))) reader channel pipe

theorem writing_talking (n : Nat) (reader : ReaderPc) (channel : List TcpEvent) (pipe : Nat) :
    writing 0 (talking n reader channel pipe) = some (List.replicate n 0) := rfl

theorem talking_connected (n : Nat) (channel : List TcpEvent) (pipe : Nat)
    (hup : up reader = true) : Connected 0 (talking n reader channel pipe).net := by
  simp [Connected, talking, connectedClient, hup]

theorem answers (n : Nat) (event : Event) : ∃ es,
    LinkStep 0 z (.of (connectedClient (.update event) .reading [] 0)) es
      (.of (talking n .reading [] 0)) :=
  ⟨_, .host (.updateReturns (r := talk n) rfl) (by simp [moves]) (talking_connected _ [] 0 rfl)⟩

theorem put (hdata : writing 0 w = some (List.replicate n 0)) (hlt : written < n)
    (hroom : j < z.toPeer) :
    LinkStep 0 z ⟨w, written, List.replicate j 0, held, toHost⟩ []
      ⟨w, written + 1, List.replicate (j + 1) 0, held, toHost⟩ := by
  have wrote : LinkStep 0 z ⟨w, written, List.replicate j 0, held, toHost⟩ []
      ⟨w, written + 1, List.replicate j 0 ++ ((List.replicate n 0).drop written).take 1, held,
        toHost⟩ :=
    .write (k := 1) hdata Nat.one_pos (by simpa [Nat.succ_le_iff] using hlt)
      (by simpa [Nat.succ_le_iff] using hroom)
  have hone : min 1 (n - written) = 1 := Nat.min_eq_left (Nat.sub_pos_of_lt hlt)
  rwa [List.drop_replicate, List.take_replicate, hone, ← List.replicate_add] at wrote

structure Positive (z : Sizes) : Prop where
  pipe : 0 < z.pipe
  toPeer : 0 < z.toPeer
  toHost : 0 < z.toHost
  recv : 0 < z.recv

abbrev TalkRuns (z : Sizes) (log : List Obs) (l : Link) : Prop :=
  Run (LinkStep 0 z) (.of World.initial) log l

theorem got (hz : Positive z) (h : TalkRuns z log ⟨w, written, [], [], toHost⟩)
    (hdata : writing 0 w = some (List.replicate n 0)) (hlt : written < n) :
    TalkRuns z log ⟨w, written + 1, [], [0], toHost⟩ := by
  have wrote : TalkRuns z log ⟨w, written + 1, [0], [], toHost⟩ :=
    h.snoc_silent (put (j := 0) hdata hlt hz.toPeer)
  exact wrote.snoc_silent (.peerRecv rfl rfl Nat.one_pos hz.recv)

theorem echoed (hz : Positive z) (h : TalkRuns z log ⟨w, written, [], [], []⟩)
    (hdata : writing 0 w = some (List.replicate n 0)) (hj : j ≤ z.toHost)
    (hle : written + j ≤ n) :
    TalkRuns z log ⟨w, written + j, [], [], List.replicate j 0⟩ := by
  induction j with
  | zero => exact h
  | succ j ih =>
    have before := ih (Nat.le_of_succ_le hj) (Nat.le_of_succ_le hle)
    have sent : LinkStep 0 z ⟨w, written + j + 1, [], [0], List.replicate j 0⟩ []
        ⟨w, written + j + 1, [], [], List.replicate j 0 ++ [0]⟩ :=
      .peerSend rfl Nat.one_pos (by simpa using hj)
    rw [List.replicate_succ']
    exact (got hz before hdata hle).snoc_silent sent

theorem filled (h : TalkRuns z log ⟨w, written, [], held, toHost⟩)
    (hdata : writing 0 w = some (List.replicate n 0)) (hj : j ≤ z.toPeer)
    (hle : written + j ≤ n) :
    TalkRuns z log ⟨w, written + j, List.replicate j 0, held, toHost⟩ := by
  induction j with
  | zero => exact h
  | succ j ih =>
    have before := ih (Nat.le_of_succ_le hj) (Nat.le_of_succ_le hle)
    exact before.snoc_silent (put hdata hle hj)

def note : TcpEvent := .Data 0 [0]

theorem noted (h : TalkRuns z log ⟨talking n .reading channel pipe, written, [], [], [0]⟩) :
    ∃ log, TalkRuns z log
      ⟨talking n (.notifying note) (channel ++ [note]) pipe, written, [], [], []⟩ := by
  let held (pc : ReaderPc) : List Reader := [] ++ ⟨0, 0, pc⟩ :: []
  have reading : (talking n .reading channel pipe).net.readers = held .reading := rfl
  have chunk : 0 < [(0 : UInt8)].length := Nat.one_pos
  have taken : TalkRuns z _ ⟨talking n (.sending note) channel pipe, written, [], [], []⟩ :=
    h.snoc (.read rfl (.thread rfl (.read reading chunk (by decide))))
  have sending : (talking n (.sending note) channel pipe).net.readers = held (.sending note) :=
    rfl
  have send : Step z.pipe _ _ (talking n (.notifying note) (channel ++ [note]) pipe) :=
    .thread rfl (.send sending)
  exact ⟨_, taken.snoc (.host send (by simp [moves]) (talking_connected _ _ _ rfl))⟩

theorem backlog (hz : Positive z) (k : Nat) (hk : k ≤ z.pipe) (hn : k ≤ n) : ∃ log,
    TalkRuns z log ⟨talking n .reading (List.replicate k note) k, k, [], [], []⟩ := by
  induction k with
  | zero =>
    obtain ⟨log, event, careful⟩ := updating hz.pipe
    obtain ⟨es, returned⟩ := answers (z := z) n event
    have start : TalkRuns z log (.of (connectedClient (.update event) .reading [] 0)) :=
      careful.mono fun hs => hs.1
    exact ⟨_, start.snoc returned⟩
  | succ k ih =>
    obtain ⟨_, before⟩ := ih (Nat.le_of_succ_le hk) (Nat.le_of_succ_le hn)
    obtain ⟨_, pending⟩ := noted (echoed (j := 1) hz before rfl hz.toHost hn)
    let held (pc : ReaderPc) : List Reader := [] ++ ⟨0, 0, pc⟩ :: []
    have notifying : (talking n (.notifying note) (List.replicate k note ++ [note]) k).net.readers =
      held (.notifying note) := rfl
    have notify : Step z.pipe _ _
        (talking n .reading (List.replicate k note ++ [note]) (k + 1)) :=
      .thread rfl (.notify notifying hk)
    rw [List.replicate_succ']
    exact ⟨_, pending.snoc (.host notify (by simp) (talking_connected _ _ _ rfl))⟩

/-- Whatever the buffers hold, an answer that is long enough gets stuck: the pipe fills, then the
room towards the host, and then the room towards the peer. -/
theorem jams (hz : Positive z) : ∃ log l, TalkRuns z log l ∧ CircularWait 0 z l := by
  let n := z.pipe + 1 + z.toHost + 1 + z.toPeer + 1
  obtain ⟨_, full⟩ := backlog (n := n) hz z.pipe (Nat.le_refl _) (by omega)
  obtain ⟨log, stuck⟩ := noted (echoed (j := 1) hz full rfl hz.toHost (by omega))
  have hdata := writing_talking n (.notifying note) (List.replicate z.pipe note ++ [note]) z.pipe
  have unread := echoed hz stuck hdata (Nat.le_refl _) (by omega)
  have taken := got hz unread hdata (by omega)
  have last := filled taken hdata (Nat.le_refl _) (by omega)
  refine ⟨_, _, last, ⟨_, hdata, ?_, ?_⟩, ⟨_, List.mem_cons_self, rfl, _, rfl⟩, Nat.le_refl _,
    List.cons_ne_nil _ _, ?_⟩
  · rw [List.length_replicate]
    exact Nat.lt_succ_self _
  · rw [List.length_replicate]
  · rw [List.length_replicate]

/-- There is no circular wait while every list of effects fits. -/
theorem no_circular_wait (x : Socket) (z : Sizes)
    (h : Run (fun l es l' => LinkStep x z l es l' ∧ Careful x z es l') (.of World.initial) log l) :
    ¬CircularWait x z l := by
  have hworld {past : List Obs} {l : Link}
      (hr : Run (fun l es l' => LinkStep x z l es l' ∧ Careful x z es l')
        (.of World.initial) past l) : Runs z.pipe past l.world :=
    hr.project Link.world fun hs => hs.1.project
  have hfits : Bounded z l ∧ (ring x z l).Fits := by
    refine h.invariant_of (I := fun _ l => Bounded z l ∧ (ring x z l).Fits) hworld ?_ ?_
    · exact ⟨⟨Nat.zero_le _, Nat.zero_le _⟩, Nat.zero_le _⟩
    · intro past l es l' hr ⟨hb, hf⟩ ⟨hs, hcareful⟩
      refine ⟨hb.step hs, ?_⟩
      by_cases hreturns : ∃ o ∈ es, returns o = true
      · exact hcareful hreturns
      · exact hf.move (ring_move hr.wellFormed.placed hb hs (by simpa using hreturns))
  exact fun hwait => hfits.2.not_jammed (hwait.jammed (sockets_nodup (hworld h)))

def usual : Sizes := ⟨65536, 131072, 131072, 1024⟩

theorem talk_jams : ∃ log l, TalkRuns usual log l ∧ CircularWait 0 usual l :=
  jams ⟨by decide, by decide, by decide, by decide⟩

theorem no_circular_wait_five : ∃ log l, l.written = 1 ∧
    writing 0 l.world = some [0, 0, 0, 0, 0] ∧
    Run (fun l es l' => LinkStep 0 usual l es l' ∧ Careful 0 usual es l') (.of World.initial)
      log l ∧ ¬CircularWait 0 usual l := by
  obtain ⟨log, event, start⟩ := updating (z := usual) (by decide)
  obtain ⟨es, returned⟩ := answers (z := usual) 5 event
  have careful : Careful 0 usual es (.of (talking 5 .reading [] 0)) := fun _ => by decide
  have updated := start.snoc ⟨returned, careful⟩
  have wrote : LinkStep 0 usual (.of (talking 5 .reading [] 0)) [] _ :=
    put (j := 0) (writing_talking 5 .reading [] 0) (by decide) (by decide)
  have writing := updated.snoc ⟨wrote, by simp [Careful]⟩
  exact ⟨_, _, rfl, rfl, writing, no_circular_wait 0 usual writing⟩

end Talk

end RocTui.Backpressure
