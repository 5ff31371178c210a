/-
**Messages between the nodes of a network.**

User threads call `comm_node_send_data`, which cuts a message into chunks and pushes them one after
another; the chunks of several calls mix.  The network passes them on, and the node that they are for
reads them into the records of their messages.  A message that is complete waits in the queue of its
source until a user thread takes it by `comm_node_recv_any_data`.

Which call has pushed a chunk is not to be seen in the network: the `sid` that a receiver decodes has
32 bits of the 64 that were sent, so that the messages of a node get the same `sid`s again and again.
The state has this in addition, and how many chunks of a message have arrived is counted by it.

Main definitions:

* `DataCall`, `Messaging` — the calls, and the state of a network with its users;
* `MessagingStep` — the steps of its threads;
* `Messaging.arrived` — how many chunks of a message have arrived;
* `PushesOk` — whose chunks have been accepted;
* `Rests` — what steps that read no channel leave alone.

Main results:

* `next_chunk` — **the first chunk of the last link of a message is its next chunk**;
* `SilentStep.rests` — the steps that read no channel leave the readers alone;
* `arrived_push`, `arrived_deliver` — how a step changes what has arrived.
-/

import DLFree.MessageArrival
import DLFree.ForwardDelivery

set_option relaxedAutoImplicit false
set_option autoImplicit false

namespace DLFree

open FifoPlaces TransitionRun

/-! ### The threads -/

/-- A call of `comm_node_send_data`: the message, and the node that it is for. -/
structure DataCall where
  msg : DataSend
  dstId : ℤ

/-- The chunks that a call pushes. -/
def DataCall.chunks (call : DataCall) : List Frame := call.msg.chunks call.dstId

/-- What a call of `comm_node_recv_any_data` returns: the source, the length and the bytes. -/
abbrev ReceivedData : Type := ℤ × ℤ × List (Option Byte)

/-- What is returned of a message. -/
def DataMsg.result (msg : DataMsg) : ReceivedData := (msg.srcId, msg.len, dataMsgDestroy msg)

/-- What is to be returned of a call. -/
def DataCall.result (call : DataCall) : ReceivedData :=
  (call.msg.srcId, call.msg.buff.length, call.msg.buff.map some)

/-- A network with its users: the records of its nodes and their message counters, the calls that
have begun, the call that has pushed each accepted chunk, and what the users of each node have
received. -/
structure Messaging (ι : Type) where
  fwd : Forwarding
  stores : ℤ → DataStore (Option ℤ)
  dataMsgSid : ℤ → BitVec 64
  begun : List ι
  pushes : List ι
  received : ℤ → List ReceivedData

/-- The steps that concern neither the records nor the accepted chunks. -/
inductive SilentStep (bo : ByteOrder) (n : ℕ) (s : Forwarding) : Forwarding → Prop
  | token {u : ℤ} {chan : Channel (Option ℤ)} (hu : 0 ≤ u ∧ u < n)
      (hchan : (s.net.node u).man.heap (s.net.node u).man.localChan = some chan)
      (hpipe : chan.pipe < chan.buffQueue.length) :
      SilentStep bo n s (s.setMan u
        ((s.net.node u).man.put (s.net.node u).man.localChan (channelLocalPushToken chan)))
  | notify {u : ℤ} (hu : 0 ≤ u ∧ u < n) :
      SilentStep bo n s (s.setMan u (iomanNotifyNewmsg (s.net.node u).man))
  | event {u : ℤ} {man' : Ioman (Option ℤ)} (hu : 0 ≤ u ∧ u < n)
      (hevent : iomanHandleEvent bo (s.net.node u).man = Except.ok man') :
      SilentStep bo n s (s.setMan u man')
  | localRead {u : ℤ} {chan : Channel (Option ℤ)} {node' : CommNode (Option ℤ)}
      (hu : 0 ≤ u ∧ u < n)
      (hchan : (s.net.node u).man.heap (s.net.node u).man.localChan = some chan)
      (hready : channelIsReadable chan) (hpipe : 0 < chan.pipe)
      (hread : iomanProcessLocalChannelRead bo (s.net.node u) = Except.ok node') :
      SilentStep bo n s { s with net := s.net.setNode u node' }
  | write {u v : ℤ} {sent : List Byte} {net' : Net} (hu : 0 ≤ u ∧ u < n)
      (hwrite : NetWrite bo u v s.net sent net') : SilentStep bo n s { s with net := net' }

/-- A read of `u` from `v`, with the records of `u`. -/
structure RecordRead {ι : Type} (bo : ByteOrder) (now : ℚ) (u v : ℤ) (s : Messaging ι)
    (bursts : List (List Byte)) (rest : List Byte) (node' : CommNode (Option ℤ))
    (store' : DataStore (Option ℤ)) (script : List RecvEvent) : Prop where
  ready : ReadReady s.fwd.net u v bursts rest
  read : DataStore.iomanProcessChannelRead bo now (s.fwd.net.node u) (s.stores u) (some v)
    (dataScript bursts) = Except.ok (true, node', store', script)

/-- A step of a network with its users; the calls are `calls`, and each begins at most once. -/
inductive MessagingStep {ι : Type} [DecidableEq ι] (bo : ByteOrder) (n : ℕ) (calls : ι → DataCall)
    (s : Messaging ι) : Messaging ι → Prop
  /-- a user thread enters `comm_node_send_data` and takes a `sid` -/
  | call {i : ι} (hnew : i ∉ s.begun) (hsrc : (calls i).msg.srcId < n)
      (hdst : 0 ≤ (calls i).dstId ∧ (calls i).dstId < n)
      (hother : (calls i).dstId ≠ (calls i).msg.srcId)
      (hsid : (calls i).msg.dataMsgSid = s.dataMsgSid (calls i).msg.srcId) :
      MessagingStep bo n calls s { s with
        begun := s.begun ++ [i]
        dataMsgSid := Function.update s.dataMsgSid (calls i).msg.srcId
          (s.dataMsgSid (calls i).msg.srcId + 1) }
  /-- it pushes the next chunk -/
  | push {i : ι} {f : Frame} {chan chan' : Channel (Option ℤ)} (hi : i ∈ s.begun)
      (hchunk : (calls i).chunks[s.pushes.count i]? = some f)
      (hchan : (s.fwd.net.node (calls i).msg.srcId).man.heap
        (s.fwd.net.node (calls i).msg.srcId).man.localChan = some chan)
      (hpush : channelLocalPushChunk chan (f.packed bo) = some chan') :
      MessagingStep bo n calls s { s with
        fwd := { s.fwd.setMan (calls i).msg.srcId ((s.fwd.net.node (calls i).msg.srcId).man.put
          (s.fwd.net.node (calls i).msg.srcId).man.localChan chan') with
            accepted := s.fwd.accepted ++ [f] }
        pushes := s.pushes ++ [i] }
  /-- a user thread writes the token of a chunk or notifies the I/O thread, or an I/O thread does
  anything but reading a channel -/
  | silent {fwd' : Forwarding} (hstep : SilentStep bo n s.fwd fwd') :
      MessagingStep bo n calls s { s with fwd := fwd' }
  /-- the I/O thread of `u` reads a channel -/
  | read {u v : ℤ} {now : ℚ} {bursts : List (List Byte)} {rest : List Byte}
      {node' : CommNode (Option ℤ)} {store' : DataStore (Option ℤ)} {script : List RecvEvent}
      (hu : 0 ≤ u ∧ u < n) (hread : RecordRead bo now u v s bursts rest node' store' script) :
      MessagingStep bo n calls s { s with
        fwd := { s.fwd with
          net := (s.fwd.net.setNode u node').setWire v u (recvBytes script ++ rest) }
        stores := Function.update s.stores u store' }
  /-- a user thread of `u` takes a message by `comm_node_recv_any_data` -/
  | recv {u : ℤ} {mem mem' : CallerMem} {srcId buff buffsize : ℕ} {queues' : DataQueues}
      (hu : 0 ≤ u ∧ u < n) (hdistinct : srcId ≠ buffsize)
      (hcall : commNodeRecvAnyData (s.stores u).queues mem (some srcId) (some buff)
        (some buffsize) = Except.ok (some (queues', mem'))) :
      MessagingStep bo n calls s { s with
        stores := Function.update s.stores u ((s.stores u).withQueues queues')
        received := Function.update s.received u
          (s.received u ++ [(mem'.ints srcId, mem'.ints buffsize, mem'.buffs buff)]) }

/-- No call has begun.  The counters of messages that wait are 0, which `comm_node_create` does not see
to. -/
structure MessagingStart {ι : Type} (bo : ByteOrder) (n : ℕ) (adj : ℤ → ℤ → Prop)
    [∀ u v, Decidable (adj u v)] (tables : ℤ → OverlayRtable) (s : Messaging ι) : Prop where
  fwd : ForwardStart bo n adj False tables s.fwd
  stores : ∀ u : ℤ, 0 ≤ u ∧ u < n → s.stores u = commNodeCreateStore 0
  begun : s.begun = []
  pushes : s.pushes = []
  received : ∀ u, s.received u = []

/-! ### How far the messages have arrived -/

/-- The chunks from `src` that have arrived at `dst`, with their numbers among the accepted ones. -/
def Forwarding.arrivedChunks (s : Forwarding) (src dst : ℤ) : List (Frame × ℕ) :=
  (s.accepted.zipIdx.filter fun x => x.1.Between src dst).take
    ((s.net.node dst).chunks.filter fun chunk => chunk.1.srcId = src).length

namespace Messaging

variable {ι : Type} [DecidableEq ι]

/-- The call `i` has pushed this chunk. -/
def Owns (s : Messaging ι) (i : ι) (x : Frame × ℕ) : Prop := s.pushes[x.2]? = some i

instance (s : Messaging ι) (i : ι) (x : Frame × ℕ) : Decidable (s.Owns i x) :=
  inferInstanceAs (Decidable (_ = _))

/-- How many chunks of the call `i` have arrived. -/
def arrived (calls : ι → DataCall) (s : Messaging ι) (i : ι) : ℕ :=
  ((s.fwd.arrivedChunks (calls i).msg.srcId (calls i).dstId).filter fun x => s.Owns i x).length

/-- Messages for one node that have begun and have not arrived have different `sid`s there. -/
def SidsApart (calls : ι → DataCall) (s : Messaging ι) : Prop :=
  ∀ i j, i ∈ s.begun → j ∈ s.begun → (calls i).dstId = (calls j).dstId →
    s.arrived calls i < (calls i).chunks.length → s.arrived calls j < (calls j).chunks.length →
      (calls i).msg.wireSid = (calls j).msg.wireSid → i = j

/-- The sockets are within their bounds, the `sid`s of the messages that are under way to a node are
different, and fewer of its messages wait than its counter can count. -/
structure InBounds (n : ℕ) (cap : ℤ → ℤ → ℕ) (calls : ι → DataCall) (s : Messaging ι) : Prop where
  sockets : SocketsBounded cap s.fwd
  apart : s.SidsApart calls
  waiting : ∀ u : ℤ, 0 ≤ u ∧ u < n →
    (s.begun.filter fun i => (calls i).dstId = u).length < (s.received u).length + 2 ^ 31

end Messaging

section Arriving

variable {ι : Type} [DecidableEq ι] {bo : ByteOrder} {n : ℕ} {adj : ℤ → ℤ → Prop}
  [∀ u v, Decidable (adj u v)] {tables : ℤ → OverlayRtable} {calls : ι → DataCall}
  {s s' : Messaging ι} {placed : Placed ChunkPlace (Frame × ℕ)} {i j : ι} {x : Frame × ℕ}
  {rest : List (Frame × ℕ)} {f : Frame} {d v : ℤ}

/-! ### Whose chunks have been accepted -/

/-- Each accepted chunk is the next one of the call that has pushed it. -/
structure PushesOk (calls : ι → DataCall) (s : Messaging ι) : Prop where
  length : s.pushes.length = s.fwd.accepted.length
  begun : ∀ i ∈ s.pushes, i ∈ s.begun
  own : ∀ i, (s.fwd.accepted.zipIdx.filter fun x => s.Owns i x).map Prod.fst =
    (calls i).chunks.take (s.pushes.count i)

theorem PushesOk.owner (h : PushesOk calls s) (hx : x ∈ s.fwd.accepted.zipIdx) :
    ∃ i, i ∈ s.begun ∧ s.Owns i x := by
  have hlt := List.snd_lt_of_mem_zipIdx hx
  rw [Nat.add_zero, ← h.length] at hlt
  exact ⟨s.pushes[x.2], h.begun _ (List.getElem_mem hlt), List.getElem?_eq_getElem hlt⟩

/-- A chunk is one of its call. -/
theorem PushesOk.chunk (h : PushesOk calls s) (hx : x ∈ s.fwd.accepted.zipIdx)
    (howns : s.Owns i x) : ∃ k : ℕ, (calls i).chunks[k]? = some x.1 := by
  have hmem : x.1 ∈ (s.fwd.accepted.zipIdx.filter fun x => s.Owns i x).map Prod.fst :=
    List.mem_map_of_mem (List.mem_filter.2 ⟨hx, decide_eq_true howns⟩)
  rw [h.own i] at hmem
  exact List.getElem?_of_mem (List.mem_of_mem_take hmem)

theorem PushesOk.between (h : PushesOk calls s) (hx : x ∈ s.fwd.accepted.zipIdx)
    (howns : s.Owns i x) : x.1.Between (calls i).msg.srcId (calls i).dstId := by
  obtain ⟨k, hk⟩ := h.chunk hx howns
  have hinfo := congrArg Frame.info (DataSend.chunk_eq hk)
  exact ⟨congrArg MsgInfo.srcId hinfo, congrArg MsgInfo.dstId hinfo⟩

/-- The accepted chunks of a call are between its nodes. -/
theorem PushesOk.filter_own (h : PushesOk calls s) (i : ι) :
    (s.fwd.accepted.zipIdx.filter fun x =>
      x.1.Between (calls i).msg.srcId (calls i).dstId).filter (fun x => s.Owns i x) =
        s.fwd.accepted.zipIdx.filter fun x => s.Owns i x := by
  rw [List.filter_filter]
  refine List.filter_congr fun x hx => ?_
  by_cases howns : s.Owns i x
  · simp [howns, h.between hx howns]
  · simp [howns]

/-! ### The last link -/

/-- The neighbour of `dst` on the path from `src`. -/
def lastHop (tables : ℤ → OverlayRtable) (src dst : ℤ) : ℤ :=
  ((tablePath (tables src) dst).dropLast.getLast?).getD 0

/-- Two neighbours of a list without duplicates, the second of which is the last, are its end. -/
theorem suffix_of_infix_last {α : Type} {l : List α} {a b : α} (hl : l.Nodup) (h : [a, b] <:+: l)
    (hlast : l.getLast? = some b) : [a, b] <:+ l := by
  obtain ⟨xs, ys, rfl⟩ := h
  rcases List.eq_nil_or_concat ys with rfl | ⟨zs, z, rfl⟩
  · exact ⟨xs, (List.append_nil _).symm⟩
  · rw [List.concat_eq_append] at hl hlast
    rw [← List.append_assoc, List.getLast?_concat] at hlast
    obtain rfl := Option.some.inj hlast
    rw [List.append_assoc, List.nodup_append] at hl
    have hne := (List.nodup_append.1 hl.2.1).2.2 z (by simp) z (by simp)
    exact absurd rfl hne

section Carried

variable (h : Carried bo n adj False tables s.fwd none placed) (hsimple : TablesSimple n tables)

include h hsimple

omit [DecidableEq ι] in
/-- A chunk on a link to its destination is on its last link. -/
theorem last_link (hx : x ∈ placed.held (ChunkPlace.link v d)) (hdst : x.1.info.dstId = d) :
    lastHop tables x.1.info.srcId d = v ∧
      [ChunkPlace.link v d, ChunkPlace.delivered d] <:+ itemRoute tables x := by
  have hsrc := (h.pushed_of_held hx).src
  have hroute := h.mem_route hx
  have hpath : [v, d] <:+: chunkPath tables x.1 :=
    link_mem_placesFrom (mem_chunkRoute_of_ne hroute nofun)
  have hend := chunkPath_last hsimple hsrc hpath
  rw [hdst] at hend
  have hdeliver := chunkRoute_deliver hsimple hsrc hroute hdst
  constructor
  · obtain ⟨l, hl⟩ := suffix_of_infix_last (chunkPath_nodup hsimple hsrc) hpath hend
    unfold chunkPath at hl
    rw [hdst] at hl
    unfold lastHop
    rw [← hl]
    simp
  · refine suffix_of_infix_last (chunkRoute_nodup hsimple hsrc) hdeliver
      (chunkRoute_getLast (hdeliver.subset (by simp)))

omit [DecidableEq ι] in
/-- The chunks that have arrived are those that are delivered. -/
theorem arrivedChunks_eq (src : ℤ) (hd : 0 ≤ d ∧ d < n) : s.fwd.arrivedChunks src d =
    (placed.held (ChunkPlace.delivered d)).filter fun x => x.1.Between src d := by
  have hprefix := h.arrived hsimple src d
  rw [h.entered] at hprefix
  unfold Forwarding.arrivedChunks
  rw [h.chunks_from hsimple src hd, List.length_map]
  exact (List.prefix_iff_eq_take.1 hprefix).symm

/-- **The first chunk of the last link of a message is its next chunk.** -/
theorem next_chunk (hpushes : PushesOk calls s) (hd : 0 ≤ d ∧ d < n)
    (hheld : placed.held (ChunkPlace.link v d) = x :: rest) (hdst : x.1.info.dstId = d) :
    ∃ i, i ∈ s.begun ∧ s.Owns i x ∧ (calls i).dstId = d ∧ (calls i).msg.srcId = x.1.info.srcId ∧
      lastHop tables (calls i).msg.srcId d = v ∧
      (calls i).chunks[s.arrived calls i]? = some x.1 ∧
      ∃ more, (s.fwd.accepted.zipIdx.filter fun y => y.1.Between x.1.info.srcId d) =
        s.fwd.arrivedChunks x.1.info.srcId d ++ x :: more := by
  have hmem : x ∈ placed.held (ChunkPlace.link v d) := by
    rw [hheld]
    exact List.mem_cons_self
  have hentered : x ∈ s.fwd.accepted.zipIdx := by
    rw [← h.entered]
    exact (h.places.entered x).2 ⟨_, hmem⟩
  obtain ⟨hlast, hends⟩ := last_link h hsimple hmem hdst
  obtain ⟨i, hi, howns⟩ := hpushes.owner hentered
  obtain ⟨hsrc, hto⟩ := hpushes.between hentered howns
  rw [hdst] at hto
  -- all chunks between the two nodes have the route of this one
  have hsame : ∀ y : Frame × ℕ, decide (y.1.Between x.1.info.srcId d) = true →
      itemRoute tables y = itemRoute tables x := by
    intro y hy
    obtain ⟨hy₁, hy₂⟩ := of_decide_eq_true hy
    unfold itemRoute chunkRoute
    rw [hy₁, hy₂, hdst]
  have hself : decide (x.1.Between x.1.info.srcId d) = true := decide_eq_true ⟨rfl, hdst⟩
  obtain ⟨more, hmore⟩ := h.places.next_arrival
    (chunkRoute_nodup hsimple (h.pushed_of_held hmem).src) hsame hends hheld hself
  rw [h.entered, ← arrivedChunks_eq h hsimple _ hd] at hmore
  refine ⟨i, hi, howns, hto.symm, hsrc.symm, by rw [← hsrc]; exact hlast, ?_, more, hmore⟩
  have hown := hpushes.own i
  have hfirst : (x :: more).filter (fun y => s.Owns i y) = x :: more.filter fun y => s.Owns i y :=
    List.filter_cons_of_pos (decide_eq_true howns)
  rw [← hpushes.filter_own i, ← hsrc, ← hto, hmore, List.filter_append, hfirst, List.map_append,
    List.map_cons] at hown
  have hget : ((calls i).chunks.take (s.pushes.count i))[s.arrived calls i]? = some x.1 := by
    rw [← hown]
    unfold Messaging.arrived
    rw [← hsrc, ← hto, List.getElem?_append_right (by rw [List.length_map]), List.length_map,
      Nat.sub_self]
    rfl
  rw [List.getElem?_take] at hget
  split at hget
  · exact hget
  · cases hget

end Carried

/-! ### Steps that read no channel -/

/-- What steps that read no channel leave alone. -/
structure Rests (net net' : Net) : Prop where
  keep : ∀ d v, KeepsReader (net.node d).man (net'.node d).man (some v)
  chunks : ∀ d, (net'.node d).chunks = (net.node d).chunks

theorem Rests.refl (net : Net) : Rests net net :=
  ⟨fun _ _ => KeepsReader.of_same (SameRead.of_heap rfl), fun _ => rfl⟩

theorem setMan_chunks {net : Net} {u : ℤ} {man' : Ioman (Option ℤ)} (d : ℤ) :
    ((net.setNode u ((net.node u).setMan man')).node d).chunks = (net.node d).chunks := by
  by_cases hd : d = u
  · rw [hd, Net.setNode_node_self]
    rfl
  · rw [Net.setNode_node_of_ne hd]

theorem Rests.setMan {net : Net} {u : ℤ} {man' : Ioman (Option ℤ)}
    (hkeep : ∀ v, KeepsReader (net.node u).man man' (some v)) :
    Rests net (net.setNode u ((net.node u).setMan man')) := by
  refine ⟨fun d v => ?_, setMan_chunks⟩
  by_cases hd : d = u
  · rw [hd, Net.setNode_node_self]
    exact hkeep v
  · rw [Net.setNode_node_of_ne hd]
    exact KeepsReader.of_same (SameRead.of_heap rfl)

theorem SilentStep.forward {s s' : Forwarding} (h : SilentStep bo n s s') :
    ForwardStep bo n s s' := by
  cases h with
  | token hu hchan hpipe => exact ForwardStep.token hu hchan hpipe
  | notify hu => exact ForwardStep.notify hu
  | event hu hevent => exact ForwardStep.event hu hevent
  | localRead hu hchan hready hpipe hread =>
      exact ForwardStep.io (ForwardIoStep.localRead hu hchan hready hpipe hread)
  | write hu hwrite => exact ForwardStep.io (ForwardIoStep.write hu hwrite)

theorem SilentStep.accepted {s s' : Forwarding} (h : SilentStep bo n s s') :
    s'.accepted = s.accepted := by
  cases h <;> rfl

/-- A write changes the node that writes by a run of `channel_write`. -/
theorem netWrite_run {s : Forwarding} (h : ForwardInv bo n adj False tables s placed) {u : ℤ}
    (hu : 0 ≤ u ∧ u < n) {sent : List Byte} {net' : Net} (hwrite : NetWrite bo u v s.net sent net') :
    ∃ man', WriteRun (some v) (s.net.node u).man sent man' ∧ net' = s.net.sent u v man' sent := by
  have hstart : adj u v ∧ ∃ chan, (s.net.node u).man.heap (some v) = some chan := by
    obtain ⟨hready, _⟩ := hwrite
    obtain ⟨chan, hchan, _⟩ := hready.writable
    exact ⟨(h.holds.node u hu).channels v hready.channel, chan, hchan⟩
  obtain ⟨hv, chan, hchan⟩ := hstart
  obtain ⟨node', rfl, ⟨hsetup, _⟩ | ⟨_, man', rfl, hrun⟩⟩ := hwrite.outcome hchan
  · obtain ⟨chan₁, hchan₁, hstate, _⟩ := h.holds.place (ChunkPlace.currBuff u (some v)) hv
    obtain rfl : chan₁ = chan := Option.some.inj (hchan₁.symm.trans hchan)
    rw [hsetup] at hstate
    rcases hstate with hs | hs <;> cases hs
  · exact ⟨man', hrun, rfl⟩

/-- **The other steps leave the readers alone**, and hand no chunk to a node. -/
theorem SilentStep.rests {s s' : Forwarding} (hstep : SilentStep bo n s s')
    (h : ForwardInv bo n adj False tables s placed) : Rests s.net s'.net := by
  cases hstep with
  | token hu hchan _ =>
      rw [(h.holds.node _ hu).localChan]
      exact Rests.setMan fun v => KeepsReader.of_same (SameRead.of_heap (Ioman.heap_put_of_ne nofun))
  | notify hu => exact Rests.setMan fun v => KeepsReader.of_same (SameRead.of_heap rfl)
  | event hu hevent =>
      have hheap := iomanHandleEvent_heap hevent (h.holds.node _ hu).events
      exact Rests.setMan fun v => KeepsReader.of_same (SameRead.of_heap (congrFun hheap _))
  | localRead hu hchan _ _ hread =>
      obtain ⟨_, _, chan', _, _, man', _, _, _, hpipe, rfl⟩ :=
        iomanProcessLocalChannelRead_cases hread
      rw [(h.holds.node _ hu).localChan] at hpipe
      refine Rests.setMan fun v => KeepsReader.of_same ?_
      refine SameRead.trans (SameRead.of_heap ?_) ((pipeline_readers hpipe).1 (some v) nofun)
      exact Ioman.heap_put_of_ne nofun
  | write hu hwrite =>
      obtain ⟨man', hrun, rfl⟩ := netWrite_run h hu hwrite
      have hrests := Rests.setMan fun v => hrun.keepsReader (c := some v) (h.waitInv _ hu).toWaitCore
      exact ⟨hrests.keep, hrests.chunks⟩

/-! ### How a step changes what has arrived -/

theorem mem_arrivedChunks {s : Forwarding} {src : ℤ} (hx : x ∈ s.arrivedChunks src d) :
    x ∈ s.accepted.zipIdx := (List.mem_filter.1 (List.mem_of_mem_take hx)).1

/-- A step that pushes no chunk, and hands none to the destination. -/
theorem arrived_congr (haccepted : s'.fwd.accepted = s.fwd.accepted) (hpushes : s'.pushes = s.pushes)
    (hchunks : (s'.fwd.net.node (calls i).dstId).chunks = (s.fwd.net.node (calls i).dstId).chunks) :
    s'.arrived calls i = s.arrived calls i := by
  have hsame : s'.fwd.arrivedChunks (calls i).msg.srcId (calls i).dstId =
      s.fwd.arrivedChunks (calls i).msg.srcId (calls i).dstId := by
    unfold Forwarding.arrivedChunks
    rw [haccepted, hchunks]
  unfold Messaging.arrived
  rw [hsame]
  refine congrArg List.length (List.filter_congr fun x _ => decide_eq_decide.2 ?_)
  unfold Messaging.Owns
  rw [hpushes]

/-- A chunk that is pushed has not arrived. -/
theorem arrived_push (h : Carried bo n adj False tables s.fwd none placed)
    (hsimple : TablesSimple n tables) (hpushes : PushesOk calls s)
    (hd : 0 ≤ (calls i).dstId ∧ (calls i).dstId < n)
    (haccepted : s'.fwd.accepted = s.fwd.accepted ++ [f]) (hpushed : s'.pushes = s.pushes ++ [j])
    (hchunks : (s'.fwd.net.node (calls i).dstId).chunks = (s.fwd.net.node (calls i).dstId).chunks) :
    s'.arrived calls i = s.arrived calls i := by
  have hle := (h.arrived hsimple (calls i).msg.srcId (calls i).dstId).length_le
  rw [h.entered] at hle
  have hsame : s'.fwd.arrivedChunks (calls i).msg.srcId (calls i).dstId =
      s.fwd.arrivedChunks (calls i).msg.srcId (calls i).dstId := by
    unfold Forwarding.arrivedChunks
    rw [haccepted, hchunks, List.zipIdx_append, List.filter_append, h.chunks_from hsimple _ hd,
      List.length_map, List.take_append_of_le_length hle]
  unfold Messaging.arrived
  rw [hsame]
  refine congrArg List.length (List.filter_congr fun x hx => decide_eq_decide.2 ?_)
  have hlt := List.snd_lt_of_mem_zipIdx (mem_arrivedChunks hx)
  rw [Nat.add_zero, ← hpushes.length] at hlt
  unfold Messaging.Owns
  rw [hpushed, List.getElem?_append_left hlt]

/-- **A chunk that is handed to its node has arrived.** -/
theorem arrived_deliver {more : List (Frame × ℕ)} (howns : s.Owns i x)
    (hsrc : (calls i).msg.srcId = x.1.info.srcId)
    (hmore : (s.fwd.accepted.zipIdx.filter fun y => y.1.Between x.1.info.srcId d) =
      s.fwd.arrivedChunks x.1.info.srcId d ++ x :: more)
    (haccepted : s'.fwd.accepted = s.fwd.accepted) (hpushes : s'.pushes = s.pushes)
    (hchunks : (s'.fwd.net.node d).chunks = (s.fwd.net.node d).chunks ++ [x.1.handed])
    (hj : (calls j).dstId = d) :
    s'.arrived calls j = if j = i then s.arrived calls j + 1 else s.arrived calls j := by
  have howns' : ∀ y, s'.Owns j y ↔ s.Owns j y := by
    intro y
    unfold Messaging.Owns
    rw [hpushes]
  have hfilter : ∀ l : List (Frame × ℕ),
      l.filter (fun y => s'.Owns j y) = l.filter fun y => s.Owns j y :=
    fun l => List.filter_congr fun y _ => decide_eq_decide.2 (howns' y)
  unfold Messaging.arrived
  rw [hj, hfilter]
  by_cases hsrcj : x.1.info.srcId = (calls j).msg.srcId
  · -- the chunk comes behind those that have arrived from its source
    have hm : (s.fwd.arrivedChunks x.1.info.srcId d).length =
        ((s.fwd.net.node d).chunks.filter fun chunk => chunk.1.srcId = x.1.info.srcId).length := by
      have hlen := congrArg List.length hmore
      rw [List.length_append, List.length_cons] at hlen
      unfold Forwarding.arrivedChunks at hlen ⊢
      rw [List.length_take] at hlen ⊢
      omega
    have hnew : s'.fwd.arrivedChunks x.1.info.srcId d =
        s.fwd.arrivedChunks x.1.info.srcId d ++ [x] := by
      have hcount : ((s'.fwd.net.node d).chunks.filter fun chunk =>
          chunk.1.srcId = x.1.info.srcId).length =
            (s.fwd.arrivedChunks x.1.info.srcId d).length + 1 := by
        rw [hchunks, List.filter_append, List.length_append, hm]
        simp [Frame.handed]
      rw [Forwarding.arrivedChunks, haccepted, hcount, hmore, List.take_length_add_append]
      rfl
    rw [← hsrcj, hnew, List.filter_append, List.length_append]
    by_cases hji : j = i
    · subst hji
      have hone : [x].filter (fun y => s.Owns j y) = [x] :=
        List.filter_cons_of_pos (decide_eq_true howns)
      rw [if_pos rfl, hone]
      rfl
    · have hother : ¬ s.Owns j x := fun hown => hji (Option.some.inj (howns.symm.trans hown)).symm
      have hnone : [x].filter (fun y => s.Owns j y) = [] :=
        List.filter_cons_of_neg (by simpa using hother)
      rw [if_neg hji, hnone]
      rfl
  · have hsame : s'.fwd.arrivedChunks (calls j).msg.srcId d =
        s.fwd.arrivedChunks (calls j).msg.srcId d := by
      have hnone : [x.1.handed].filter (fun chunk : MsgInfo × List Byte =>
          chunk.1.srcId = (calls j).msg.srcId) = [] :=
        List.filter_cons_of_neg fun he => hsrcj (of_decide_eq_true he)
      unfold Forwarding.arrivedChunks
      rw [haccepted, hchunks, List.filter_append, hnone, List.append_nil]
    have hji : j ≠ i := by
      rintro rfl
      exact hsrcj hsrc.symm
    rw [if_neg hji, hsame]

end Arriving

end DLFree
