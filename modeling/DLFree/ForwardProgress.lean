/-
**No stuck state.**

The sockets of a network that forwards chunks hold a bounded number of bytes, and the send queues a
bounded number of buffers, so that nodes wait for one another.  They do not wait in a cycle: a
channel that is blocked holds a chunk for a full queue, which is the next link on the path of this
chunk.  Where the dependency graph of the links is acyclic, some I/O thread can go on as long as a
chunk is on its way.

Main definitions:

* `TablesComplete` — tables of simple paths between all nodes, along the channels;
* `CanMove` — some I/O thread can pop a chunk, take bytes from a socket or put bytes into one;
* `AllDelivered` — all accepted chunks have been delivered.

Main results:

* `ForwardInv.canPop`, `ForwardInv.canTake`, `ForwardInv.canSend` — what a node can do when it is
  ready;
* `ForwardInv.loaded_next` — a link whose bytes cannot be taken waits for the next link of a path;
* `forwarding_not_stuck` — **some I/O thread can go on, or all accepted chunks are delivered**.
-/

import DLFree.ChannelDependency
import DLFree.ForwardRun

set_option relaxedAutoImplicit false
set_option autoImplicit false

namespace DLFree

open FifoPlaces TransitionRun

/-! ### What an I/O thread can do -/

/-- The socket from `u` to `v` holds at most `cap u v` bytes. -/
def SocketsBounded (cap : ℤ → ℤ → ℕ) (s : Forwarding) : Prop :=
  ∀ u v, (s.net.wire u v).length ≤ cap u v

/-- The chunk is for another node. -/
def Frame.ForOther (n : ℕ) (f : Frame) : Prop :=
  (0 ≤ f.info.dstId ∧ f.info.dstId < n) ∧ f.info.dstId ≠ f.info.srcId

/-- All sockets are within their bounds, and all accepted chunks are for other nodes. -/
structure InBounds (n : ℕ) (cap : ℤ → ℤ → ℕ) (s : Forwarding) : Prop where
  sockets : SocketsBounded cap s
  others : ∀ f ∈ s.accepted, f.ForOther n

/-- Every call of `channel_local_push_chunk` has returned: each chunk of a local queue has its
token. -/
def PushesReturned (n : ℕ) (s : Forwarding) : Prop :=
  ∀ u : ℤ, 0 ≤ u ∧ u < n → ∀ chan, (s.net.node u).man.heap none = some chan →
    chan.pipe = chan.buffQueue.length

/-- All accepted chunks have been delivered, those from one node to another in the order in which
they were accepted. -/
def AllDelivered (n : ℕ) (s : Forwarding) : Prop :=
  ∀ src dst : ℤ, 0 ≤ dst ∧ dst < n →
    (s.net.node dst).chunks.filter (fun chunk => chunk.1.srcId = src) =
      (s.accepted.filter fun f => f.Between src dst).map Frame.handed

/-- Some I/O thread can take a step in which it pops a chunk from its local queue, takes bytes from
a socket, or puts bytes into a socket that has room for them. -/
inductive CanMove (bo : ByteOrder) (n : ℕ) (cap : ℤ → ℤ → ℕ) (s : Forwarding) : Prop
  | pop {u : ℤ} {s' : Forwarding} (hstep : ForwardIoStep bo n s s')
      (hbounded : SocketsBounded cap s')
      (hpop : (s'.net.node u).man.queueLen none < (s.net.node u).man.queueLen none)
  | take {u v : ℤ} {s' : Forwarding} (hstep : ForwardIoStep bo n s s')
      (hbounded : SocketsBounded cap s')
      (htake : (s'.net.wire u v).length < (s.net.wire u v).length)
  | send {u v : ℤ} {s' : Forwarding} (hstep : ForwardIoStep bo n s s')
      (hbounded : SocketsBounded cap s')
      (hsend : (s.net.wire u v).length < (s'.net.wire u v).length)

/-- The tables have an entry for every other node, with a simple path along the channels. -/
structure TablesComplete (n : ℕ) (adj : ℤ → ℤ → Prop) (tables : ℤ → OverlayRtable) : Prop where
  simple : TablesSimple n tables
  entry : ∀ src dst : ℤ, 0 ≤ src ∧ src < n → 0 ≤ dst ∧ dst < n → src ≠ dst →
    ∃ entry, overlayRtableGetEntry (tables src) dst = Except.ok (some entry)
  peers : ∀ src : ℤ, 0 ≤ src ∧ src < n → ∀ dst entry,
    overlayRtableGetEntry (tables src) dst = Except.ok (some entry) →
      ∀ u v, [u, v] <:+: entry.path → adj u v

/-- The paths of the tables. -/
def tableRoutes (n : ℕ) (tables : ℤ → OverlayRtable) : Set (List ℤ) :=
  { path | ∃ (src dst : ℤ) (entry : OverlayRtableEntry), (0 ≤ src ∧ src < n) ∧
    overlayRtableGetEntry (tables src) dst = Except.ok (some entry) ∧ path = entry.path }

section CanMove

variable {bo : ByteOrder} {n : ℕ} {adj : ℤ → ℤ → Prop} [∀ u v, Decidable (adj u v)]
  {control : Prop} {tables : ℤ → OverlayRtable} {s : Forwarding} {cap : ℤ → ℤ → ℕ}
  {placed : Placed ChunkPlace (Frame × ℕ)} {u v w : ℤ} {c : Option ℤ}
  {chan cu : Channel (Option ℤ)} {f : Frame} {x : Frame × ℕ} {rest : List (Frame × ℕ)}
  {node node' : CommNode (Option ℤ)}

/-- Writing a connection that has been made sends its queue. -/
theorem iomanProcessChannelWrite_sent {script : List SendEvent} {r : ChannelWrite (Option ℤ)}
    (hchan : node.man.heap c = some chan)
    (hstate : chan.state = ChannelStatus.active ∨ chan.state = ChannelStatus.blocking)
    (hwrite : channelWrite node.man c script = Except.ok r) :
    iomanProcessChannelWrite bo node c true script =
      Except.ok (decide (r.stat ≠ ChannelWriteStatus.err), node.setMan r.man, r.sent) := by
  unfold iomanProcessChannelWrite
  rw [Ioman.get_eq_ok.2 hchan, ok_bind]
  rcases hstate with hs | hs
  · simp only [hs, hwrite, ok_bind]
    rfl
  · simp only [hs, hwrite, ok_bind]
    rfl

/-- The channels that wait for `c` can be released. -/
theorem ForwardInv.unblockOk (h : ForwardInv bo n adj control tables s placed)
    (hu : 0 ≤ u ∧ u < n) (hchan : (s.net.node u).man.heap c = some chan) :
    UnblockOk (s.net.node u).man c where
  live := Ioman.live_of_heap hchan
  nodup := (h.waitInv u hu).waits.nodup c
  holding w hw := (h.waitInv u hu).holds w ((h.waitInv u hu).waits.blocked_of_mem c w hw)

/-- A read takes bytes. -/
theorem LinkOk.read_takes {net : Net} {queue : List MsgBuff} {frames : List Frame} {now : ℚ}
    (hlink : LinkOk bo (net.node u).nodeId queue (net.wire v u) chan frames)
    (hchan : (net.node u).man.heap (some v) = some chan) (hreadable : channelIsReadable chan)
    (hwire : net.wire v u ≠ []) {script : List RecvEvent}
    (hread : iomanProcessChannelRead bo now (net.node u) (some v) (dataScript [net.wire v u]) =
      Except.ok (true, node', script)) :
    (recvBytes script).length < (net.wire v u).length := by
  obtain ⟨f, frames', rfl⟩ := hlink.exists_frame hwire
  obtain ⟨hok, r, hreader, _⟩ := hlink
  have hreading := hreader.reading_of_active (not_blocking_of_readable hchan hreadable).1
  obtain ⟨_, _, _, hframe⟩ := iomanProcessChannelRead_script hchan hread
  obtain ⟨b, bs, hbytes⟩ := List.exists_cons_of_ne_nil hwire
  have hfed : Fed (dataScript [net.wire v u]) := ⟨b, bs, [], by rw [hbytes]; rfl⟩
  have htakes := iomanReadFrame_takes (hok f List.mem_cons_self) hreading hfed hframe
  simpa using htakes

/-- **A node can send bytes of a queue** into a socket that has room. -/
theorem ForwardInv.canSend (h : ForwardInv bo n adj control tables s placed)
    (hpeers : Peers n adj) (hbounds : InBounds n cap s) (hv : adj u v)
    (hcu : (s.net.node u).man.heap (some v) = some cu) {buff : MsgBuff} {bs : List MsgBuff}
    (hq : cu.buffQueue = buff :: bs) (hne : buff.unsent ≠ [])
    (hroom : (s.net.wire u v).length < cap u v) : CanMove bo n cap s := by
  have hu := hpeers.range hv
  obtain ⟨chan, hchan, hstate, _⟩ := h.holds.place (ChunkPlace.currBuff u (some v)) hv
  obtain rfl : chan = cu := Option.some.inj (hchan.symm.trans hcu)
  obtain ⟨r, hwrite, hstat⟩ := channelWrite_ok [1] (h.unblockOk hu hcu)
  have hsent := channelWrite_sent hcu hq hne Nat.one_pos hwrite
  have hle : r.sent.length ≤ 1 := channelWrite_le hwrite
  have hprocess : iomanProcessChannelWrite bo (s.net.node u) (some v) true (roomScript [1]) =
      Except.ok (true, (s.net.node u).setMan r.man, r.sent) := by
    rw [iomanProcessChannelWrite_sent hcu hstate hwrite]
    simp [hstat]
  have hwritable : channelIsWritable chan := by
    unfold channelIsWritable
    rw [hq]
    simp
  have hnet : NetWrite bo u v s.net r.sent _ :=
    NetWrite.intro ⟨((h.holds.node u hu).connected.known hv).1, chan, hcu, hwritable⟩ hprocess
  have hpos := List.length_pos_iff.2 hsent
  refine CanMove.send (u := u) (v := v) (ForwardIoStep.write hu hnet) (fun x y => ?_) ?_
  · by_cases hxy : x = u ∧ y = v
    · obtain ⟨rfl, rfl⟩ := hxy
      dsimp only
      rw [Net.setWire_wire_self, List.length_append]
      omega
    · dsimp only
      rw [Net.setWire_wire_of_ne hxy]
      exact hbounds.sockets x y
  · dsimp only
    rw [Net.setWire_wire_self, List.length_append]
    omega

/-- The next node on the path of a chunk is found, and is a peer. -/
theorem Forwards.nexthop (hnode : Forwards n adj control tables node u) (hn : n ≤ commMaxPeer)
    (hpeers : Peers n adj) (htables : TablesComplete n adj tables)
    (hsrc : 0 ≤ f.info.srcId ∧ f.info.srcId < n) (huw : [u, w] <:+: chunkPath tables f) :
    adj u w ∧ commNodeLookupRt node.nodeId node.rts f.info.srcId f.info.dstId = Except.ok w ∧
      (0 ≤ w ∧ w < node.man.maxpeers) ∧ node.man.channelMap w = some (some w) := by
  rcases tablePath_cases (tables f.info.srcId) f.info.dstId with hnil | ⟨entry, hentry, heq⟩
  · rw [chunkPath, hnil] at huw
    cases List.infix_nil.1 huw
  · rw [chunkPath, heq] at huw
    have hadj := htables.peers _ hsrc _ _ hentry u w huw
    have hw := hpeers.range (hpeers.symm hadj)
    obtain ⟨pre, post, hsplit⟩ := huw
    have hpath : entry.path = pre ++ u :: w :: post := by
      rw [← hsplit]
      simp
    refine ⟨hadj, ?_, ?_, ?_⟩
    · rw [hnode.nodeId]
      exact commNodeLookupRt_eq (hnode.rts _ hsrc) hentry hpath (htables.simple _ hsrc _ _ hentry).1
    · rw [hnode.maxpeers]
      exact ⟨hw.1, by omega⟩
    · rw [hnode.channelMap, if_pos hadj]

omit [∀ u v, Decidable (adj u v)] in
/-- The path of a chunk for another node leads to it. -/
theorem chunkPath_dst (htables : TablesComplete n adj tables)
    (hsrc : 0 ≤ f.info.srcId ∧ f.info.srcId < n) (hfor : f.ForOther n) :
    (chunkPath tables f).head? = some f.info.srcId ∧
      (chunkPath tables f).getLast? = some f.info.dstId := by
  obtain ⟨entry, hentry⟩ := htables.entry _ _ hsrc hfor.1 hfor.2.symm
  have hpath : chunkPath tables f = entry.path := by
    unfold chunkPath tablePath
    rw [hentry]
  rw [hpath]
  exact (htables.simple _ hsrc _ _ hentry).2

/-- A chunk for this node that is complete is delivered. -/
theorem iomanReadDone_deliver_ok {chan' : Channel (Option ℤ)} {now : ℚ} {msg : MsgBuff} (hf : f.Ok)
    (hkind : f.IsChunk) (hinfo : chan'.msgInfo = f.seen f.body.length)
    (hdst : f.info.dstId = node.nodeId) :
    ∃ node', iomanReadDone bo now node c chan' msg = Except.ok node' := by
  have hremain : (f.seen f.body.length).remain = 0 := by
    show f.info.len - f.body.length = 0
    rw [hf.len]
    exact sub_self _
  have hsid : (f.seen f.body.length).sid ≠ -1 := (hf.chunk hkind).2
  have hkind' : (f.seen f.body.length).kind = MsgKind.data.toInt := hkind
  have hdst' : (f.seen f.body.length).dstId = node.nodeId := hdst
  unfold iomanReadDone commNodeHandleChunk
  rw [hinfo, if_pos hkind', if_pos hdst']
  simp only [hsid, ne_eq, not_false_eq_true, decide_true, cAssert_true, ok_bind, hremain]
  exact ⟨_, rfl⟩

/-- A chunk for another node that is complete is passed on, or waits. -/
theorem iomanReadDone_pipeline_ok {chan' nextChan : Channel (Option ℤ)} {next : Option ℤ} {now : ℚ}
    {msg buff : MsgBuff} (hf : f.Ok) (hkind : f.IsChunk)
    (hinfo : chan'.msgInfo = f.seen f.body.length) (hdst : f.info.dstId ≠ node.nodeId)
    (hnexthop : iomanGetNexthopChannel node f.info.srcId f.info.dstId = Except.ok next)
    (hchan : node.man.heap c = some chan') (hcurr : chan'.currBuff = some buff)
    (hnext : node.man.heap next = some nextChan) :
    ∃ node', iomanReadDone bo now node c chan' msg = Except.ok node' := by
  have hremain : (f.seen f.body.length).remain = 0 := by
    show f.info.len - f.body.length = 0
    rw [hf.len]
    exact sub_self _
  have hkind' : (f.seen f.body.length).kind = MsgKind.data.toInt := hkind
  have hdst' : (f.seen f.body.length).dstId ≠ node.nodeId := hdst
  have hnexthop' : iomanGetNexthopChannel node (f.seen f.body.length).srcId
      (f.seen f.body.length).dstId = Except.ok next := hnexthop
  unfold iomanReadDone
  rw [hinfo, if_pos hkind', if_neg hdst', hnexthop', ok_bind,
    channelPipelineChunk_eq hchan hcurr hnext, ok_bind, hremain]
  exact ⟨_, rfl⟩

namespace ForwardInv

/-- The next node on the path of a chunk that is not at its destination. -/
theorem next_of_mem (h : ForwardInv bo n adj control tables s placed)
    (htables : TablesComplete n adj tables) (hbounds : InBounds n cap s) {p : ChunkPlace}
    (hx : x ∈ placed.held p) (hu : u ∈ chunkPath tables x.1) (hdst : x.1.info.dstId ≠ u) :
    ∃ w, [u, w] <:+: chunkPath tables x.1 := by
  refine exists_next hu fun hlast => hdst ?_
  rw [(chunkPath_dst htables (h.pushed_of_held hx).src
    (hbounds.others _ (h.accepted_of_held hx))).2] at hlast
  exact Option.some.inj hlast

/-- Reading the local channel returns, and its queue is shorter then. -/
theorem localRead_ok (h : ForwardInv bo n adj control tables s placed) (hn : n ≤ commMaxPeer)
    (hpeers : Peers n adj) (htables : TablesComplete n adj tables) (hbounds : InBounds n cap s)
    (hu : 0 ≤ u ∧ u < n) (hchan : (s.net.node u).man.heap none = some chan) (hpipe : 0 < chan.pipe)
    (hheld : placed.held (ChunkPlace.localQueue u) = x :: rest) :
    ∃ node', iomanProcessLocalChannelRead bo (s.net.node u) = Except.ok node' ∧
      node'.man.queueLen none < (s.net.node u).man.queueLen none := by
  have hnode := h.holds.node u hu
  obtain ⟨chan₂, hchan₂, hq⟩ := h.holds.place (ChunkPlace.localQueue u) hu
  obtain rfl : chan₂ = chan := Option.some.inj (hchan₂.symm.trans hchan)
  rw [hheld, List.map_cons] at hq
  have hmem : x ∈ placed.held (ChunkPlace.localQueue u) := by
    rw [hheld]
    exact List.mem_cons_self
  have hpushed := h.pushed_of_held hmem
  have hother := hbounds.others x.1 (h.accepted_of_held hmem)
  have hsrc := h.src_of_localQueue hmem
  -- the source is followed by a peer
  have hhead := (chunkPath_dst htables hpushed.src hother).1
  rw [hsrc] at hhead
  obtain ⟨w, huw⟩ := h.next_of_mem htables hbounds hmem (List.mem_of_mem_head? hhead)
    fun he => hother.2 (he.trans hsrc.symm)
  obtain ⟨hw, hlookup, hmax, hmap⟩ := hnode.nexthop hn hpeers htables hpushed.src huw
  obtain ⟨cw, hcw, _⟩ := h.holds.place (ChunkPlace.currBuff u (some w)) hw
  obtain ⟨body, hunpack⟩ := msgInfoUnpack_packHeader bo hpushed.ok.fits x.1.body
  rw [← unsent_channelPackBuff] at hunpack
  have hlocal : (s.net.node u).man.heap (s.net.node u).man.localChan = some chan₂ := by
    rw [hnode.localChan]
    exact hchan
  have hne : some w ≠ (s.net.node u).man.localChan := by
    rw [hnode.localChan]
    nofun
  have hsd : x.1.info.onWire.srcId ≠ x.1.info.onWire.dstId := fun he => hother.2 he.symm
  refine ⟨_, iomanProcessLocalChannelRead_eq hlocal hpipe.ne' hq hunpack hsd hlookup hmax.1 hmax.2
    hmap hcw hne, ?_⟩
  have hshorter : ∀ man' : Ioman (Option ℤ), SameQueue ((s.net.node u).man.put none
      (chan₂.popped x.1.info.onWire (x.1.packed bo) (rest.map fun y => y.1.packed bo)))
      man' none → man'.queueLen none < (s.net.node u).man.queueLen none := by
    intro man' hsame
    obtain ⟨chan', hchan', hlen⟩ := hsame _ Ioman.heap_put_self
    rw [Ioman.queueLen_eq hchan', hlen, Ioman.queueLen_eq hchan, hq]
    exact Nat.lt_succ_self _
  dsimp only
  rw [hnode.localChan]
  refine hshorter _ ?_
  split
  · exact SameQueue.moveChunk nofun
  · exact SameQueue.joinWaitQueue

/-- **A node can pop a chunk of its local queue.** -/
theorem canPop (h : ForwardInv bo n adj control tables s placed) (hn : n ≤ commMaxPeer)
    (hpeers : Peers n adj) (htables : TablesComplete n adj tables) (hbounds : InBounds n cap s)
    (hu : 0 ≤ u ∧ u < n) (hchan : (s.net.node u).man.heap none = some chan)
    (hreadable : channelIsReadable chan) (hpipe : 0 < chan.pipe)
    (hheld : placed.held (ChunkPlace.localQueue u) = x :: rest) : CanMove bo n cap s := by
  have hlocal : (s.net.node u).man.heap (s.net.node u).man.localChan = some chan := by
    rw [(h.holds.node u hu).localChan]
    exact hchan
  obtain ⟨node', hread, hshorter⟩ :=
    h.localRead_ok hn hpeers htables hbounds hu hchan hpipe hheld
  refine CanMove.pop (u := u) (ForwardIoStep.localRead hu hlocal hreadable hpipe hread)
    hbounds.sockets ?_
  dsimp only
  rw [Net.setNode_node_self]
  exact hshorter

/-- **A chunk that is complete is delivered or passed on.** -/
theorem readDone_ok (h : ForwardInv bo n adj control tables s placed) (hn : n ≤ commMaxPeer)
    (hpeers : Peers n adj) (htables : TablesComplete n adj tables)
    (hbounds : InBounds n cap s) (hv : adj u v)
    (hchan : (s.net.node u).man.heap (some v) = some chan) (hf : f.Ok) (hkind : f.IsChunk)
    {chan' : Channel (Option ℤ)} (hdone : f.Done bo u chan') {k : ℕ} {now : ℚ}
    (hmem : (f, k) ∈ placed.held (ChunkPlace.link v u)) :
    ∃ node', iomanReadDone bo now ((s.net.node u).setMan ((s.net.node u).man.put (some v) chan'))
      (some v) chan' (f.buff bo u f.body) = Except.ok node' := by
  have hnode := h.holds.node u (hpeers.range hv)
  by_cases hdst : f.info.dstId = u
  · exact iomanReadDone_deliver_ok hf hkind hdone.msgInfo (hdst.trans hnode.nodeId.symm)
  · have hroute := link_mem_placesFrom (mem_chunkRoute_of_ne (h.mem_route hmem) nofun)
    obtain ⟨w, huw⟩ := h.next_of_mem htables hbounds hmem (hroute.subset (by simp)) hdst
    obtain ⟨hw, hlookup, hmax, hmap⟩ :=
      hnode.nexthop hn hpeers htables (h.pushed_of_held hmem).src huw
    obtain ⟨cw, hcw, _⟩ := h.holds.place (ChunkPlace.currBuff u (some w)) hw
    have hlive : ((s.net.node u).man.put (some v) chan').live (some w) :=
      (Ioman.live_put hchan).2 (Ioman.live_of_heap hcw)
    obtain ⟨cw', hcw'⟩ := Ioman.exists_of_live hlive
    have hnexthop : iomanGetNexthopChannel ((s.net.node u).setMan ((s.net.node u).man.put (some v)
        chan')) f.info.srcId f.info.dstId = Except.ok (some w) :=
      iomanGetNexthopChannel_eq hlookup hmax.1 hmax.2 hmap
    exact iomanReadDone_pipeline_ok hf hkind hdone.msgInfo (fun he => hdst (he.trans hnode.nodeId))
      hnexthop Ioman.heap_put_self (hdone.currBuff.trans (if_pos hkind)) hcw'

/-- The bytes in the socket of a channel that is ready can be read. -/
theorem readReady (h : ForwardInv bo n adj control tables s placed) (hpeers : Peers n adj)
    (hv : adj u v) (hchan : (s.net.node u).man.heap (some v) = some chan)
    (hreadable : channelIsReadable chan) (hwire : s.net.wire v u ≠ []) :
    ReadReady s.net u v [s.net.wire v u] [] where
  channel := ((h.holds.node u (hpeers.range hv)).connected.known hv).1
  readable := ⟨chan, hchan, hreadable⟩
  wire := by simp
  bytes := by simpa using hwire

/-- **Reading a channel returns**, whatever bytes it is given. -/
theorem read_ok (h : ForwardInv bo n adj False tables s placed) (hn : n ≤ commMaxPeer)
    (hpeers : Peers n adj) (htables : TablesComplete n adj tables) (hbounds : InBounds n cap s)
    (hu : 0 ≤ u ∧ u < n) {now : ℚ} {bursts : List (List Byte)} {more : List Byte}
    (hready : ReadReady s.net u v bursts more) :
    ∃ node' script, iomanProcessChannelRead bo now (s.net.node u) (some v) (dataScript bursts) =
      Except.ok (true, node', script) := by
  have hnode := h.holds.node u hu
  have hv := hnode.channels v hready.channel
  obtain ⟨chan, hchan, hreadable⟩ := hready.readable
  obtain ⟨cu, frames, hcu, hlink, hqueue, hheld⟩ :=
    h.holds.link_ready hpeers hv (h.ready hu hchan hreadable)
  have hread : LinkRead bo now (s.net.node u) (some v) chan cu.buffQueue more frames
      (iomanProcessChannelRead bo now (s.net.node u) (some v) (dataScript bursts)) := by
    refine hready.linkRead hchan ?_
    rw [hnode.nodeId]
    exact hlink
  generalize iomanProcessChannelRead bo now (s.net.node u) (some v) (dataScript bursts) = res
    at hread ⊢
  cases hread with
  | part _ _ => exact ⟨_, _, rfl⟩
  | @full f _ chan' _ _ hf hdone _ _ =>
      have hkind : f.IsChunk := (hqueue.chunks f List.mem_cons_self).resolve_right id
      obtain ⟨k, rest, hlist, _⟩ := first_chunk hheld hkind
      have hmem : (f, k) ∈ placed.held (ChunkPlace.link v u) := by
        rw [hlist]
        exact List.mem_cons_self
      rw [hnode.nodeId] at hdone ⊢
      have hdoneOk : ∃ node', iomanReadDone bo now ((s.net.node u).setMan
          ((s.net.node u).man.put (some v) chan')) (some v) chan' (f.buff bo u f.body) =
            Except.ok node' :=
        h.readDone_ok hn hpeers htables hbounds hv hchan hf hkind hdone hmem
      obtain ⟨node', hnode'⟩ := hdoneOk
      rw [hnode']
      exact ⟨_, _, rfl⟩

/-- A read takes bytes. -/
theorem read_takes (h : ForwardInv bo n adj control tables s placed) (hpeers : Peers n adj)
    (hv : adj u v) (hchan : (s.net.node u).man.heap (some v) = some chan)
    (hreadable : channelIsReadable chan) (hwire : s.net.wire v u ≠ []) {script : List RecvEvent}
    (hread : iomanProcessChannelRead bo 0 (s.net.node u) (some v) (dataScript [s.net.wire v u]) =
      Except.ok (true, node', script)) :
    (recvBytes script).length < (s.net.wire v u).length := by
  have hu := hpeers.range hv
  obtain ⟨cu, frames, hcu, hlink, _, _⟩ :=
    h.holds.link_ready hpeers hv (h.ready hu hchan hreadable)
  have hlink : LinkOk bo (s.net.node u).nodeId cu.buffQueue (s.net.wire v u) chan frames := by
    rw [(h.holds.node u hu).nodeId]
    exact hlink
  exact hlink.read_takes hchan hreadable hwire hread

/-- **A node can take bytes from a socket** when the channel is ready. -/
theorem canTake (h : ForwardInv bo n adj False tables s placed) (hn : n ≤ commMaxPeer)
    (hpeers : Peers n adj) (htables : TablesComplete n adj tables) (hbounds : InBounds n cap s)
    (hv : adj u v) (hchan : (s.net.node u).man.heap (some v) = some chan)
    (hreadable : channelIsReadable chan) (hwire : s.net.wire v u ≠ []) : CanMove bo n cap s := by
  have hready := h.readReady hpeers hv hchan hreadable hwire
  obtain ⟨node', script, hread⟩ : ∃ node' script, iomanProcessChannelRead bo 0 (s.net.node u)
      (some v) (dataScript [s.net.wire v u]) = Except.ok (true, node', script) :=
    h.read_ok hn hpeers htables hbounds (hpeers.range hv) hready
  have htakes := h.read_takes hpeers hv hchan hreadable hwire hread
  refine CanMove.take (u := v) (v := u) (ForwardIoStep.read (hpeers.range hv)
    (NetRead.intro hready hread)) (fun x y => ?_) ?_
  · by_cases hxy : x = v ∧ y = u
    · obtain ⟨rfl, rfl⟩ := hxy
      dsimp only
      rw [Net.setWire_wire_self, List.append_nil]
      exact htakes.le.trans (hbounds.sockets _ _)
    · dsimp only
      rw [Net.setWire_wire_of_ne hxy]
      exact hbounds.sockets x y
  · dsimp only
    rw [Net.setWire_wire_self, List.append_nil]
    exact htakes

end ForwardInv

/-! ### Who waits for whom -/

/-- The link has bytes in its queue or in its socket. -/
def Loaded (adj : ℤ → ℤ → Prop) (net : Net) (a : ℤ × ℤ) : Prop :=
  adj a.1 a.2 ∧ (net.wire a.1 a.2 ≠ [] ∨ (net.node a.1).man.queueLen (some a.2) ≠ 0)

/-- A link that carries frames has bytes in its queue or in its socket. -/
theorem LinkCarries.bytes {bo : ByteOrder} {nodeId : ℤ} {queue : List MsgBuff} {wire : List Byte}
    {full : Prop} {frames : List Frame}
    (h : LinkCarries bo nodeId queue wire chan full frames) (hne : frames ≠ []) :
    wire ≠ [] ∨ queue ≠ [] := by
  obtain ⟨f, frames, rfl⟩ := List.exists_cons_of_ne_nil hne
  by_contra hnone
  obtain ⟨hwire, hqueue⟩ := not_or.1 hnone
  rw [not_not] at hwire hqueue
  subst hwire hqueue
  cases h with
  | reading _ hlink =>
      obtain ⟨_, r, hreader, hbytes⟩ := hlink
      rw [List.flatMap_nil, List.append_nil, List.append_nil, List.flatMap_cons] at hbytes
      have hle : (f.encode bo).length ≤ r.length := by
        rw [hbytes, List.length_append]
        exact Nat.le_add_right _ _
      cases hreader with
      | idle _ _ _ => exact Frame.encode_ne_nil (List.length_eq_zero_iff.1 (Nat.le_zero.1 hle))
      | reading _ hreading => exact absurd hreading.ne_encode (not_lt.2 hle)
      | held _ _ => exact Frame.encode_ne_nil (List.length_eq_zero_iff.1 (Nat.le_zero.1 hle))
  | full _ _ _ hbytes =>
      rw [List.flatMap_nil, List.append_nil, List.flatMap_cons] at hbytes
      exact Frame.encode_ne_nil (List.append_eq_nil_iff.1 hbytes.symm).1

namespace ForwardInv

/-- **A channel that is blocked waits for a link with bytes, which its chunk takes next.** -/
theorem waits_next (h : ForwardInv bo n adj control tables s placed) (hu : 0 ≤ u ∧ u < n)
    (hc : PlaceIn n adj (ChunkPlace.currBuff u c))
    (hblocking : (s.net.node u).man.blocking c) :
    ∃ w x, Loaded adj s.net (u, w) ∧ x ∈ placed.held (ChunkPlace.currBuff u c) ∧
      [ChunkPlace.currBuff u c, ChunkPlace.link u w] <:+: chunkRoute tables x.1 := by
  have hnode := h.holds.node u hu
  have hwait := h.waitInv u hu
  obtain ⟨d, hd⟩ := hwait.waits.exists_queue c hblocking
  have hne : (s.net.node u).man.waitQueue d ≠ [] := List.ne_nil_of_mem hd
  have hchannel := hwait.channel d hne
  cases d with
  | none => exact absurd hnode.localChan.symm (hnode.channelsInv.ne_localChan hchannel)
  | some w =>
      obtain ⟨chan, hchan⟩ := Ioman.exists_of_live (Ioman.live_of_blocking hblocking)
      obtain ⟨x, hx, _⟩ := h.exists_held hc hchan (Or.inl ((Ioman.blocking_iff hchan).1 hblocking))
      have hmem : x ∈ placed.held (ChunkPlace.currBuff u c) := by
        rw [hx]
        exact List.mem_singleton_self x
      have hfull : channelMsgQueueLimit ≤ (s.net.node u).man.queueLen (some w) := hwait.full _ hne
      refine ⟨w, x, ⟨hnode.channels w hchannel, Or.inr fun hzero => ?_⟩, hmem,
        h.holds.waits u hu w c hd x hmem⟩
      dsimp only at hzero
      rw [hzero] at hfull
      exact absurd hfull (by decide)

/-- **The receiver of a link with bytes is blocked** when nobody can move. -/
theorem blocking_of_loaded (h : ForwardInv bo n adj False tables s placed) (hn : n ≤ commMaxPeer)
    (hpeers : Peers n adj) (htables : TablesComplete n adj tables)
    (hbounds : InBounds n cap s)
    (hcap : ∀ u v, 0 < cap u v) (hstuck : ¬ CanMove bo n cap s)
    (hloaded : Loaded adj s.net (u, v)) : (s.net.node v).man.blocking (some u) := by
  obtain ⟨hv, hbytes⟩ := hloaded
  dsimp only at hv hbytes
  obtain ⟨cu, cv, frames, hcu, hcv, _, hqueue, _⟩ := h.holds.place (ChunkPlace.link u v) hv
  -- bytes of the queue could be sent into an empty socket
  have hwire : s.net.wire u v ≠ [] := by
    intro hnil
    rw [Ioman.queueLen_eq hcu] at hbytes
    have hne := hbytes.resolve_left fun hne => hne hnil
    obtain ⟨buff, bs, hq⟩ := List.exists_cons_of_ne_nil (mt List.length_eq_zero_iff.2 hne)
    refine hstuck (h.canSend hpeers hbounds hv hcu hq
      (hqueue.unsent buff (by rw [hq]; exact List.mem_cons_self)) ?_)
    rw [hnil]
    exact hcap u v
  obtain ⟨chan, hchan, hstate, _⟩ :=
    h.holds.place (ChunkPlace.currBuff v (some u)) (hpeers.symm hv)
  rw [Ioman.blocking_iff hchan]
  refine hstate.resolve_left fun hactive => hstuck ?_
  exact h.canTake hn hpeers htables hbounds (hpeers.symm hv) hchan
    (decide_eq_true hactive) hwire

/-- **A link whose bytes nobody can move waits for the next link of a path.** -/
theorem loaded_next (h : ForwardInv bo n adj False tables s placed) (hn : n ≤ commMaxPeer)
    (hpeers : Peers n adj) (htables : TablesComplete n adj tables)
    (hbounds : InBounds n cap s)
    (hcap : ∀ u v, 0 < cap u v) (hstuck : ¬ CanMove bo n cap s)
    (hloaded : Loaded adj s.net (u, v)) :
    ∃ w, Loaded adj s.net (v, w) ∧
      ChannelDependency.Dep (tableRoutes n tables) (u, v) (v, w) := by
  have hv : adj u v := hloaded.1
  have hblocking :=
    h.blocking_of_loaded hn hpeers htables hbounds hcap hstuck hloaded
  obtain ⟨w, x, hnext, hx, hroute⟩ :=
    h.waits_next (c := some u) (hpeers.range (hpeers.symm hv)) (hpeers.symm hv) hblocking
  have hsrc := (h.pushed_of_held hx).src
  refine ⟨w, hnext, rfl, chunkPath tables x.1, ?_, chunkRoute_dep htables.simple hsrc hroute⟩
  obtain ⟨entry, hentry⟩ := htables.entry _ _ hsrc (hbounds.others _ (h.accepted_of_held hx)).1
    (hbounds.others _ (h.accepted_of_held hx)).2.symm
  refine ⟨_, _, entry, hsrc, hentry, ?_⟩
  unfold chunkPath tablePath
  rw [hentry]

/-- **No link has bytes** when nobody can move and the dependency graph is acyclic. -/
theorem not_loaded (h : ForwardInv bo n adj False tables s placed) (hn : n ≤ commMaxPeer)
    (hpeers : Peers n adj) (htables : TablesComplete n adj tables)
    (hacyclic : ChannelDependency.Acyclic (ChannelDependency.Dep (tableRoutes n tables)))
    (hbounds : InBounds n cap s)
    (hcap : ∀ u v, 0 < cap u v) (hstuck : ¬ CanMove bo n cap s) (a : ℤ × ℤ) :
    ¬ Loaded adj s.net a := by
  intro ha
  have hfinite : { a | Loaded adj s.net a }.Finite := by
    refine Set.Finite.subset ((Set.finite_Ico 0 (n : ℤ)).prod (Set.finite_Ico 0 (n : ℤ)))
      fun a ha => ?_
    exact ⟨hpeers.range ha.1, hpeers.range (hpeers.symm ha.1)⟩
  obtain ⟨⟨u, v⟩, huv, hsink⟩ := ChannelDependency.exists_sink hacyclic hfinite ⟨a, ha⟩
  obtain ⟨w, hnext, hdep⟩ := h.loaded_next hn hpeers htables hbounds hcap hstuck huv
  exact hsink (v, w) hnext hdep

/-- **Every chunk has been delivered** when nobody can move and no local queue waits for a token. -/
theorem delivered_of_no_token (h : ForwardInv bo n adj False tables s placed)
    (hn : n ≤ commMaxPeer) (hpeers : Peers n adj) (htables : TablesComplete n adj tables)
    (hacyclic : ChannelDependency.Acyclic (ChannelDependency.Dep (tableRoutes n tables)))
    (hbounds : InBounds n cap s) (hcap : ∀ u v, 0 < cap u v)
    (htoken : ∀ u : ℤ, 0 ≤ u ∧ u < n → ∀ chan, (s.net.node u).man.heap none = some chan →
      chan.buffQueue ≠ [] → 0 < chan.pipe)
    (hstuck : ¬ CanMove bo n cap s) {p : ChunkPlace} (hx : x ∈ placed.held p) :
    ∃ v, p = ChunkPlace.delivered v := by
  have hnone := h.not_loaded hn hpeers htables hacyclic hbounds hcap hstuck
  have hfree : ∀ (u : ℤ) c, 0 ≤ u ∧ u < n → PlaceIn n adj (ChunkPlace.currBuff u c) →
      ¬ (s.net.node u).man.blocking c := by
    intro u c hu hc hblocking
    obtain ⟨w, _, hloaded, _⟩ := h.waits_next hu hc hblocking
    exact hnone (u, w) hloaded
  have hp : PlaceIn n adj p := by
    by_contra hp
    rw [h.holds.outside p hp] at hx
    cases hx
  cases p with
  | delivered v => exact ⟨v, rfl⟩
  | localQueue u =>
      -- the local channel is not blocked, and could be read
      have hu : 0 ≤ u ∧ u < n := hp
      have hc : PlaceIn n adj (ChunkPlace.currBuff u none) := hp
      obtain ⟨y, rest, hheld⟩ := List.exists_cons_of_ne_nil (List.ne_nil_of_mem hx)
      obtain ⟨chan, hchan, hq⟩ := h.holds.place _ hp
      obtain ⟨chan₁, hchan₁, hstate, _⟩ := h.holds.place _ hc
      obtain rfl : chan₁ = chan := Option.some.inj (hchan₁.symm.trans hchan)
      have hactive := hstate.resolve_right fun hb =>
        hfree u none hu hc ((Ioman.blocking_iff hchan).2 hb)
      have hpipe : 0 < chan₁.pipe := by
        refine htoken u hu chan₁ hchan ?_
        rw [hq, hheld]
        exact List.cons_ne_nil _ _
      exact absurd
        (h.canPop hn hpeers htables hbounds hu hchan (decide_eq_true hactive) hpipe hheld) hstuck
  | currBuff u c =>
      -- a channel with a chunk is blocked
      have hu : 0 ≤ u ∧ u < n := by
        rcases placeIn_currBuff.1 hp with ⟨_, hu⟩ | ⟨v, _, hv⟩
        · exact hu
        · exact hpeers.range hv
      obtain ⟨chan, hchan, _, hfull⟩ := h.holds.place _ hp
      obtain ⟨hfull, _⟩ := hfull.resolve_right fun hnil => by
        rw [hnil.2] at hx
        cases hx
      have hblocking := hfull.resolve_right nofun
      exact absurd ((Ioman.blocking_iff hchan).2 hblocking) (hfree u c hu hp)
  | link u v =>
      -- a link with a chunk has bytes
      have hv : adj u v := hp
      obtain ⟨cu, cv, frames, hcu, hcv, hlink, _, hxs⟩ := h.holds.place _ hp
      have hne : frames ≠ [] := by
        rintro rfl
        rw [List.filter_nil, eq_comm, List.map_eq_nil_iff] at hxs
        rw [hxs] at hx
        cases hx
      refine absurd ⟨hv, (hlink.bytes hne).imp id fun hq => ?_⟩ (hnone (u, v))
      dsimp only
      rw [Ioman.queueLen_eq hcu]
      exact mt List.length_eq_zero_iff.1 hq

/-- **Every chunk has been delivered** when nobody can move and all pushes have returned. -/
theorem delivered_of_stuck (h : ForwardInv bo n adj False tables s placed) (hn : n ≤ commMaxPeer)
    (hpeers : Peers n adj) (htables : TablesComplete n adj tables)
    (hacyclic : ChannelDependency.Acyclic (ChannelDependency.Dep (tableRoutes n tables)))
    (hbounds : InBounds n cap s) (hcap : ∀ u v, 0 < cap u v) (hreturned : PushesReturned n s)
    (hstuck : ¬ CanMove bo n cap s) {p : ChunkPlace} (hx : x ∈ placed.held p) :
    ∃ v, p = ChunkPlace.delivered v := by
  refine h.delivered_of_no_token hn hpeers htables hacyclic hbounds hcap
    (fun u hu chan hchan hne => ?_) hstuck hx
  rw [hreturned u hu chan hchan]
  exact List.length_pos_iff.2 hne

/-- Where all chunks are delivered, each is one of those that its destination has handled. -/
theorem allDelivered (h : ForwardInv bo n adj control tables s placed)
    (hsimple : TablesSimple n tables)
    (hall : ∀ p, ∀ x ∈ placed.held p, ∃ v, p = ChunkPlace.delivered v) : AllDelivered n s := by
  intro src dst hdst
  rw [h.chunks_from hsimple src hdst, h.accepted_between src dst]
  refine congrArg _ ((h.arrived hsimple src dst).eq_of_length_le ?_)
  have hnodup : placed.entered.Nodup := by
    rw [h.entered]
    exact (List.nodup_zipIdx_map_snd _).of_map _
  refine ((hnodup.filter _).subperm fun x hx => ?_).length_le
  obtain ⟨hentered, hbetween⟩ := List.mem_filter.1 hx
  obtain ⟨p, hp⟩ := (h.places.entered x).1 hentered
  obtain ⟨v, rfl⟩ := hall p x hp
  obtain rfl : v = dst := (h.destination hsimple hp).symm.trans (of_decide_eq_true hbetween).2
  exact List.mem_filter.2 ⟨hp, hbetween⟩

end ForwardInv

/-- **No stuck state**: in every reachable state some I/O thread can go on, or all accepted chunks
are delivered. -/
theorem forwarding_not_stuck (hn : n ≤ commMaxPeer) (hpeers : Peers n adj)
    (htables : TablesComplete n adj tables)
    (hacyclic : ChannelDependency.Acyclic (ChannelDependency.Dep (tableRoutes n tables)))
    (hcap : ∀ u v, 0 < cap u v)
    (h : Reach (fun s => ForwardStart bo n adj False tables s ∧ InBounds n cap s)
      (Guarded (ForwardStep bo n) fun _ t => InBounds n cap t) s)
    (hreturned : PushesReturned n s) : CanMove bo n cap s ∨ AllDelivered n s := by
  have hbounds : InBounds n cap s := Reach.inv (fun _ hs => hs.2) (fun _ _ _ hst => hst.2) h
  obtain ⟨placed, hinv⟩ := forwardReach_inv hn hpeers htables.simple
    (h.mono (fun _ hs => hs.1) fun _ _ hst => hst.1)
  by_cases hmove : CanMove bo n cap s
  · exact Or.inl hmove
  · exact Or.inr (hinv.allDelivered htables.simple fun _ _ hx => hinv.delivered_of_stuck hn hpeers
      htables hacyclic hbounds hcap hreturned hmove hx)

end CanMove

/-! ### Two nodes -/

theorem pairTables_complete : TablesComplete 2 pairAdj pairTables where
  simple := pairTables_simple
  entry src dst hsrc hdst hne := by
    obtain rfl | rfl : src = 0 ∨ src = 1 := by omega
    · obtain rfl : dst = 1 := by omega
      exact ⟨_, rfl⟩
    · obtain rfl : dst = 0 := by omega
      exact ⟨_, rfl⟩
  peers src hsrc dst entry hentry u v huv := by
    rw [(pairTables_path hsrc hentry).2] at huv
    have heq := huv.eq_of_length rfl
    rw [List.cons.injEq, List.cons.injEq] at heq
    unfold pairAdj
    omega

/-- No link depends on another one. -/
theorem pairTables_acyclic :
    ChannelDependency.Acyclic (ChannelDependency.Dep (tableRoutes 2 pairTables)) := by
  refine ChannelDependency.acyclic_of_false fun a b hdep => ?_
  obtain ⟨_, path, ⟨src, dst, entry, hsrc, hentry, rfl⟩, hinfix⟩ := hdep
  rw [(pairTables_path hsrc hentry).2] at hinfix
  have hlen := hinfix.length_le
  rw [List.length_cons, List.length_cons, List.length_cons, List.length_cons, List.length_cons]
    at hlen
  omega

/-- A chunk has left the local channel, and no socket has room for more than a byte. -/
theorem forwarding_not_stuck_pair : ∃ s : Forwarding, s.accepted.length = 1 ∧
    (s.net.node 1).chunks = [] ∧ PushesReturned 2 s ∧
    (CanMove ByteOrder.little 2 (fun _ _ => 1) s ∨ AllDelivered 2 s) := by
  have hbounds : ∀ s : Forwarding, s.net.wire = pairForwarding.net.wire →
      (∀ f ∈ s.accepted, f = iomanSendChunk 0 1 7 1 0 [42]) → InBounds 2 (fun _ _ => 1) s := by
    intro s hwire haccepted
    refine ⟨fun u v => ?_, fun f hf => ?_⟩
    · rw [hwire]
      exact Nat.zero_le 1
    · rw [haccepted f hf]
      exact ⟨⟨by decide, by decide⟩, by decide⟩
  have hstart : Reach (fun s => ForwardStart ByteOrder.little 2 pairAdj False pairTables s ∧
      InBounds 2 (fun _ _ => 1) s) (Guarded (ForwardStep ByteOrder.little 2) fun _ t =>
        InBounds 2 (fun _ _ => 1) t) pairForwarding :=
    Reach.init ⟨pairForwarding_start False, hbounds _ rfl nofun⟩
  have hpushed := hstart.step ⟨ForwardStep.push (u := 0) (by decide) pairChunk_ok rfl rfl,
    hbounds _ rfl fun f hf => List.mem_singleton.1 hf⟩
  have htoken := hpushed.step ⟨ForwardStep.token (u := 0) (by decide) rfl (by decide),
    hbounds _ rfl fun f hf => List.mem_singleton.1 hf⟩
  have hread := htoken.step ⟨ForwardStep.io
    (ForwardIoStep.localRead (u := 0) (by decide) rfl rfl (by decide) rfl),
    hbounds _ rfl fun f hf => List.mem_singleton.1 hf⟩
  refine ⟨_, rfl, rfl, ?returned, forwarding_not_stuck (by decide)
    ⟨pairAdj_peers.range, pairAdj_peers.symm, pairAdj_peers.irrefl⟩ pairTables_complete
    pairTables_acyclic (fun _ _ => Nat.one_pos) hread ?returned⟩
  intro u hu chan hchan
  obtain rfl | rfl : u = 0 ∨ u = 1 := by omega
  · cases hchan
    rfl
  · cases hchan
    rfl

end DLFree
