/-
**Forwarding chunks, in a network of nodes.**

User threads push chunks to the local channel of their node.  The I/O threads pass them on from node
to node until they are delivered: each chunk waits in queues, is sent and received in pieces, and
blocks the channel that it came in from while the queue of the next hop is full.

At any moment every chunk is in one place.  This module says what it means for a place to hold
chunks in a state of the network, and shows what the moves of `channel_pipeline_chunk`, the reads
and the writes do to the places.

Main definitions:

* `Forwarding`, `ForwardStep`, `ForwardStart` — a network that forwards chunks;
* `PlaceHolds` — the chunks that a place holds;
* `NetHolds` — a network that holds these chunks in its places.

Main results:

* `NetHolds.change` — a step of one node concerns the places of this node;
* `NetHolds.pass`, `NetHolds.join`, `NetHolds.reader`, `NetHolds.arrive`, `NetHolds.deliver`,
  `NetHolds.send` — **what each move does to the places**.
-/

import DLFree.ChunkPlaces
import DLFree.RtExchange
import DLFree.Segments

set_option relaxedAutoImplicit false
set_option autoImplicit false

namespace DLFree

open FifoPlaces TransitionRun

/-! ### Networks that forward chunks -/

namespace Frame

/-- The frame is a chunk. -/
def IsChunk (f : Frame) : Prop := f.info.kind = MsgKind.data.toInt

instance (f : Frame) : Decidable f.IsChunk := inferInstanceAs (Decidable (_ = _))

/-- The buffer of a chunk from its source on. -/
def packed (bo : ByteOrder) (f : Frame) : MsgBuff := channelPackBuff bo f.info f.body

/-- The chunk as it is handed to the reassembly of its message. -/
def handed (f : Frame) : MsgInfo × List Byte := (f.seen f.body.length, f.body)

/-- The chunk goes from `src` to `dst`. -/
def Between (src dst : ℤ) (f : Frame) : Prop := f.info.srcId = src ∧ f.info.dstId = dst

instance (src dst : ℤ) (f : Frame) : Decidable (f.Between src dst) :=
  inferInstanceAs (Decidable (_ ∧ _))

end Frame

/-- A network, and the chunks that `channel_local_push_chunk` has accepted, in this order. -/
structure Forwarding where
  net : Net
  accepted : List Frame

/-- The node `u` of the network changes. -/
def Forwarding.setMan (s : Forwarding) (u : ℤ) (man : Ioman (Option ℤ)) : Forwarding :=
  { s with net := s.net.setNode u ((s.net.node u).setMan man) }

/-- A step of an I/O thread in a network of the nodes `0, …, n - 1`. -/
inductive ForwardIoStep (bo : ByteOrder) (n : ℕ) (s : Forwarding) : Forwarding → Prop
  /-- the I/O thread of `u` reads the local channel -/
  | localRead {u : ℤ} {chan : Channel (Option ℤ)} {node' : CommNode (Option ℤ)}
      (hu : 0 ≤ u ∧ u < n)
      (hchan : (s.net.node u).man.heap (s.net.node u).man.localChan = some chan)
      (hready : channelIsReadable chan) (hpipe : 0 < chan.pipe)
      (hread : iomanProcessLocalChannelRead bo (s.net.node u) = Except.ok node') :
      ForwardIoStep bo n s { s with net := s.net.setNode u node' }
  /-- the I/O thread of `u` reads a channel -/
  | read {u v : ℤ} {now : ℚ} {net' : Net} (hu : 0 ≤ u ∧ u < n)
      (hread : NetRead bo now u v s.net net') : ForwardIoStep bo n s { s with net := net' }
  /-- the I/O thread of `u` writes a channel -/
  | write {u v : ℤ} {sent : List Byte} {net' : Net} (hu : 0 ≤ u ∧ u < n)
      (hwrite : NetWrite bo u v s.net sent net') : ForwardIoStep bo n s { s with net := net' }

/-- A step of a network of the nodes `0, …, n - 1`. -/
inductive ForwardStep (bo : ByteOrder) (n : ℕ) (s : Forwarding) : Forwarding → Prop
  /-- a user thread of `u` pushes a chunk, as `ioman_send_chunk` makes it, to the local queue -/
  | push {u dstId : ℤ} {sid : BitVec 64} {totLen seq : ℤ} {buff : List Byte}
      {chan chan' : Channel (Option ℤ)} (hu : 0 ≤ u ∧ u < n)
      (hok : (iomanSendChunk u dstId sid totLen seq buff).Ok)
      (hchan : (s.net.node u).man.heap (s.net.node u).man.localChan = some chan)
      (hpush : channelLocalPushChunk chan ((iomanSendChunk u dstId sid totLen seq buff).packed bo) =
        some chan') :
      ForwardStep bo n s
        { s.setMan u ((s.net.node u).man.put (s.net.node u).man.localChan chan') with
          accepted := s.accepted ++ [iomanSendChunk u dstId sid totLen seq buff] }
  /-- a user thread of `u` writes the token of a chunk that is in the local queue -/
  | token {u : ℤ} {chan : Channel (Option ℤ)} (hu : 0 ≤ u ∧ u < n)
      (hchan : (s.net.node u).man.heap (s.net.node u).man.localChan = some chan)
      (hpipe : chan.pipe < chan.buffQueue.length) :
      ForwardStep bo n s (s.setMan u
        ((s.net.node u).man.put (s.net.node u).man.localChan (channelLocalPushToken chan)))
  /-- a user thread of `u` notifies the I/O thread -/
  | notify {u : ℤ} (hu : 0 ≤ u ∧ u < n) :
      ForwardStep bo n s (s.setMan u (iomanNotifyNewmsg (s.net.node u).man))
  /-- the I/O thread of `u` takes an event from the notify pipe -/
  | event {u : ℤ} {man' : Ioman (Option ℤ)} (hu : 0 ≤ u ∧ u < n)
      (hevent : iomanHandleEvent bo (s.net.node u).man = Except.ok man') :
      ForwardStep bo n s (s.setMan u man')
  /-- an I/O thread reads or writes -/
  | io {s' : Forwarding} (hio : ForwardIoStep bo n s s') : ForwardStep bo n s s'

/-- The peers of the nodes `0, …, n - 1`. -/
structure Peers (n : ℕ) (adj : ℤ → ℤ → Prop) : Prop where
  range : ∀ {u v}, adj u v → 0 ≤ u ∧ u < n
  symm : ∀ {u v}, adj u v → adj v u
  irrefl : ∀ u, ¬ adj u u

/-- An event that may wait in the notify pipe: a message has been queued, or a table is to be
broadcast. -/
def IomanEvent.Plain (control : Prop) (e : IomanEvent (Option ℤ)) : Prop :=
  e = IomanEvent.newmsg ∨
    (control ∧ ∃ buff, e = IomanEvent.bcastmsg MsgKind.rt buff ∧ FitsInt buff.length)

/-- The queue of a link and the frames that the link carries: there are bytes left of each buffer,
and all frames are chunks if there are no `control` messages. -/
structure QueueOk (control : Prop) (queue : List MsgBuff) (frames : List Frame) : Prop where
  unsent : ∀ buff ∈ queue, buff.unsent ≠ []
  chunks : ∀ f ∈ frames, f.IsChunk ∨ control

/-- A node that has registered its peers and has the tables of all nodes; it may broadcast tables to
others if there are `control` messages. -/
structure Forwards (n : ℕ) (adj : ℤ → ℤ → Prop) [∀ u v, Decidable (adj u v)] (control : Prop)
    (tables : ℤ → OverlayRtable) (node : CommNode (Option ℤ)) (u : ℤ) : Prop where
  nodeId : node.nodeId = u
  maxpeers : node.man.maxpeers = commMaxPeer
  localChan : node.man.localChan = none
  channelMap : ∀ v, node.man.channelMap v = if adj u v then some (some v) else none
  channels : ∀ v, some v ∈ node.man.channels → adj u v
  channelsInv : ChannelsInv node.man
  events : ∀ e ∈ node.man.events, e.Plain control
  rts : ∀ src : ℤ, 0 ≤ src ∧ src < n → node.rts src = some (tables src)

/-- No chunk has been pushed yet; `control` messages may be under way. -/
structure ForwardStart (bo : ByteOrder) (n : ℕ) (adj : ℤ → ℤ → Prop)
    [∀ u v, Decidable (adj u v)] (control : Prop) (tables : ℤ → OverlayRtable)
    (s : Forwarding) : Prop where
  node : ∀ u : ℤ, 0 ≤ u ∧ u < n → Forwards n adj control tables (s.net.node u) u
  idle : ∀ u : ℤ, 0 ≤ u ∧ u < n → ∀ c chan, (s.net.node u).man.heap c = some chan →
    chan.state = ChannelStatus.active ∧ chan.waitQueue = []
  source : ∀ u : ℤ, 0 ≤ u ∧ u < n → ∃ chan, (s.net.node u).man.heap none = some chan ∧
    chan.buffQueue = [] ∧ chan.pipe = 0
  link : ∀ u v, adj u v → ∃ cu cv frames, (s.net.node u).man.heap (some v) = some cu ∧
    (s.net.node v).man.heap (some u) = some cv ∧
    LinkOk bo v cu.buffQueue (s.net.wire u v) cv frames ∧ QueueOk control cu.buffQueue frames ∧
    ∀ f ∈ frames, ¬ f.IsChunk
  chunks : ∀ u : ℤ, 0 ≤ u ∧ u < n → (s.net.node u).chunks = []
  accepted : s.accepted = []

/-! ### What a place holds -/

/-- The place is one of the network. -/
def PlaceIn (n : ℕ) (adj : ℤ → ℤ → Prop) : ChunkPlace → Prop
  | ChunkPlace.localQueue u => 0 ≤ u ∧ u < n
  | ChunkPlace.currBuff u none => 0 ≤ u ∧ u < n
  | ChunkPlace.currBuff u (some v) => adj u v
  | ChunkPlace.link u v => adj u v
  | ChunkPlace.delivered u => 0 ≤ u ∧ u < n

/-- The channel `c` of `u` has a whole chunk in its buffer: it waits to pass it on, or it is the one
that is `busy`, whose chunk is being passed on. -/
def Full (busy : Option (ℤ × Option ℤ)) (u : ℤ) (c : Option ℤ) (chan : Channel (Option ℤ)) : Prop :=
  chan.state = ChannelStatus.blocking ∨ busy = some (u, c)

/-- What a link carries: behind a receiver that has a whole chunk in its buffer, these frames are
complete. -/
inductive LinkCarries (bo : ByteOrder) (nodeId : ℤ) (queue : List MsgBuff) (wire : List Byte)
    (chan : Channel (Option ℤ)) (full : Prop) (frames : List Frame) : Prop
  | reading (hnot : ¬ full) (hlink : LinkOk bo nodeId queue wire chan frames)
  | full (hfull : full) (hok : ∀ f ∈ frames, f.Ok) (hoff : chan.headerOff = 0)
      (hbytes : wire ++ queue.flatMap MsgBuff.unsent = frames.flatMap (Frame.encode bo))

/-- The place holds these chunks, the first one first; each has its number among the accepted
ones. -/
def PlaceHolds (bo : ByteOrder) (control : Prop) (net : Net) (busy : Option (ℤ × Option ℤ)) :
    ChunkPlace → List (Frame × ℕ) → Prop
  | ChunkPlace.localQueue u, xs => ∃ chan, (net.node u).man.heap none = some chan ∧
      chan.buffQueue = xs.map fun x => x.1.packed bo
  | ChunkPlace.currBuff u c, xs => ∃ chan, (net.node u).man.heap c = some chan ∧
      (chan.state = ChannelStatus.active ∨ chan.state = ChannelStatus.blocking) ∧
      ((Full busy u c chan ∧ ∃ x, xs = [x] ∧ chan.currBuff = some (x.1.packed bo)) ∨
        (¬ Full busy u c chan ∧ xs = []))
  | ChunkPlace.link u v, xs => ∃ cu cv frames, (net.node u).man.heap (some v) = some cu ∧
      (net.node v).man.heap (some u) = some cv ∧
      LinkCarries bo v cu.buffQueue (net.wire u v) cv (Full busy v (some u) cv) frames ∧
      QueueOk control cu.buffQueue frames ∧
      frames.filter (fun f => f.IsChunk) = xs.map Prod.fst
  | ChunkPlace.delivered u, xs => (net.node u).chunks = xs.map fun x => x.1.handed

/-- The network holds these chunks in its places; whoever waits for the channel to `v` has a chunk
whose next place is the link to `v`. -/
structure NetHolds (bo : ByteOrder) (n : ℕ) (adj : ℤ → ℤ → Prop) [∀ u v, Decidable (adj u v)]
    (control : Prop) (tables : ℤ → OverlayRtable) (net : Net) (busy : Option (ℤ × Option ℤ))
    (held : ChunkPlace → List (Frame × ℕ)) : Prop where
  node : ∀ u : ℤ, 0 ≤ u ∧ u < n → Forwards n adj control tables (net.node u) u
  place : ∀ p, PlaceIn n adj p → PlaceHolds bo control net busy p (held p)
  outside : ∀ p, ¬ PlaceIn n adj p → held p = []
  waits : ∀ u : ℤ, 0 ≤ u ∧ u < n → ∀ v, ∀ w ∈ (net.node u).man.waitQueue (some v),
    ∀ x ∈ held (ChunkPlace.currBuff u w),
      [ChunkPlace.currBuff u w, ChunkPlace.link u v] <:+: chunkRoute tables x.1

/-! ### Queues and readers that stay as they are -/

section Same

variable {κ : Type} [DecidableEq κ] {man man' man'' : Ioman κ} {c d : κ} {chan chan' : Channel κ}

/-- The send queue of the channel `c` stays as it is. -/
def SameQueue (man man' : Ioman κ) (c : κ) : Prop :=
  ∀ chan, man.heap c = some chan →
    ∃ chan', man'.heap c = some chan' ∧ chan'.buffQueue = chan.buffQueue

/-- What the reader of the channel `c` looks at stays as it is. -/
def SameRead (man man' : Ioman κ) (c : κ) : Prop :=
  ∀ chan, man.heap c = some chan → ∃ chan', man'.heap c = some chan' ∧ SameReader chan chan'

section

omit [DecidableEq κ]

theorem SameQueue.of_heap (h : man'.heap c = man.heap c) : SameQueue man man' c :=
  fun chan hchan => ⟨chan, h.trans hchan, rfl⟩

theorem SameRead.of_heap (h : man'.heap c = man.heap c) : SameRead man man' c :=
  fun chan hchan => ⟨chan, h.trans hchan, SameReader.refl chan⟩

theorem SameQueue.trans (h : SameQueue man man' c) (h' : SameQueue man' man'' c) :
    SameQueue man man'' c := by
  intro chan hchan
  obtain ⟨chan', hchan', hq⟩ := h chan hchan
  obtain ⟨chan'', hchan'', hq'⟩ := h' chan' hchan'
  exact ⟨chan'', hchan'', hq'.trans hq⟩

theorem SameRead.trans (h : SameRead man man' c) (h' : SameRead man' man'' c) :
    SameRead man man'' c := by
  intro chan hchan
  obtain ⟨chan', hchan', hr⟩ := h chan hchan
  obtain ⟨chan'', hchan'', hr'⟩ := h' chan' hchan'
  exact ⟨chan'', hchan'', hr'.state.trans hr.state, hr'.currBuff.trans hr.currBuff,
    hr'.headerOff.trans hr.headerOff, hr'.headerBuff.trans hr.headerBuff,
    hr'.msgInfo.trans hr.msgInfo⟩

end

theorem SameQueue.modify (f : Channel κ → Channel κ)
    (hf : ∀ chan, (f chan).buffQueue = chan.buffQueue) : SameQueue man (man.modify c f) d := by
  intro chan hchan
  by_cases hd : d = c
  · subst hd
    exact ⟨_, Ioman.heap_modify_eq hchan, hf chan⟩
  · exact ⟨chan, (Ioman.heap_modify_of_ne hd).trans hchan, rfl⟩

theorem SameRead.modify (f : Channel κ → Channel κ) (hf : ∀ chan, SameReader chan (f chan)) :
    SameRead man (man.modify c f) d := by
  intro chan hchan
  by_cases hd : d = c
  · subst hd
    exact ⟨_, Ioman.heap_modify_eq hchan, hf chan⟩
  · exact ⟨chan, (Ioman.heap_modify_of_ne hd).trans hchan, SameReader.refl chan⟩

theorem SameQueue.put (h : man.heap c = some chan) (hq : chan'.buffQueue = chan.buffQueue) :
    SameQueue man (man.put c chan') d := by
  intro chan₀ hchan
  by_cases hd : d = c
  · subst hd
    obtain rfl := Option.some.inj (h.symm.trans hchan)
    exact ⟨_, Ioman.heap_put_self, hq⟩
  · exact ⟨chan₀, (Ioman.heap_put_of_ne hd).trans hchan, rfl⟩

theorem SameRead.put (h : man.heap c = some chan) (hr : SameReader chan chan') :
    SameRead man (man.put c chan') d := by
  intro chan₀ hchan
  by_cases hd : d = c
  · subst hd
    obtain rfl := Option.some.inj (h.symm.trans hchan)
    exact ⟨_, Ioman.heap_put_self, hr⟩
  · exact ⟨chan₀, (Ioman.heap_put_of_ne hd).trans hchan, SameReader.refl chan₀⟩

variable {next : κ} {buff : MsgBuff}

/-- Moving a chunk changes the queue that it moves to. -/
theorem SameQueue.moveChunk (hd : d ≠ next) : SameQueue man (man.moveChunk c next buff) d :=
  ((SameQueue.modify (Channel.setState _) fun _ => rfl).trans
    (SameQueue.of_heap (Ioman.heap_modify_of_ne hd))).trans
      (SameQueue.modify (Channel.setCurrBuff none) fun _ => rfl)

/-- Moving a chunk changes the reader that it comes from. -/
theorem SameRead.moveChunk (hd : d ≠ c) : SameRead man (man.moveChunk c next buff) d :=
  ((SameRead.of_heap (Ioman.heap_modify_of_ne hd)).trans
    (SameRead.modify (Channel.appendBuff buff) fun _ => ⟨rfl, rfl, rfl, rfl, rfl⟩)).trans
      (SameRead.of_heap (Ioman.heap_modify_of_ne hd))

theorem SameQueue.joinWaitQueue : SameQueue man (man.joinWaitQueue c next) d :=
  (SameQueue.modify (Channel.setState _) fun _ => rfl).trans
    (SameQueue.modify (Channel.appendWaiter c) fun _ => rfl)

theorem SameRead.joinWaitQueue (hd : d ≠ c) : SameRead man (man.joinWaitQueue c next) d :=
  (SameRead.of_heap (Ioman.heap_modify_of_ne hd)).trans
    (SameRead.modify (Channel.appendWaiter c) fun _ => ⟨rfl, rfl, rfl, rfl, rfl⟩)

end Same

/-! ### A step of one node -/

/-- The place behind the send queue of the channel `c` of `u`. -/
def outPlace (u : ℤ) : Option ℤ → ChunkPlace
  | none => ChunkPlace.localQueue u
  | some v => ChunkPlace.link u v

/-- Only the node `u`, with its sockets, has changed. -/
structure OnlyNode (u : ℤ) (net net' : Net) (busy busy' : Option (ℤ × Option ℤ)) : Prop where
  node : ∀ x, x ≠ u → net'.node x = net.node x
  wire : ∀ x y, x ≠ u → y ≠ u → net'.wire x y = net.wire x y
  busy : ∀ x c, x ≠ u → (busy' = some (x, c) ↔ busy = some (x, c))

/-- What leaves `u` by the channel `c` is as before. -/
structure SameOut (u : ℤ) (net net' : Net) (held held' : ChunkPlace → List (Frame × ℕ))
    (c : Option ℤ) : Prop where
  queue : SameQueue (net.node u).man (net'.node u).man c
  wire : ∀ v, c = some v → net'.wire u v = net.wire u v
  held : held' (outPlace u c) = held (outPlace u c)

/-- What comes to `u` by the channel `c` is as before. -/
structure SameIn (u : ℤ) (net net' : Net) (busy busy' : Option (ℤ × Option ℤ))
    (held held' : ChunkPlace → List (Frame × ℕ)) (c : Option ℤ) : Prop where
  read : SameRead (net.node u).man (net'.node u).man c
  busy : busy' = some (u, c) ↔ busy = some (u, c)
  curr : held' (ChunkPlace.currBuff u c) = held (ChunkPlace.currBuff u c)
  link : ∀ v, c = some v → net'.wire v u = net.wire v u ∧
    held' (ChunkPlace.link v u) = held (ChunkPlace.link v u)

section Change

variable {bo : ByteOrder} {n : ℕ} {adj : ℤ → ℤ → Prop} [∀ u v, Decidable (adj u v)]
  {control : Prop} {tables : ℤ → OverlayRtable} {net net' : Net}
  {busy busy' : Option (ℤ × Option ℤ)}
  {held held' : ChunkPlace → List (Frame × ℕ)} {u v : ℤ} {c d : Option ℤ} {p : ChunkPlace}
  {chan chan' cu cv : Channel (Option ℤ)} {queue : List MsgBuff} {wire : List Byte}
  {frames : List Frame} {full full' : Prop} {nodeId : ℤ} {xs : List (Frame × ℕ)}

omit [∀ u v, Decidable (adj u v)] in
theorem placeIn_currBuff : PlaceIn n adj (ChunkPlace.currBuff u c) ↔
    (c = none ∧ 0 ≤ u ∧ u < n) ∨ ∃ v, c = some v ∧ adj u v := by
  cases c <;> simp [PlaceIn]

theorem LinkCarries.congr (h : LinkCarries bo nodeId queue wire chan full frames)
    (hsame : SameReader chan chan') (hfull : full' ↔ full) :
    LinkCarries bo nodeId queue wire chan' full' frames := by
  cases h with
  | reading hnot hlink => exact LinkCarries.reading (mt hfull.1 hnot) (hsame.link hlink)
  | full hf hok hoff hbytes =>
      exact LinkCarries.full (hfull.2 hf) hok (hsame.headerOff.trans hoff) hbytes

theorem full_congr (hsame : SameReader chan chan')
    (hbusy : busy' = some (u, c) ↔ busy = some (u, c)) :
    Full busy' u c chan' ↔ Full busy u c chan := by
  unfold Full
  rw [hsame.state, hbusy]

namespace OnlyNode

/-- The places of the other nodes hold what they held. -/
theorem other (h : OnlyNode u net net' busy busy') {x : ℤ} (hx : x ≠ u) {xs : List (Frame × ℕ)}
    (hp : p = ChunkPlace.localQueue x ∨ p = ChunkPlace.delivered x ∨
      (∃ c, p = ChunkPlace.currBuff x c) ∨ ∃ y, p = ChunkPlace.link x y ∧ y ≠ u)
    (hold : PlaceHolds bo control net busy p xs) : PlaceHolds bo control net' busy' p xs := by
  have hnode := h.node x hx
  rcases hp with rfl | rfl | ⟨c, rfl⟩ | ⟨y, rfl, hy⟩
  · obtain ⟨chan, hchan, hq⟩ := hold
    exact ⟨chan, by rw [hnode]; exact hchan, hq⟩
  · show (net'.node x).chunks = _
    rw [hnode]
    exact hold
  · obtain ⟨chan, hchan, hstate, hfull⟩ := hold
    have hsame := full_congr (SameReader.refl chan) (h.busy x c hx)
    refine ⟨chan, by rw [hnode]; exact hchan, hstate, ?_⟩
    rw [hsame]
    exact hfull
  · obtain ⟨cu, cv, frames, hcu, hcv, hlink, hqueue, hxs⟩ := hold
    have hsame := full_congr (SameReader.refl cv) (h.busy y (some x) hy)
    refine ⟨cu, cv, frames, by rw [hnode]; exact hcu, by rw [h.node y hy]; exact hcv, ?_, hqueue,
      hxs⟩
    rw [h.wire x y hx hy]
    exact hlink.congr (SameReader.refl cv) hsame

/-- A queue that stays as it is. -/
theorem out (h : OnlyNode u net net' busy busy') (hne : ∀ v, c = some v → v ≠ u)
    (hsame : SameOut u net net' held held' c)
    (hold : PlaceHolds bo control net busy (outPlace u c) (held (outPlace u c))) :
    PlaceHolds bo control net' busy' (outPlace u c) (held' (outPlace u c)) := by
  rw [hsame.held]
  cases c with
  | none =>
      obtain ⟨chan, hchan, hq⟩ := hold
      obtain ⟨chan', hchan', hq'⟩ := hsame.queue chan hchan
      exact ⟨chan', hchan', hq'.trans hq⟩
  | some v =>
      have hv := hne v rfl
      obtain ⟨cu, cv, frames, hcu, hcv, hlink, hqueue, hxs⟩ := hold
      obtain ⟨cu', hcu', hq⟩ := hsame.queue cu hcu
      refine ⟨cu', cv, frames, hcu', by rw [h.node v hv]; exact hcv, ?_, by rw [hq]; exact hqueue,
        hxs⟩
      rw [hq, hsame.wire v rfl]
      exact hlink.congr (SameReader.refl cv) (full_congr (SameReader.refl cv) (h.busy v _ hv))

/-- A reader that stays as it is. -/
theorem curr (hsame : SameIn u net net' busy busy' held held' c)
    (hold : PlaceHolds bo control net busy (ChunkPlace.currBuff u c)
      (held (ChunkPlace.currBuff u c))) :
    PlaceHolds bo control net' busy' (ChunkPlace.currBuff u c)
      (held' (ChunkPlace.currBuff u c)) := by
  obtain ⟨chan, hchan, hstate, hfull⟩ := hold
  obtain ⟨chan', hchan', hread⟩ := hsame.read chan hchan
  refine ⟨chan', hchan', by rw [hread.state]; exact hstate, ?_⟩
  rw [hsame.curr, full_congr hread hsame.busy, hread.currBuff]
  exact hfull

/-- The link to a reader that stays as it is. -/
theorem link (h : OnlyNode u net net' busy busy') (hv : v ≠ u)
    (hsame : SameIn u net net' busy busy' held held' (some v))
    (hold : PlaceHolds bo control net busy (ChunkPlace.link v u) (held (ChunkPlace.link v u))) :
    PlaceHolds bo control net' busy' (ChunkPlace.link v u) (held' (ChunkPlace.link v u)) := by
  obtain ⟨hwire, hheld⟩ := hsame.link v rfl
  obtain ⟨cu, cv, frames, hcu, hcv, hlink, hqueue, hxs⟩ := hold
  obtain ⟨cv', hcv', hread⟩ := hsame.read cv hcv
  refine ⟨cu, cv', frames, by rw [h.node v hv]; exact hcu, hcv', ?_, hqueue,
    by rw [hheld]; exact hxs⟩
  rw [hwire]
  exact hlink.congr hread (full_congr hread hsame.busy)

end OnlyNode

/-- **A step of `u` concerns the places of `u`.** -/
theorem NetHolds.change (h : NetHolds bo n adj control tables net busy held) (hpeers : Peers n adj)
    (honly : OnlyNode u net net' busy busy')
    (hheld : ∀ p, (∀ c, p ≠ outPlace u c) → (∀ c, p ≠ ChunkPlace.currBuff u c) →
      (∀ v, p ≠ ChunkPlace.link v u) → p ≠ ChunkPlace.delivered u → held' p = held p)
    (houtside : ∀ p, ¬ PlaceIn n adj p → held' p = held p)
    (hforwards : Forwards n adj control tables (net'.node u) u)
    (hout : ∀ c, PlaceIn n adj (outPlace u c) → SameOut u net net' held held' c ∨
      PlaceHolds bo control net' busy' (outPlace u c) (held' (outPlace u c)))
    (hin : ∀ c, PlaceIn n adj (ChunkPlace.currBuff u c) →
      SameIn u net net' busy busy' held held' c ∨
        (PlaceHolds bo control net' busy' (ChunkPlace.currBuff u c)
            (held' (ChunkPlace.currBuff u c)) ∧
          ∀ v, c = some v →
            PlaceHolds bo control net' busy' (ChunkPlace.link v u) (held' (ChunkPlace.link v u))))
    (hdelivered : PlaceHolds bo control net' busy' (ChunkPlace.delivered u)
      (held' (ChunkPlace.delivered u)))
    (hwaits : ∀ v, ∀ w ∈ (net'.node u).man.waitQueue (some v),
      ∀ x ∈ held' (ChunkPlace.currBuff u w),
        [ChunkPlace.currBuff u w, ChunkPlace.link u v] <:+: chunkRoute tables x.1) :
    NetHolds bo n adj control tables net' busy' held' := by
  have hne : ∀ {x y}, adj x y → x ≠ y :=
    fun hxy he => hpeers.irrefl _ (by rw [he] at hxy; exact hxy)
  have hnew : ∀ c, PlaceIn n adj (outPlace u c) →
      PlaceHolds bo control net' busy' (outPlace u c) (held' (outPlace u c)) := by
    intro c hc
    rcases hout c hc with hsame | hnew
    · refine honly.out (fun v hv => ?_) hsame (h.place _ hc)
      subst hv
      exact (hne hc).symm
    · exact hnew
  have hread : ∀ c, PlaceIn n adj (ChunkPlace.currBuff u c) →
      PlaceHolds bo control net' busy' (ChunkPlace.currBuff u c)
        (held' (ChunkPlace.currBuff u c)) := by
    intro c hc
    rcases hin c hc with hsame | hnew
    · exact OnlyNode.curr hsame (h.place _ hc)
    · exact hnew.1
  have hlink : ∀ v, adj v u →
      PlaceHolds bo control net' busy' (ChunkPlace.link v u) (held' (ChunkPlace.link v u)) := by
    intro v hv
    rcases hin (some v) (hpeers.symm hv) with hsame | hnew
    · exact honly.link (hne hv) hsame (h.place _ hv)
    · exact hnew.2 v rfl
  -- the places of other nodes
  have hother : ∀ p, (∀ c, p ≠ outPlace u c) → (∀ c, p ≠ ChunkPlace.currBuff u c) →
      (∀ v, p ≠ ChunkPlace.link v u) → p ≠ ChunkPlace.delivered u → PlaceIn n adj p →
      PlaceHolds bo control net' busy' p (held' p) := by
    intro p hp₁ hp₂ hp₃ hp₄ hp
    rw [hheld p hp₁ hp₂ hp₃ hp₄]
    have hold := h.place p hp
    cases p with
    | localQueue x =>
        exact honly.other (fun he => hp₁ none (by rw [he]; rfl)) (Or.inl rfl) hold
    | currBuff x c =>
        exact honly.other (fun he => hp₂ c (by rw [he])) (Or.inr (Or.inr (Or.inl ⟨c, rfl⟩))) hold
    | link x y =>
        exact honly.other (fun he => hp₁ (some y) (by rw [he]; rfl))
          (Or.inr (Or.inr (Or.inr ⟨y, rfl, fun he => hp₃ x (by rw [he])⟩))) hold
    | delivered x =>
        exact honly.other (fun he => hp₄ (by rw [he])) (Or.inr (Or.inl rfl)) hold
  refine ⟨fun x hx => ?_, fun p hp => ?_, fun p hp => (houtside p hp).trans (h.outside p hp), ?_⟩
  · by_cases hxu : x = u
    · rw [hxu]
      exact hforwards
    · rw [honly.node x hxu]
      exact h.node x hx
  · by_cases hp₁ : ∃ c, p = outPlace u c
    · obtain ⟨c, rfl⟩ := hp₁
      exact hnew c hp
    by_cases hp₂ : ∃ c, p = ChunkPlace.currBuff u c
    · obtain ⟨c, rfl⟩ := hp₂
      exact hread c hp
    by_cases hp₃ : ∃ v, p = ChunkPlace.link v u
    · obtain ⟨v, rfl⟩ := hp₃
      exact hlink v hp
    by_cases hp₄ : p = ChunkPlace.delivered u
    · rw [hp₄]
      exact hdelivered
    · exact hother p (not_exists.1 hp₁) (not_exists.1 hp₂) (not_exists.1 hp₃) hp₄ hp
  · intro x hx v w hw y hy
    by_cases hxu : x = u
    · subst hxu
      exact hwaits v w hw y hy
    · rw [honly.node x hxu] at hw
      refine h.waits x hx v w hw y ?_
      rwa [hheld _ (fun c hc => ?_) (fun c hc => ?_) (fun _ hc => ?_) fun hc => ?_] at hy
      · cases c <;> cases hc
      · cases hc
        exact hxu rfl
      · cases hc
      · cases hc

/-! ### Moves of chunks -/

variable {x : Frame × ℕ} {rest : List (Frame × ℕ)} {man' : Ioman (Option ℤ)} {f : Frame}
  {buff : MsgBuff} {queue' : List MsgBuff} {sent : List Byte} {node node' : CommNode (Option ℤ)}

theorem LinkCarries.append (h : LinkCarries bo nodeId queue wire chan full frames) (hf : f.Ok)
    (hbuff : buff.unsent = f.encode bo) :
    LinkCarries bo nodeId (queue ++ [buff]) wire chan full (frames ++ [f]) := by
  cases h with
  | reading hnot hlink => exact LinkCarries.reading hnot (hlink.append hf hbuff)
  | full hfull hok hoff hbytes =>
      refine LinkCarries.full hfull (fun g hg => ?_) hoff ?_
      · rcases List.mem_append.1 hg with hg | hg
        · exact hok g hg
        · rw [List.mem_singleton.1 hg]
          exact hf
      · rw [List.flatMap_append, List.flatMap_append, ← List.append_assoc, hbytes]
        simp [hbuff]

/-- A chunk is appended to the queue. -/
theorem QueueOk.append (h : QueueOk control queue frames) (hkind : f.IsChunk ∨ control)
    (hbuff : buff.unsent ≠ []) : QueueOk control (queue ++ [buff]) (frames ++ [f]) where
  unsent b hb := (List.mem_append.1 hb).elim (h.unsent b) fun he => by
    rw [List.mem_singleton.1 he]
    exact hbuff
  chunks g hg := (List.mem_append.1 hg).elim (h.chunks g) fun he => by
    rw [List.mem_singleton.1 he]
    exact hkind

/-- A frame is taken from the link. -/
theorem QueueOk.tail (h : QueueOk control queue (f :: frames)) : QueueOk control queue frames :=
  ⟨h.unsent, fun g hg => h.chunks g (List.mem_cons_of_mem _ hg)⟩

theorem unsent_packed_ne_nil : (channelPackBuff bo f.info f.body).unsent ≠ [] := by
  rw [unsent_channelPackBuff]
  exact Frame.encode_ne_nil

theorem LinkCarries.send (h : LinkCarries bo nodeId queue wire chan full frames)
    (hsent : sent ++ queue'.flatMap MsgBuff.unsent = queue.flatMap MsgBuff.unsent) :
    LinkCarries bo nodeId queue' (wire ++ sent) chan full frames := by
  cases h with
  | reading hnot hlink => exact LinkCarries.reading hnot (hlink.send hsent)
  | full hfull hok hoff hbytes =>
      refine LinkCarries.full hfull hok hoff ?_
      rw [← hbytes, ← hsent]
      simp only [List.append_assoc]

/-- The receiver has passed its chunk on. -/
theorem LinkCarries.pass (h : LinkCarries bo nodeId queue wire chan full frames) (hfull : full)
    (hnot : ¬ full') (hoff : chan'.headerOff = chan.headerOff) (hcurr : chan'.currBuff = none) :
    LinkCarries bo nodeId queue wire chan' full' frames := by
  cases h with
  | reading hn _ => exact absurd hfull hn
  | full _ hok hoff' hbytes =>
      exact LinkCarries.reading hnot (LinkOk.of_read hok hbytes (hoff.trans hoff') fun _ => hcurr)

/-- The receiver goes on holding its chunk. -/
theorem LinkCarries.keep (h : LinkCarries bo nodeId queue wire chan full frames) (hfull : full)
    (hfull' : full') (hoff : chan'.headerOff = chan.headerOff) :
    LinkCarries bo nodeId queue wire chan' full' frames := by
  cases h with
  | reading hn _ => exact absurd hfull hn
  | full _ hok hoff' hbytes => exact LinkCarries.full hfull' hok (hoff.trans hoff') hbytes

theorem Forwards.setMan (h : Forwards n adj control tables node u) (hsame : SamePeers node.man man')
    (hevents : ∀ e ∈ man'.events, e ∈ node.man.events) :
    Forwards n adj control tables (node.setMan man') u where
  nodeId := hsame.nodeId.trans h.nodeId
  maxpeers := hsame.maxpeers.trans h.maxpeers
  localChan := hsame.localChan.trans h.localChan
  channelMap v := (congrFun hsame.channelMap v).trans (h.channelMap v)
  channels v hv := h.channels v (by rw [← hsame.channels]; exact hv)
  channelsInv := h.channelsInv.samePeers hsame
  events e he := h.events e (hevents e he)
  rts := h.rts

theorem onlyNode_setNode (hbusy : ∀ x c, x ≠ u → (busy' = some (x, c) ↔ busy = some (x, c))) :
    OnlyNode u net (net.setNode u node') busy busy' :=
  ⟨fun _ hx => Net.setNode_node_of_ne hx, fun _ _ _ _ => rfl, hbusy⟩

/-- No other node is busy. -/
def BusyAt (u : ℤ) (busy : Option (ℤ × Option ℤ)) : Prop := busy = none ∨ ∃ c, busy = some (u, c)

theorem BusyAt.none : BusyAt u none := Or.inl rfl

theorem BusyAt.some : BusyAt u (some (u, c)) := Or.inr ⟨c, rfl⟩

theorem BusyAt.other (hbusy : BusyAt u busy) (hbusy' : BusyAt u busy') {y : ℤ} {e : Option ℤ}
    (hy : y ≠ u) : busy' = Option.some (y, e) ↔ busy = Option.some (y, e) := by
  rcases hbusy with rfl | ⟨c, rfl⟩ <;> rcases hbusy' with rfl | ⟨d, rfl⟩ <;> simp [hy.symm]

/-- **A held chunk moves to the queue of the next hop.** -/
theorem NetHolds.pass (h : NetHolds bo n adj control tables net busy held) (hpeers : Peers n adj)
    (hu : 0 ≤ u ∧ u < n) (hc : PlaceIn n adj (ChunkPlace.currBuff u c)) (hv : adj u v)
    (hne : c ≠ some v) (hbusy : busy = none ∨ busy = some (u, c))
    (hx : held (ChunkPlace.currBuff u c) = [x]) (hok : x.1.Ok) (hkind : x.1.IsChunk) :
    NetHolds bo n adj control tables (net.setNode u ((net.node u).setMan
      ((net.node u).man.moveChunk c (some v) (x.1.packed bo)))) none
      (moved held (ChunkPlace.currBuff u c) (ChunkPlace.link u v) x []) := by
  have huv : v ≠ u := fun he => hpeers.irrefl u (by rw [he] at hv; exact hv)
  obtain ⟨chan, hchan, -, hfull⟩ := h.place _ hc
  rw [hx] at hfull
  have hfull : Full busy u c chan :=
    (hfull.resolve_right fun hnot => List.cons_ne_nil _ _ hnot.2).1
  obtain ⟨cu, cv, frames, hcu, hcv, hlink, hqueue, hxs⟩ := h.place _ (show PlaceIn n adj
    (ChunkPlace.link u v) from hv)
  have hbusyAt : BusyAt u busy := hbusy.imp id fun he => ⟨c, he⟩
  -- the two channels after the move
  have hfrom : ((net.node u).man.moveChunk c (some v) (x.1.packed bo)).heap c =
      some ((chan.setState ChannelStatus.active).setCurrBuff none) := by
    simp [Ioman.moveChunk, Ioman.modify, hne, hchan]
  have hto : ((net.node u).man.moveChunk c (some v) (x.1.packed bo)).heap (some v) =
      some (cu.appendBuff (x.1.packed bo)) := by
    simp [Ioman.moveChunk, Ioman.modify, hne.symm, hcu]
  have hnot : ¬ Full none u c ((chan.setState ChannelStatus.active).setCurrBuff none) := by
    rintro (hs | hs) <;> cases hs
  refine h.change hpeers (onlyNode_setNode fun _ _ => hbusyAt.other BusyAt.none) ?_ ?_ ?_ ?_
    ?_ ?_ ?_
  · intro p hp hp' _ _
    exact moved_other (hp' c) (hp (some v))
  · intro p hp
    refine moved_other (fun he => hp ?_) fun he => hp ?_
    · rw [he]
      exact hc
    · rw [he]
      exact hv
  · rw [Net.setNode_node_self]
    exact (h.node u hu).setMan moveChunk_steady.toSamePeers fun _ he => he
  · intro d hd
    by_cases hdv : d = some v
    · subst hdv
      refine Or.inr ⟨_, cv, frames ++ [x.1], by rw [Net.setNode_node_self]; exact hto,
        by rw [Net.setNode_node_of_ne huv]; exact hcv, ?_,
        hqueue.append (Or.inl hkind) unsent_packed_ne_nil, ?_⟩
      · refine LinkCarries.append (hlink.congr (SameReader.refl cv) ?_) hok
          (unsent_channelPackBuff bo _ _)
        exact full_congr (SameReader.refl cv) (hbusyAt.other BusyAt.none huv)
      · have hnew : moved held (ChunkPlace.currBuff u c) (ChunkPlace.link u v) x []
            (ChunkPlace.link u v) = held (ChunkPlace.link u v) ++ [x] :=
          moved_to (by simp)
        rw [outPlace, hnew, List.filter_append, hxs, List.map_append]
        simp [hkind]
    · refine Or.inl ⟨?_, fun _ _ => rfl, ?_⟩
      · rw [Net.setNode_node_self]
        exact SameQueue.moveChunk hdv
      · refine moved_other ?_ ?_
        · cases d <;> simp [outPlace]
        · cases d with
          | none => simp [outPlace]
          | some w =>
              intro he
              cases he
              exact hdv rfl
  · intro d hd
    by_cases hdc : d = c
    · subst hdc
      refine Or.inr ⟨⟨_, by rw [Net.setNode_node_self]; exact hfrom, Or.inl rfl,
        Or.inr ⟨hnot, moved_from⟩⟩, fun w hw => ?_⟩
      subst hw
      have huw : adj u w := hd
      have hwu : w ≠ u := fun he => hpeers.irrefl u (by rw [he] at huw; exact huw)
      obtain ⟨cw, cx, frames', hcw, hcx, hlink', hqueue', hxs'⟩ := h.place _ (show PlaceIn n adj
        (ChunkPlace.link w u) from hpeers.symm huw)
      obtain rfl : cx = chan := Option.some.inj (hcx.symm.trans hchan)
      refine ⟨cw, _, frames', by rw [Net.setNode_node_of_ne hwu]; exact hcw,
        by rw [Net.setNode_node_self]; exact hfrom, hlink'.pass hfull hnot rfl rfl, hqueue', ?_⟩
      rw [moved_other]
      · exact hxs'
      · simp
      · exact fun he => hwu (ChunkPlace.link.inj he).1
    · refine Or.inl ⟨?_, ?_, ?_, fun w hw => ⟨rfl, ?_⟩⟩
      · rw [Net.setNode_node_self]
        exact SameRead.moveChunk hdc
      · rcases hbusy with rfl | rfl <;> simp [Ne.symm hdc]
      · refine moved_other (fun he => hdc ?_) (by simp)
        cases he
        rfl
      · subst hw
        refine moved_other (by simp) fun he => ?_
        have hwu := (ChunkPlace.link.inj he).1
        subst hwu
        exact hpeers.irrefl _ hd
  · show ((net.setNode u _).node u).chunks = _
    have hsame : moved held (ChunkPlace.currBuff u c) (ChunkPlace.link u v) x []
        (ChunkPlace.delivered u) = held (ChunkPlace.delivered u) :=
      moved_other (by simp) (by simp)
    rw [Net.setNode_node_self, hsame]
    exact h.place (ChunkPlace.delivered u) hu
  · intro w d hd y hy
    rw [Net.setNode_node_self] at hd
    replace hd : d ∈ ((net.node u).man.moveChunk c (some v)
      (x.1.packed bo)).waitQueue (some w) := hd
    rw [waitQueue_moveChunk] at hd
    by_cases hdc : d = c
    · subst hdc
      rw [moved_from] at hy
      cases hy
    · have hsame : moved held (ChunkPlace.currBuff u c) (ChunkPlace.link u v) x []
          (ChunkPlace.currBuff u d) = held (ChunkPlace.currBuff u d) :=
        moved_other (fun he => hdc (ChunkPlace.currBuff.inj he).2) (by simp)
      rw [hsame] at hy
      exact h.waits u hu w d hd y hy

/-- **A channel with a chunk waits for the next hop.** -/
theorem NetHolds.join (h : NetHolds bo n adj control tables net (some (u, c)) held)
    (hpeers : Peers n adj) (hu : 0 ≤ u ∧ u < n) (hc : PlaceIn n adj (ChunkPlace.currBuff u c))
    (hv : adj u v)
    (hne : c ≠ some v) (hx : held (ChunkPlace.currBuff u c) = [x])
    (hnext : [ChunkPlace.currBuff u c, ChunkPlace.link u v] <:+: chunkRoute tables x.1) :
    NetHolds bo n adj control tables (net.setNode u ((net.node u).setMan
      ((net.node u).man.joinWaitQueue c (some v)))) none held := by
  obtain ⟨chan, hchan, -, hfull⟩ := h.place _ hc
  rw [hx] at hfull
  obtain ⟨hfull, hheldBuff⟩ := hfull.resolve_right fun hnot => List.cons_ne_nil _ _ hnot.2
  have hfrom : ((net.node u).man.joinWaitQueue c (some v)).heap c =
      some (chan.setState ChannelStatus.blocking) := by
    simp [Ioman.joinWaitQueue, Ioman.modify, hne, hchan]
  have hfull' : Full none u c (chan.setState ChannelStatus.blocking) := Or.inl rfl
  refine h.change hpeers (onlyNode_setNode fun _ _ => BusyAt.some.other BusyAt.none)
    (fun _ _ _ _ _ => rfl) (fun _ _ => rfl) ?_ (fun d _ => Or.inl ⟨?_, fun _ _ => rfl, rfl⟩)
    (fun d hd => ?_) ?_ ?_
  · rw [Net.setNode_node_self]
    exact (h.node u hu).setMan joinWaitQueue_steady.toSamePeers fun _ he => he
  · rw [Net.setNode_node_self]
    exact SameQueue.joinWaitQueue
  · by_cases hdc : d = c
    · subst hdc
      refine Or.inr ⟨⟨_, by rw [Net.setNode_node_self]; exact hfrom, Or.inr rfl,
        Or.inl ⟨hfull', by rw [hx]; exact hheldBuff⟩⟩, fun w hw => ?_⟩
      subst hw
      have hwu : w ≠ u := fun he => hpeers.irrefl u (by
        have huw : adj u w := hd
        rw [he] at huw
        exact huw)
      obtain ⟨cw, cx, frames', hcw, hcx, hlink', hqueue', hxs'⟩ := h.place _ (show PlaceIn n adj
        (ChunkPlace.link w u) from hpeers.symm hd)
      obtain rfl : cx = chan := Option.some.inj (hcx.symm.trans hchan)
      exact ⟨cw, _, frames', by rw [Net.setNode_node_of_ne hwu]; exact hcw,
        by rw [Net.setNode_node_self]; exact hfrom, hlink'.keep hfull hfull' rfl, hqueue', hxs'⟩
    · refine Or.inl ⟨?_, by simp [Ne.symm hdc], rfl, fun _ _ => ⟨rfl, rfl⟩⟩
      rw [Net.setNode_node_self]
      exact SameRead.joinWaitQueue hdc
  · show ((net.setNode u _).node u).chunks = _
    rw [Net.setNode_node_self]
    exact h.place (ChunkPlace.delivered u) hu
  · intro w d hd y hy
    rw [Net.setNode_node_self] at hd
    replace hd : d ∈ ((net.node u).man.joinWaitQueue c (some v)).waitQueue (some w) := hd
    unfold Ioman.joinWaitQueue at hd
    by_cases hw : w = v
    · subst hw
      have hlive : (net.node u).man.live (some w) := by
        obtain ⟨cu, _, _, hcu, _⟩ := h.place _ (show PlaceIn n adj (ChunkPlace.link u w) from hv)
        exact Ioman.live_of_heap hcu
      rw [waitQueue_appendWaiter (Ioman.live_modify.2 hlive),
        Ioman.waitQueue_modify (Channel.setState _) fun _ => rfl] at hd
      rcases List.mem_append.1 hd with hd | hd
      · exact h.waits u hu w d hd y hy
      · rw [List.mem_singleton] at hd
        subst hd
        rw [hx, List.mem_singleton] at hy
        subst hy
        exact hnext
    · rw [waitQueue_appendWaiter_of_ne (fun he => hw (Option.some.inj he)),
        Ioman.waitQueue_modify (Channel.setState _) fun _ => rfl] at hd
      exact h.waits u hu w d hd y hy

/-- **The node `u` receives from `v`**: this concerns the link, the channel and the chunks that have
been delivered. -/
theorem NetHolds.receive (h : NetHolds bo n adj control tables net none held) (hpeers : Peers n adj)
    (hv : adj u v) (hbusy : BusyAt u busy') (hbusy' : ∀ d, d ≠ some v → busy' ≠ some (u, d))
    (hforwards : Forwards n adj control tables node' u)
    (hqueue : ∀ d, SameQueue (net.node u).man node'.man d)
    (hread : ∀ d, d ≠ some v → SameRead (net.node u).man node'.man d)
    (hwait : ∀ d, node'.man.waitQueue d = (net.node u).man.waitQueue d)
    (hnobody : ∀ d, some v ∉ (net.node u).man.waitQueue d)
    (hheld : ∀ p, p ≠ ChunkPlace.link v u → p ≠ ChunkPlace.currBuff u (some v) →
      p ≠ ChunkPlace.delivered u → held' p = held p)
    (hcurr : PlaceHolds bo control ((net.setNode u node').setWire v u wire) busy'
      (ChunkPlace.currBuff u (some v)) (held' (ChunkPlace.currBuff u (some v))))
    (hlink : PlaceHolds bo control ((net.setNode u node').setWire v u wire) busy'
      (ChunkPlace.link v u) (held' (ChunkPlace.link v u)))
    (hdelivered : PlaceHolds bo control ((net.setNode u node').setWire v u wire) busy'
      (ChunkPlace.delivered u) (held' (ChunkPlace.delivered u))) :
    NetHolds bo n adj control tables ((net.setNode u node').setWire v u wire) busy' held' := by
  have hvu : v ≠ u := fun he => hpeers.irrefl u (by rw [he] at hv; exact hv)
  have hu := hpeers.range hv
  refine h.change hpeers ⟨fun y hy => ?_, fun y z _ hz => ?_, fun y c hy =>
    BusyAt.none.other hbusy hy⟩ (fun p _ hp hp' hp'' => hheld p (hp' v) (hp (some v)) hp'') ?_ ?_
    (fun c hc => Or.inl ⟨?_, ?_, ?_⟩) (fun c hc => ?_) hdelivered ?_
  · rw [Net.setWire_node, Net.setNode_node_of_ne hy]
  · exact Net.setWire_wire_of_ne fun he => hz he.2
  · intro p hp
    refine hheld p (fun he => hp ?_) (fun he => hp ?_) fun he => hp ?_
    · rw [he]
      exact hpeers.symm hv
    · rw [he]
      exact hv
    · rw [he]
      exact hu
  · rw [Net.node_changed]
    exact hforwards
  · rw [Net.node_changed]
    exact hqueue c
  · exact fun w _ => Net.setWire_wire_of_ne fun he => hvu he.1.symm
  · refine hheld _ ?_ ?_ ?_
    · cases c with
      | none => nofun
      | some w => exact fun he => hvu (ChunkPlace.link.inj he).1.symm
    · cases c <;> nofun
    · cases c <;> nofun
  · by_cases hcv : c = some v
    · subst hcv
      refine Or.inr ⟨hcurr, fun w hw => ?_⟩
      obtain rfl := Option.some.inj hw
      exact hlink
    · refine Or.inl ⟨?_, iff_of_false (hbusy' c hcv) nofun, ?_, fun w hw => ⟨?_, ?_⟩⟩
      · rw [Net.node_changed]
        exact hread c hcv
      · exact hheld _ nofun (fun he => hcv (ChunkPlace.currBuff.inj he).2) nofun
      · subst hw
        exact Net.setWire_wire_of_ne fun he => hcv (by rw [he.1])
      · subst hw
        exact hheld _ (fun he => hcv (by rw [(ChunkPlace.link.inj he).1])) nofun nofun
  · intro w c hc y hy
    rw [Net.node_changed, hwait] at hc
    have hcv : c ≠ some v := fun he => hnobody (some w) (by rw [← he]; exact hc)
    rw [hheld (ChunkPlace.currBuff u c) nofun (fun he => hcv (ChunkPlace.currBuff.inj he).2)
      nofun] at hy
    exact h.waits u hu w c hc y hy

theorem waitQueue_put {κ : Type} [DecidableEq κ] {man : Ioman κ} {c d : κ} {chan chan' : Channel κ}
    (h : man.heap c = some chan) (hwait : chan'.waitQueue = chan.waitQueue) :
    (man.put c chan').waitQueue d = man.waitQueue d := by
  unfold Ioman.waitQueue
  rw [Ioman.view_put h hwait]

/-- A channel of `u` that is read, when nobody waits for it and nothing is being passed on. -/
structure Reader.Ready (net : Net) (u : ℤ) (c : Option ℤ) (chan : Channel (Option ℤ)) : Prop where
  heap : (net.node u).man.heap c = some chan
  active : chan.state = ChannelStatus.active
  nobody : ∀ d, c ∉ (net.node u).man.waitQueue d

theorem not_full_none (h : chan.state = ChannelStatus.active) : ¬ Full none u c chan := by
  rintro (hs | hs)
  · rw [h] at hs
    cases hs
  · cases hs

/-- What a ready channel reads of a link that carries chunks. -/
theorem NetHolds.link_ready (h : NetHolds bo n adj control tables net none held)
    (hpeers : Peers n adj) (hv : adj u v) (hready : Reader.Ready net u (some v) chan) :
    ∃ cu frames, (net.node v).man.heap (some u) = some cu ∧
      LinkOk bo u cu.buffQueue (net.wire v u) chan frames ∧ QueueOk control cu.buffQueue frames ∧
      frames.filter (fun f => f.IsChunk) = (held (ChunkPlace.link v u)).map Prod.fst := by
  obtain ⟨cu, cv, frames, hcu, hcv, hlink, hqueue, hxs⟩ := h.place _ (show PlaceIn n adj
    (ChunkPlace.link v u) from hpeers.symm hv)
  obtain rfl : cv = chan := Option.some.inj (hcv.symm.trans hready.heap)
  cases hlink with
  | reading _ hlink => exact ⟨cu, frames, hcu, hlink, hqueue, hxs⟩
  | full hfull _ _ _ => exact absurd hfull (not_full_none hready.active)

theorem NetHolds.curr_ready (h : NetHolds bo n adj control tables net none held)
    (hc : PlaceIn n adj (ChunkPlace.currBuff u c)) (hready : Reader.Ready net u c chan) :
    held (ChunkPlace.currBuff u c) = [] := by
  obtain ⟨chan', hchan', -, hfull⟩ := h.place _ hc
  obtain rfl : chan' = chan := Option.some.inj (hchan'.symm.trans hready.heap)
  exact (hfull.resolve_left fun hf => not_full_none hready.active hf.1).2

/-- **A read that completes no chunk** leaves the places as they are. -/
theorem NetHolds.reader (h : NetHolds bo n adj control tables net none held) (hpeers : Peers n adj)
    (hv : adj u v) (hready : Reader.Ready net u (some v) chan) (hreads : Reads chan chan')
    (hcu : (net.node v).man.heap (some u) = some cu)
    (hlink : LinkOk bo u cu.buffQueue wire chan' frames)
    (hqueue : QueueOk control cu.buffQueue frames)
    (hxs : frames.filter (fun f => f.IsChunk) = (held (ChunkPlace.link v u)).map Prod.fst) :
    NetHolds bo n adj control tables ((net.setNode u ((net.node u).setMan
      ((net.node u).man.put (some v) chan'))).setWire v u wire) none held := by
  have hvu : v ≠ u := fun he => hpeers.irrefl u (by rw [he] at hv; exact hv)
  have hu := hpeers.range hv
  have hstate : chan'.state = ChannelStatus.active := hreads.state.trans hready.active
  have hheap : ((net.node u).man.put (some v) chan').heap (some v) = some chan' :=
    Ioman.heap_put_self
  refine h.receive hpeers hv BusyAt.none nofun
    ((h.node u hu).setMan (hreads.steady hready.heap).toSamePeers fun _ he => he)
    (fun d => SameQueue.put hready.heap hreads.buffQueue)
    (fun d hd => SameRead.of_heap (Ioman.heap_put_of_ne hd))
    (fun d => waitQueue_put hready.heap hreads.waitQueue) hready.nobody (fun _ _ _ _ => rfl)
    ⟨chan', by rw [Net.node_changed]; exact hheap, Or.inl hstate,
      Or.inr ⟨not_full_none hstate, h.curr_ready hv hready⟩⟩
    ⟨cu, chan', frames, ?_, by rw [Net.node_changed]; exact hheap, ?_, hqueue, hxs⟩ ?_
  · rw [Net.setWire_node, Net.setNode_node_of_ne hvu]
    exact hcu
  · rw [Net.setWire_wire_self]
    exact LinkCarries.reading (not_full_none hstate) hlink
  · show (((net.setNode u _).setWire v u wire).node u).chunks = _
    rw [Net.node_changed]
    exact h.place (ChunkPlace.delivered u) hu

/-- **A read that completes a chunk to be passed on.** -/
theorem NetHolds.arrive (h : NetHolds bo n adj control tables net none held) (hpeers : Peers n adj)
    (hv : adj u v) (hready : Reader.Ready net u (some v) chan) (hreads : Reads chan chan')
    (hcu : (net.node v).man.heap (some u) = some cu)
    (hoff : chan'.headerOff = 0)
    (hcurr : chan'.currBuff = some (x.1.packed bo)) (hok : ∀ f ∈ frames, f.Ok)
    (hbytes : wire ++ cu.buffQueue.flatMap MsgBuff.unsent = frames.flatMap (Frame.encode bo))
    (hqueue : QueueOk control cu.buffQueue frames)
    (hxs : frames.filter (fun f => f.IsChunk) = rest.map Prod.fst) :
    NetHolds bo n adj control tables ((net.setNode u ((net.node u).setMan
      ((net.node u).man.put (some v) chan'))).setWire v u wire) (some (u, some v))
      (moved held (ChunkPlace.link v u) (ChunkPlace.currBuff u (some v)) x rest) := by
  have hvu : v ≠ u := fun he => hpeers.irrefl u (by rw [he] at hv; exact hv)
  have hu := hpeers.range hv
  have hstate : chan'.state = ChannelStatus.active := hreads.state.trans hready.active
  have hheap : ((net.node u).man.put (some v) chan').heap (some v) = some chan' :=
    Ioman.heap_put_self
  have hfull : Full (some (u, some v)) u (some v) chan' := Or.inr rfl
  have hto : moved held (ChunkPlace.link v u) (ChunkPlace.currBuff u (some v)) x rest
      (ChunkPlace.currBuff u (some v)) = [x] := moved_nil nofun (h.curr_ready hv hready)
  refine h.receive hpeers hv BusyAt.some (fun d hd he => hd (by cases he; rfl))
    ((h.node u hu).setMan (hreads.steady hready.heap).toSamePeers fun _ he => he)
    (fun d => SameQueue.put hready.heap hreads.buffQueue)
    (fun d hd => SameRead.of_heap (Ioman.heap_put_of_ne hd))
    (fun d => waitQueue_put hready.heap hreads.waitQueue) hready.nobody
    (fun p hp hp' _ => moved_other hp hp')
    ⟨chan', by rw [Net.node_changed]; exact hheap, Or.inl hstate, Or.inl ⟨hfull, x, hto, hcurr⟩⟩
    ⟨cu, chan', frames, ?_, by rw [Net.node_changed]; exact hheap, ?_, hqueue,
      by rw [moved_from]; exact hxs⟩ ?_
  · rw [Net.setWire_node, Net.setNode_node_of_ne hvu]
    exact hcu
  · rw [Net.setWire_wire_self]
    exact LinkCarries.full hfull hok hoff hbytes
  · show (((net.setNode u _).setWire v u wire).node u).chunks = _
    have hsame : moved held (ChunkPlace.link v u) (ChunkPlace.currBuff u (some v)) x rest
        (ChunkPlace.delivered u) = held (ChunkPlace.delivered u) := moved_other nofun nofun
    rw [Net.node_changed, hsame]
    exact h.place (ChunkPlace.delivered u) hu

/-- **A read that completes a chunk for this node.** -/
theorem NetHolds.deliver (h : NetHolds bo n adj control tables net none held) (hpeers : Peers n adj)
    (hv : adj u v) (hready : Reader.Ready net u (some v) chan) (hreads : Reads chan chan')
    (hcu : (net.node v).man.heap (some u) = some cu)
    (hoff : chan'.headerOff = 0)
    (hcurr : chan'.currBuff = none) (hok : ∀ f ∈ frames, f.Ok)
    (hbytes : wire ++ cu.buffQueue.flatMap MsgBuff.unsent = frames.flatMap (Frame.encode bo))
    (hqueue : QueueOk control cu.buffQueue frames)
    (hxs : frames.filter (fun f => f.IsChunk) = rest.map Prod.fst) :
    NetHolds bo n adj control tables ((net.setNode u { net.node u with
        man := (net.node u).man.put (some v) chan'
        chunks := (net.node u).chunks ++ [x.1.handed] }).setWire v u wire) none
      (moved held (ChunkPlace.link v u) (ChunkPlace.delivered u) x rest) := by
  have hvu : v ≠ u := fun he => hpeers.irrefl u (by rw [he] at hv; exact hv)
  have hu := hpeers.range hv
  have hstate : chan'.state = ChannelStatus.active := hreads.state.trans hready.active
  have hheap : ((net.node u).man.put (some v) chan').heap (some v) = some chan' :=
    Ioman.heap_put_self
  have hforwards := (h.node u hu).setMan (hreads.steady hready.heap).toSamePeers fun _ he => he
  have hsame : moved held (ChunkPlace.link v u) (ChunkPlace.delivered u) x rest
      (ChunkPlace.currBuff u (some v)) = held (ChunkPlace.currBuff u (some v)) :=
    moved_other nofun nofun
  refine h.receive hpeers hv BusyAt.none nofun
    ⟨hforwards.nodeId, hforwards.maxpeers, hforwards.localChan, hforwards.channelMap,
      hforwards.channels, hforwards.channelsInv, hforwards.events, hforwards.rts⟩
    (fun d => SameQueue.put hready.heap hreads.buffQueue)
    (fun d hd => SameRead.of_heap (Ioman.heap_put_of_ne hd))
    (fun d => waitQueue_put hready.heap hreads.waitQueue) hready.nobody
    (fun p hp _ hp' => moved_other hp hp')
    ⟨chan', by rw [Net.node_changed]; exact hheap, Or.inl hstate,
      Or.inr ⟨not_full_none hstate, hsame.trans (h.curr_ready hv hready)⟩⟩
    ⟨cu, chan', frames, ?_, by rw [Net.node_changed]; exact hheap, ?_, hqueue,
      by rw [moved_from]; exact hxs⟩ ?_
  · rw [Net.setWire_node, Net.setNode_node_of_ne hvu]
    exact hcu
  · rw [Net.setWire_wire_self]
    exact LinkCarries.reading (not_full_none hstate)
      (LinkOk.of_read hok hbytes hoff fun _ => hcurr)
  · show (((net.setNode u _).setWire v u wire).node u).chunks = _
    have hto : moved held (ChunkPlace.link v u) (ChunkPlace.delivered u) x rest
        (ChunkPlace.delivered u) = held (ChunkPlace.delivered u) ++ [x] := moved_to nofun
    rw [Net.node_changed, hto, List.map_append]
    exact congrArg (· ++ [x.1.handed]) (h.place (ChunkPlace.delivered u) hu)

/-- **A chunk is popped from the local queue.** -/
theorem NetHolds.pop (h : NetHolds bo n adj control tables net none held) (hpeers : Peers n adj)
    (hu : 0 ≤ u ∧ u < n) (hready : Reader.Ready net u none chan)
    (hpeer : chan'.peerId = chan.peerId) (hconn : chan'.connectState = chan.connectState)
    (hstate : chan'.state = ChannelStatus.active) (hwait : chan'.waitQueue = chan.waitQueue)
    (hqueue : chan'.buffQueue = rest.map fun y => y.1.packed bo)
    (hcurr : chan'.currBuff = some (x.1.packed bo)) :
    NetHolds bo n adj control tables (net.setNode u ((net.node u).setMan
      ((net.node u).man.put none chan'))) (some (u, none))
      (moved held (ChunkPlace.localQueue u) (ChunkPlace.currBuff u none) x rest) := by
  have hheap : ((net.node u).man.put none chan').heap none = some chan' := Ioman.heap_put_self
  have hto : moved held (ChunkPlace.localQueue u) (ChunkPlace.currBuff u none) x rest
      (ChunkPlace.currBuff u none) = [x] := moved_nil nofun (h.curr_ready hu hready)
  refine h.change hpeers (onlyNode_setNode fun _ _ => BusyAt.none.other BusyAt.some)
    (fun p hp hp' _ _ => moved_other (hp none) (hp' none)) (fun p hp => ?_) ?_ (fun c _ => ?_)
    (fun c _ => ?_) ?_ fun w c hc y hy => ?_
  · refine moved_other (fun he => hp ?_) fun he => hp ?_ <;>
    · rw [he]
      exact hu
  · rw [Net.setNode_node_self]
    exact (h.node u hu).setMan (Steady.put hready.heap hpeer hconn).toSamePeers fun _ he => he
  · cases c with
    | none =>
        refine Or.inr ⟨chan', by rw [Net.setNode_node_self]; exact hheap, ?_⟩
        rw [outPlace, moved_from]
        exact hqueue
    | some v =>
        refine Or.inl ⟨?_, fun _ _ => rfl, moved_other nofun nofun⟩
        rw [Net.setNode_node_self]
        exact SameQueue.of_heap (Ioman.heap_put_of_ne nofun)
  · cases c with
    | none =>
        exact Or.inr ⟨⟨chan', by rw [Net.setNode_node_self]; exact hheap, Or.inl hstate,
          Or.inl ⟨Or.inr rfl, x, hto, hcurr⟩⟩, nofun⟩
    | some v =>
        refine Or.inl ⟨?_, iff_of_false nofun nofun,
          moved_other nofun nofun, fun w _ => ⟨rfl, moved_other nofun nofun⟩⟩
        rw [Net.setNode_node_self]
        exact SameRead.of_heap (Ioman.heap_put_of_ne nofun)
  · show ((net.setNode u _).node u).chunks = _
    have hsame : moved held (ChunkPlace.localQueue u) (ChunkPlace.currBuff u none) x rest
        (ChunkPlace.delivered u) = held (ChunkPlace.delivered u) := moved_other nofun nofun
    rw [Net.setNode_node_self, hsame]
    exact h.place (ChunkPlace.delivered u) hu
  · rw [Net.setNode_node_self] at hc
    replace hc : c ∈ ((net.node u).man.put none chan').waitQueue (some w) := hc
    rw [waitQueue_put hready.heap hwait] at hc
    have hcn : c ≠ none := fun he => hready.nobody (some w) (by rw [← he]; exact hc)
    have hsame : moved held (ChunkPlace.localQueue u) (ChunkPlace.currBuff u none) x rest
        (ChunkPlace.currBuff u c) = held (ChunkPlace.currBuff u c) :=
      moved_other nofun fun he => hcn (ChunkPlace.currBuff.inj he).2
    rw [hsame] at hy
    exact h.waits u hu w c hc y hy

/-- **Bytes of the queue to `v` are sent.** -/
theorem NetHolds.send (h : NetHolds bo n adj control tables net busy held) (hpeers : Peers n adj)
    (hv : adj u v) (hchan : (net.node u).man.heap (some v) = some chan)
    (hsent : sent ++ queue'.flatMap MsgBuff.unsent = chan.buffQueue.flatMap MsgBuff.unsent)
    (hleft : ∀ b ∈ queue', b ∈ chan.buffQueue ∨ b.unsent ≠ []) :
    NetHolds bo n adj control tables ((net.setNode u ((net.node u).setMan
      ((net.node u).man.modify (some v) (Channel.setBuffQueue queue')))).setWire u v
        (net.wire u v ++ sent)) busy held := by
  have hvu : v ≠ u := fun he => hpeers.irrefl u (by rw [he] at hv; exact hv)
  have hu := hpeers.range hv
  refine h.change (u := u) hpeers ⟨fun y hy => ?_, fun y z hy _ => ?_, fun _ _ _ => Iff.rfl⟩
    (fun _ _ _ _ _ => rfl) (fun _ _ => rfl) ?_ (fun c hc => ?_)
    (fun c hc => Or.inl ⟨?_, Iff.rfl, rfl, fun w hw => ⟨?_, rfl⟩⟩) ?_ fun w c hc => ?_
  · rw [Net.setWire_node, Net.setNode_node_of_ne hy]
  · exact Net.setWire_wire_of_ne fun he => hy he.1
  · rw [Net.node_changed]
    exact (h.node u hu).setMan (Steady.modify (Channel.setBuffQueue queue') (fun _ => rfl)
      fun _ => rfl).toSamePeers fun _ he => he
  · by_cases hcv : c = some v
    · subst hcv
      obtain ⟨cu, cv, frames, hcu, hcv, hlink, hqueue, hxs⟩ := h.place _ hc
      obtain rfl : cu = chan := Option.some.inj (hcu.symm.trans hchan)
      refine Or.inr ⟨cu.setBuffQueue queue', cv, frames, ?_, ?_, ?_,
        ⟨fun b hb => (hleft b hb).elim (hqueue.unsent b) id, hqueue.chunks⟩, hxs⟩
      · rw [Net.node_changed]
        exact Ioman.heap_modify_eq hcu
      · rw [Net.setWire_node, Net.setNode_node_of_ne hvu]
        exact hcv
      · rw [Net.setWire_wire_self]
        exact hlink.send hsent
    · refine Or.inl ⟨?_, fun w hw => Net.setWire_wire_of_ne fun he => hcv ?_, rfl⟩
      · rw [Net.node_changed]
        exact SameQueue.of_heap (Ioman.heap_modify_of_ne hcv)
      · rw [hw, he.2]
  · rw [Net.node_changed]
    exact SameRead.modify _ fun _ => ⟨rfl, rfl, rfl, rfl, rfl⟩
  · refine Net.setWire_wire_of_ne fun he => hvu he.2.symm
  · show (((net.setNode u _).setWire u v _).node u).chunks = _
    rw [Net.node_changed]
    exact h.place (ChunkPlace.delivered u) hu
  · rw [Net.node_changed] at hc
    replace hc : c ∈ ((net.node u).man.modify (some v)
      (Channel.setBuffQueue queue')).waitQueue (some w) := hc
    rw [Ioman.waitQueue_modify (Channel.setBuffQueue queue') fun _ => rfl] at hc
    exact h.waits u hu w c hc

/-- Channels may be taken off a wait queue. -/
theorem NetHolds.dropWaiters (h : NetHolds bo n adj control tables net busy held)
    (hpeers : Peers n adj) (hu : 0 ≤ u ∧ u < n) {ws : List (Option ℤ)}
    (hws : ∀ w ∈ ws, w ∈ (net.node u).man.waitQueue c) :
    NetHolds bo n adj control tables (net.setNode u ((net.node u).setMan
      ((net.node u).man.modify c (Channel.setWaitQueue ws)))) busy held := by
  refine h.change hpeers (onlyNode_setNode fun _ _ _ => Iff.rfl) (fun _ _ _ _ _ => rfl)
    (fun _ _ => rfl) ?_ (fun d hd => Or.inl ⟨?_, fun _ _ => rfl, rfl⟩)
    (fun d hd => Or.inl ⟨?_, Iff.rfl, rfl, fun _ _ => ⟨rfl, rfl⟩⟩) ?_ fun w d hd => ?_
  · rw [Net.setNode_node_self]
    exact (h.node u hu).setMan (Steady.modify (Channel.setWaitQueue ws) (fun _ => rfl)
      fun _ => rfl).toSamePeers fun _ he => he
  · rw [Net.setNode_node_self]
    exact SameQueue.modify _ fun _ => rfl
  · rw [Net.setNode_node_self]
    exact SameRead.modify _ fun _ => ⟨rfl, rfl, rfl, rfl, rfl⟩
  · show ((net.setNode u _).node u).chunks = _
    rw [Net.setNode_node_self]
    exact h.place (ChunkPlace.delivered u) hu
  · rw [Net.setNode_node_self] at hd
    replace hd : d ∈ ((net.node u).man.modify c (Channel.setWaitQueue ws)).waitQueue (some w) := hd
    refine h.waits u hu w d ?_
    by_cases hwc : some w = c
    · subst hwc
      cases hheap : (net.node u).man.heap (some w) with
      | none =>
          have hnil : ((net.node u).man.modify (some w) (Channel.setWaitQueue ws)).waitQueue
              (some w) = [] := by
            simp [Ioman.waitQueue, Ioman.view, Ioman.modify, hheap]
          rw [hnil] at hd
          cases hd
      | some chan =>
          rw [Ioman.waitQueue_eq (Ioman.heap_modify_eq hheap)] at hd
          exact hws d hd
    · unfold Ioman.waitQueue Ioman.view at *
      rwa [Ioman.heap_modify_of_ne hwc] at hd

/-- **A chunk is pushed to the local queue.** -/
theorem NetHolds.push (h : NetHolds bo n adj control tables net busy held) (hpeers : Peers n adj)
    (hu : 0 ≤ u ∧ u < n) (hchan : (net.node u).man.heap none = some chan) (x : Frame × ℕ) :
    NetHolds bo n adj control tables (net.setNode u ((net.node u).setMan
      ((net.node u).man.put none (chan.appendBuff (x.1.packed bo))))) busy
      (added held (ChunkPlace.localQueue u) x) := by
  have hother : ∀ p, p ≠ ChunkPlace.localQueue u →
      added held (ChunkPlace.localQueue u) x p = held p := fun p hp => added_other hp
  refine h.change hpeers (onlyNode_setNode fun _ _ _ => Iff.rfl)
    (fun p hp _ _ _ => hother p (hp none)) (fun p hp => hother p fun he => hp ?_) ?_
    (fun d hd => ?_)
    (fun d hd => Or.inl ⟨?_, Iff.rfl, hother _ nofun, fun _ _ => ⟨rfl, hother _ nofun⟩⟩) ?_
    fun w d hd y hy => ?_
  · rw [he]
    exact hu
  · rw [Net.setNode_node_self]
    have hsteady : Steady (net.node u).man
        ((net.node u).man.put none (chan.appendBuff (x.1.packed bo))) := Steady.put hchan rfl rfl
    exact (h.node u hu).setMan hsteady.toSamePeers fun _ he => he
  · cases d with
    | none =>
        obtain ⟨chan₀, hchan₀, hq⟩ := h.place _ hd
        obtain rfl : chan₀ = chan := Option.some.inj (hchan₀.symm.trans hchan)
        refine Or.inr ⟨chan₀.appendBuff (x.1.packed bo), ?_, ?_⟩
        · rw [Net.setNode_node_self]
          exact Ioman.heap_put_self
        · rw [outPlace, added_self, List.map_append]
          exact congrArg (· ++ [x.1.packed bo]) hq
    | some v =>
        refine Or.inl ⟨?_, fun _ _ => rfl, hother _ nofun⟩
        rw [Net.setNode_node_self]
        exact SameQueue.of_heap (Ioman.heap_put_of_ne nofun)
  · rw [Net.setNode_node_self]
    exact SameRead.put hchan ⟨rfl, rfl, rfl, rfl, rfl⟩
  · show ((net.setNode u _).node u).chunks = _
    rw [Net.setNode_node_self, hother (ChunkPlace.delivered u) nofun]
    exact h.place (ChunkPlace.delivered u) hu
  · rw [Net.setNode_node_self] at hd
    replace hd : d ∈ ((net.node u).man.put none (chan.appendBuff (x.1.packed bo))).waitQueue
      (some w) := hd
    have hsame : (chan.appendBuff (x.1.packed bo)).waitQueue = chan.waitQueue := rfl
    rw [waitQueue_put hchan hsame] at hd
    rw [hother (ChunkPlace.currBuff u d) nofun] at hy
    exact h.waits u hu w d hd y hy

/-! ### What does not concern the chunks -/

/-- A step of a node that does not concern the chunks: it may send messages. -/
structure PlainStep (bo : ByteOrder) (control : Prop) (node node' : CommNode (Option ℤ)) :
    Prop where
  peers : SamePeers node.man node'.man
  events : ∀ e ∈ node'.man.events, e ∈ node.man.events ∨ e.Plain control
  rts : ∀ src rt, node.rts src = some rt → node'.rts src = some rt
  chunks : node'.chunks = node.chunks
  channel : ∀ c chan, node.man.heap c = some chan → ∃ chan' frames,
    node'.man.heap c = some chan' ∧ Appends bo chan chan' frames ∧ (c = none → frames = []) ∧
      ∀ f ∈ frames, f.Ok ∧ ¬ f.IsChunk ∧ control

theorem LinkCarries.appends {frames' : List Frame}
    (h : LinkCarries bo nodeId cu.buffQueue wire chan full frames)
    (happ : Appends bo cu chan' frames') (hok : ∀ f ∈ frames', f.Ok) :
    LinkCarries bo nodeId chan'.buffQueue wire chan full (frames ++ frames') := by
  rw [happ.queue]
  clear happ
  generalize cu.buffQueue = queue at h
  induction frames' generalizing queue frames with
  | nil => simpa using h
  | cons f frames' ih =>
      have hfirst := h.append (hok f List.mem_cons_self) (unsent_channelPackBuff bo f.info f.body)
      have hrest := ih (fun g hg => hok g (List.mem_cons_of_mem _ hg)) _ hfirst
      simpa using hrest

theorem QueueOk.appends {frames' : List Frame} (h : QueueOk control cu.buffQueue frames)
    (happ : Appends bo cu chan' frames') (hcontrol : ∀ f ∈ frames', control) :
    QueueOk control chan'.buffQueue (frames ++ frames') where
  unsent b hb := by
    rw [happ.queue] at hb
    rcases List.mem_append.1 hb with hb | hb
    · exact h.unsent b hb
    · obtain ⟨f, _, rfl⟩ := List.mem_map.1 hb
      exact unsent_packed_ne_nil
  chunks f hf := (List.mem_append.1 hf).elim (h.chunks f) fun hf => Or.inr (hcontrol f hf)

theorem PlainStep.waitQueue (hstep : PlainStep bo control node node') (d : Option ℤ) :
    node'.man.waitQueue d = node.man.waitQueue d := by
  cases hd : node.man.heap d with
  | none =>
      have hdead : node'.man.heap d = none := by
        have hlive := hstep.peers.live d
        unfold Ioman.live at hlive
        rw [hd] at hlive
        simpa using hlive
      simp [Ioman.waitQueue, Ioman.view, hd, hdead]
  | some chan =>
      obtain ⟨chan', _, hchan', happ, _⟩ := hstep.channel d chan hd
      rw [Ioman.waitQueue_eq hd, Ioman.waitQueue_eq hchan', happ.waitQueue]

/-- **Such a step leaves all chunks in their places.** -/
theorem NetHolds.plain (h : NetHolds bo n adj control tables net busy held) (hpeers : Peers n adj)
    (hu : 0 ≤ u ∧ u < n) (hstep : PlainStep bo control (net.node u) node') :
    NetHolds bo n adj control tables (net.setNode u node') busy held := by
  have hnode := h.node u hu
  refine h.change hpeers (onlyNode_setNode fun _ _ _ => Iff.rfl) (fun _ _ _ _ _ => rfl)
    (fun _ _ => rfl) ?_ (fun d hd => ?_)
    (fun d hd => Or.inl ⟨?_, Iff.rfl, rfl, fun _ _ => ⟨rfl, rfl⟩⟩) ?_ fun w d hd => ?_
  · rw [Net.setNode_node_self]
    exact ⟨hstep.peers.nodeId.trans hnode.nodeId, hstep.peers.maxpeers.trans hnode.maxpeers,
      hstep.peers.localChan.trans hnode.localChan,
      fun v => (congrFun hstep.peers.channelMap v).trans (hnode.channelMap v),
      fun v hv => hnode.channels v (by rw [← hstep.peers.channels]; exact hv),
      hnode.channelsInv.samePeers hstep.peers,
      fun e he => (hstep.events e he).elim (hnode.events e) id,
      fun src hsrc => hstep.rts src _ (hnode.rts src hsrc)⟩
  · cases d with
    | none =>
        refine Or.inl ⟨fun chan hchan => ?_, fun _ _ => rfl, rfl⟩
        obtain ⟨chan', frames, hchan', happ, hnil, _⟩ := hstep.channel none chan hchan
        rw [Net.setNode_node_self]
        refine ⟨chan', hchan', ?_⟩
        rw [happ.queue, hnil rfl]
        exact List.append_nil _
    | some v =>
        have hvu : v ≠ u := fun he => hpeers.irrefl u (by
          have huv : adj u v := hd
          rw [he] at huv
          exact huv)
        obtain ⟨cu, cv, frames, hcu, hcv, hlink, hqueue, hxs⟩ := h.place _ hd
        obtain ⟨cu', frames', hcu', happ, _, hframes⟩ := hstep.channel (some v) cu hcu
        refine Or.inr ⟨cu', cv, frames ++ frames', by rw [Net.setNode_node_self]; exact hcu',
          by rw [Net.setNode_node_of_ne hvu]; exact hcv,
          hlink.appends happ fun f hf => (hframes f hf).1,
          hqueue.appends happ fun f hf => (hframes f hf).2.2, ?_⟩
        have hnone : frames'.filter (fun f => f.IsChunk) = [] :=
          List.filter_eq_nil_iff.2 fun f hf => by simpa using (hframes f hf).2.1
        rw [List.filter_append, hnone, List.append_nil]
        exact hxs
  · rw [Net.setNode_node_self]
    intro chan hchan
    obtain ⟨chan', _, hchan', happ, _⟩ := hstep.channel d chan hchan
    exact ⟨chan', hchan', happ.reader⟩
  · show ((net.setNode u node').node u).chunks = _
    rw [Net.setNode_node_self, hstep.chunks]
    exact h.place (ChunkPlace.delivered u) hu
  · rw [Net.setNode_node_self, hstep.waitQueue] at hd
    exact h.waits u hu w d hd

end Change

end DLFree
