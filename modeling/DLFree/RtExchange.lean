/-
**The exchange of routing tables, in a network of nodes.**

Every node calls `comm_node_exchange_rt` with its own table.  The call stores the table, writes a
broadcast event into the notify pipe, counts the table, and waits until the tables of all nodes have
been counted.  The I/O thread sends a broadcast to all registered peers; a node that gets a table it
does not have stores, counts and broadcasts it.

The exchange refines flooding: the items are the sources of the tables, the outbox of a node is its
notify pipe, and what is under way on a link is read off the frames that it carries.  Other messages
on the links are those that end a handshake.

Main definitions:

* `Exchange`, `ExchangeStep`, `ExchangeStart` — a network of registered peers in which every node
  calls `comm_node_exchange_rt`;
* `CarriesTables` — the tables that a link carries;
* `ExchangeSim` — the network and the flooding that it refines.

Main results:

* `ExchangeStep.refines` — **every step is a step of the flooding, or none**;
* `rtExchange_floods` — **a stored table is the one that its source broadcast, a node broadcasts no
  table twice, and when no table is under way every node has all of them**.
-/

import DLFree.Flooding
import DLFree.Handshake
import DLFree.TransitionRun
import Mathlib

set_option relaxedAutoImplicit false
set_option autoImplicit false

namespace DLFree

open TransitionRun Flooding

/-! ### Networks of nodes that exchange their tables -/

/-- How far the call of `comm_node_exchange_rt` is: the own table is stored and packed, its
broadcast is written, it is counted and the thread waits, or the call has returned. -/
inductive ExchangeCall
  | before
  | stored (buff : List Byte)
  | sent
  | waiting
  | done
  deriving DecidableEq, Repr

namespace ExchangeCall

/-- The broadcast of the own table has been written. -/
def told : ExchangeCall → Bool
  | before | stored _ => false
  | _ => true

/-- The own table has been counted. -/
def counted : ExchangeCall → Bool
  | waiting | done => true
  | _ => false

/-- The number of tables that are stored and not counted. -/
def uncounted : ExchangeCall → ℕ
  | stored _ | sent => 1
  | _ => 0

end ExchangeCall

/-- The table in a broadcast event. -/
def IomanEvent.rtBody {κ : Type} : IomanEvent κ → Option (List Byte)
  | IomanEvent.bcastmsg MsgKind.rt buff => some buff
  | _ => none

/-- The tables in the events that `man'` has behind those of `man`. -/
def newRtBodies {κ : Type} (man man' : Ioman κ) : List (List Byte) :=
  (man'.events.drop man.events.length).filterMap IomanEvent.rtBody

/-- A network, the call of each node, and all tables for which it has written a broadcast. -/
structure Exchange where
  net : Net
  call : ℤ → ExchangeCall
  bcasts : ℤ → List (List Byte)

namespace Exchange

/-- A step of the node `u`. -/
def move (s : Exchange) (u : ℤ) (net : Net) : Exchange where
  net := net
  call := s.call
  bcasts := Function.update s.bcasts u
    (s.bcasts u ++ newRtBodies (s.net.node u).man (net.node u).man)

/-- The call of `u` goes on. -/
def goto (s : Exchange) (u : ℤ) (call : ExchangeCall) : Exchange :=
  { s with call := Function.update s.call u call }

end Exchange

/-- A step of a network of the nodes `0, …, n - 1`; `tables u` is the table of `u`. -/
inductive ExchangeStep (bo : ByteOrder) (n : ℕ) (tables : ℤ → OverlayRtable) (s : Exchange) :
    Exchange → Prop
  /-- `u` calls `comm_node_exchange_rt` and stores its table -/
  | store {u : ℤ} {buff : List Byte} {node' : CommNode (Option ℤ)} (hu : 0 ≤ u ∧ u < n)
      (hcall : s.call u = ExchangeCall.before)
      (hstore : commNodeStoreRt bo (s.net.node u) (tables u) = Except.ok (buff, node')) :
      ExchangeStep bo n tables s
        ((s.move u (s.net.setNode u node')).goto u (ExchangeCall.stored buff))
  /-- the call writes its broadcast -/
  | bcast {u : ℤ} {buff : List Byte} (hu : 0 ≤ u ∧ u < n)
      (hcall : s.call u = ExchangeCall.stored buff) :
      ExchangeStep bo n tables s ((s.move u (s.net.setNode u
        (commNodeBcastMsg (s.net.node u) MsgKind.rt buff))).goto u ExchangeCall.sent)
  /-- the call counts its table -/
  | count {u : ℤ} (hu : 0 ≤ u ∧ u < n) (hcall : s.call u = ExchangeCall.sent) :
      ExchangeStep bo n tables s ((s.move u (s.net.setNode u
        (commNodeCountOwnRt (s.net.node u)))).goto u ExchangeCall.waiting)
  /-- the thread, which does not sleep, compares the counter -/
  | wait {u : ℤ} {ret : Bool} {node' : CommNode (Option ℤ)} (hu : 0 ≤ u ∧ u < n)
      (hcall : s.call u = ExchangeCall.waiting)
      (hawake : CondWaiter.exchange n ∉ (s.net.node u).cond)
      (hwait : commNodeExchangeWait (s.net.node u) n = (ret, node')) :
      ExchangeStep bo n tables s ((s.move u (s.net.setNode u node')).goto u
        (if ret then ExchangeCall.done else ExchangeCall.waiting))
  /-- the I/O thread of `u` takes an event from the notify pipe -/
  | event {u : ℤ} {man' : Ioman (Option ℤ)} (hu : 0 ≤ u ∧ u < n)
      (hevent : iomanHandleEvent bo (s.net.node u).man = Except.ok man') :
      ExchangeStep bo n tables s (s.move u (s.net.setNode u ((s.net.node u).setMan man')))
  /-- the I/O thread of `u` reads a channel -/
  | read {u v : ℤ} {now : ℚ} {net' : Net} (hu : 0 ≤ u ∧ u < n)
      (hread : NetRead bo now u v s.net net') : ExchangeStep bo n tables s (s.move u net')
  /-- the I/O thread of `u` writes a channel -/
  | write {u v : ℤ} {sent : List Byte} {net' : Net} (hu : 0 ≤ u ∧ u < n)
      (hwrite : NetWrite bo u v s.net sent net') : ExchangeStep bo n tables s (s.move u net')

/-- The peers of the nodes `0, …, n - 1`: a connected graph. -/
structure PeersConnected (n : ℕ) (adj : ℤ → ℤ → Prop) : Prop where
  range : ∀ {u v}, adj u v → 0 ≤ u ∧ u < n
  symm : ∀ {u v}, adj u v → adj v u
  irrefl : ∀ u, ¬ adj u u
  connected : ∀ u v : ℤ, 0 ≤ u ∧ u < n → 0 ≤ v ∧ v < n → Relation.ReflTransGen adj u v

/-- The tables that are exchanged: complete tables of the nodes, whose packed length is an `int`. -/
structure TablesOk (bo : ByteOrder) (n : ℕ) (tables : ℤ → OverlayRtable) : Prop where
  complete : ∀ u : ℤ, 0 ≤ u ∧ u < n → (tables u).Complete
  srcpid : ∀ u : ℤ, 0 ≤ u ∧ u < n → (tables u).srcpid = u
  packLen : ∀ u : ℤ, 0 ≤ u ∧ u < n → ∀ buff, overlayRtablePack bo (tables u) = Except.ok buff →
    FitsInt buff.length

/-- One of the messages that end a handshake. -/
def Frame.IsPong (f : Frame) : Prop :=
  f.info.kind = MsgKind.pong0.toInt ∨ f.info.kind = MsgKind.pong1.toInt

/-- A node that has registered its peers, and has not heard of any table. -/
structure Registered (n : ℕ) (adj : ℤ → ℤ → Prop) [∀ u v, Decidable (adj u v)]
    (node : CommNode (Option ℤ)) (u : ℤ) : Prop where
  nodeId : node.nodeId = u
  maxpeers : node.man.maxpeers = commMaxPeer
  channelMap : ∀ v, node.man.channelMap v = if adj u v then some (some v) else none
  channels : ∀ v, some v ∈ node.man.channels ↔ adj u v
  events : ∀ e ∈ node.man.events, e = IomanEvent.newmsg
  rts : ∀ src, node.rts src = none
  numRts : node.numRts = 0
  cond : CondWaiter.exchange n ∉ node.cond

/-- All channels are registered at both ends, and nobody has called `comm_node_exchange_rt`; the last
messages of the handshakes may be under way. -/
structure ExchangeStart (bo : ByteOrder) (n : ℕ) (adj : ℤ → ℤ → Prop)
    [∀ u v, Decidable (adj u v)] (s : Exchange) : Prop where
  node : ∀ u : ℤ, 0 ≤ u ∧ u < n → Registered n adj (s.net.node u) u
  link : ∀ u v, adj u v → ∃ cu cv frames, (s.net.node u).man.heap (some v) = some cu ∧
    (s.net.node v).man.heap (some u) = some cv ∧ cu.peerId = v ∧
    cu.state = ChannelStatus.active ∧ cu.waitQueue = [] ∧
    LinkOk bo v cu.buffQueue (s.net.wire u v) cv frames ∧ ∀ f ∈ frames, f.IsPong
  call : ∀ u, s.call u = ExchangeCall.before
  bcasts : ∀ u, s.bcasts u = []

/-! ### What a link carries -/

/-- The bytes of the table of `src`. -/
def packedTable (bo : ByteOrder) (tables : ℤ → OverlayRtable) (src : ℤ) : List Byte :=
  match overlayRtablePack bo (tables src) with
  | Except.ok buff => buff
  | Except.error _ => []

/-- A message as `ioman_sys_send_msg` sends it. -/
def messageFrame (kind : MsgKind) (srcId dstId : ℤ) (body : List Byte) : Frame where
  info := { msgInfoCreate with
    kind := kind.toInt
    dstId := dstId
    srcId := srcId
    len := body.length }
  body := body

/-- The frames from `u` to `v` are tables of these sources, and messages that end a handshake if
there are `pongs`. -/
inductive Announces (bo : ByteOrder) (tables : ℤ → OverlayRtable) (pongs : Prop) (u v : ℤ) :
    List Frame → List ℤ → Prop
  | nil : Announces bo tables pongs u v [] []
  | pong {f : Frame} {frames : List Frame} {srcs : List ℤ} (hp : pongs) (hf : f.IsPong)
      (h : Announces bo tables pongs u v frames srcs) :
      Announces bo tables pongs u v (f :: frames) srcs
  | table {src : ℤ} {frames : List Frame} {srcs : List ℤ}
      (h : Announces bo tables pongs u v frames srcs) :
      Announces bo tables pongs u v
        (messageFrame MsgKind.rt u v (packedTable bo tables src) :: frames) (src :: srcs)

/-- The link from `u` to `v` carries the tables of these sources; nobody waits for its queue. -/
def CarriesTables (bo : ByteOrder) (tables : ℤ → OverlayRtable) (pongs : Prop) (net : Net)
    (u v : ℤ) (srcs : List ℤ) : Prop :=
  ∃ cu cv frames, (net.node u).man.heap (some v) = some cu ∧
    (net.node v).man.heap (some u) = some cv ∧ cu.state = ChannelStatus.active ∧
    cu.waitQueue = [] ∧ LinkOk bo v cu.buffQueue (net.wire u v) cv frames ∧
    Announces bo tables pongs u v frames srcs

/-- What the reader of a channel looks at stays as it is. -/
structure SameReader {κ : Type} (chan chan' : Channel κ) : Prop where
  state : chan'.state = chan.state
  currBuff : chan'.currBuff = chan.currBuff
  headerOff : chan'.headerOff = chan.headerOff
  headerBuff : chan'.headerBuff = chan.headerBuff
  msgInfo : chan'.msgInfo = chan.msgInfo

/-- These frames are appended to the queue of a channel. -/
structure Appends {κ : Type} (bo : ByteOrder) (chan chan' : Channel κ) (frames : List Frame) :
    Prop where
  reader : SameReader chan chan'
  waitQueue : chan'.waitQueue = chan.waitQueue
  queue : chan'.buffQueue = chan.buffQueue ++ frames.map fun f => channelPackBuff bo f.info f.body

section Links

variable {bo : ByteOrder} {n : ℕ} {tables : ℤ → OverlayRtable} {pongs : Prop} {net net' : Net}
  {u v x y : ℤ}
  {frames frames' : List Frame} {srcs srcs' : List ℤ} {κ : Type} {chan chan' : Channel κ}
  {queue : List MsgBuff} {wire : List Byte}

theorem Announces.append (h : Announces bo tables pongs u v frames srcs)
    (h' : Announces bo tables pongs u v frames' srcs') :
    Announces bo tables pongs u v (frames ++ frames') (srcs ++ srcs') := by
  induction h with
  | nil => exact h'
  | pong hp hf _ ih => exact ih.pong hp hf
  | table _ ih => exact ih.table

theorem Announces.of_pongs (hp : pongs) (h : ∀ f ∈ frames, f.IsPong) :
    Announces bo tables pongs u v frames [] := by
  induction frames with
  | nil => exact Announces.nil
  | cons f frames ih =>
      exact (ih fun g hg => h g (List.mem_cons_of_mem _ hg)).pong hp (h f List.mem_cons_self)

/-- Where tables are announced, there is a frame with a table. -/
theorem Announces.exists_rt (h : Announces bo tables pongs u v frames srcs) (hne : srcs ≠ []) :
    ∃ f ∈ frames, f.info.kind = MsgKind.rt.toInt := by
  induction h with
  | nil => exact absurd rfl hne
  | pong _ _ _ ih =>
      obtain ⟨f, hf, hkind⟩ := ih hne
      exact ⟨f, List.mem_cons_of_mem _ hf, hkind⟩
  | table _ _ => exact ⟨_, List.mem_cons_self, rfl⟩

theorem SameReader.refl (chan : Channel κ) : SameReader chan chan := ⟨rfl, rfl, rfl, rfl, rfl⟩

theorem SameReader.link {nodeId : ℤ} (h : SameReader chan chan')
    (hlink : LinkOk bo nodeId queue wire chan frames) :
    LinkOk bo nodeId queue wire chan' frames :=
  hlink.congr (by rw [h.state]) h.currBuff h.headerOff h.headerBuff h.msgInfo

theorem Appends.refl (chan : Channel κ) : Appends bo chan chan [] :=
  ⟨SameReader.refl chan, rfl, (List.append_nil _).symm⟩

theorem appends_send (f : Frame) (chan : Channel κ) :
    Appends bo chan (channelSendMsg bo f.info f.body chan) [f] :=
  ⟨⟨rfl, rfl, rfl, rfl, rfl⟩, rfl, rfl⟩

/-- Frames that are appended to the queue enter the link. -/
theorem Appends.link {nodeId : ℤ} {reader : Channel κ} (h : Appends bo chan chan' frames')
    (hok : ∀ f ∈ frames', f.Ok) (hlink : LinkOk bo nodeId chan.buffQueue wire reader frames) :
    LinkOk bo nodeId chan'.buffQueue wire reader (frames ++ frames') := by
  rw [h.queue]
  clear h
  generalize chan.buffQueue = queue at hlink
  induction frames' generalizing queue frames with
  | nil => simpa using hlink
  | cons f frames' ih =>
      have hfirst := hlink.append (hok f List.mem_cons_self)
        (unsent_channelPackBuff bo f.info f.body)
      have hrest := ih (fun g hg => hok g (List.mem_cons_of_mem _ hg)) _ hfirst
      simpa using hrest

/-! ### The links after a step of one node -/

variable {adj : ℤ → ℤ → Prop} {link link' : ℤ → ℤ → List ℤ} {node' : CommNode (Option ℤ)}
  {cu cv cv' chan₀ : Channel (Option ℤ)}

/-- A step of `u` concerns the links from and to `u`. -/
theorem links_of_node (hirrefl : ∀ u, ¬ adj u u)
    (hlink : ∀ x y, adj x y → CarriesTables bo tables pongs net x y (link x y))
    (hnode : ∀ x, x ≠ u → net'.node x = net.node x)
    (hwire : ∀ x y, x ≠ u → y ≠ u → net'.wire x y = net.wire x y)
    (hsame : ∀ x y, x ≠ u → y ≠ u → link' x y = link x y)
    (hout : ∀ x, x ≠ u → adj u x → CarriesTables bo tables pongs net' u x (link' u x))
    (hin : ∀ x, x ≠ u → adj x u → CarriesTables bo tables pongs net' x u (link' x u)) :
    ∀ x y, adj x y → CarriesTables bo tables pongs net' x y (link' x y) := by
  intro x y hxy
  have hne : x ≠ y := fun he => hirrefl x (by rw [← he] at hxy; exact hxy)
  by_cases hx : x = u
  · subst hx
    exact hout y hne.symm hxy
  by_cases hy : y = u
  · subst hy
    exact hin x hx hxy
  obtain ⟨cu, cv, frames, hcu, hcv, hrest⟩ := hlink x y hxy
  refine ⟨cu, cv, frames, ?_, ?_, ?_⟩
  · rw [hnode x hx]
    exact hcu
  · rw [hnode y hy]
    exact hcv
  · rw [hwire x y hx hy, hsame x y hx hy]
    exact hrest

/-- The node `u` appends frames to its queues. -/
theorem links_of_appends (hirrefl : ∀ u, ¬ adj u u)
    (hlink : ∀ x y, adj x y → CarriesTables bo tables pongs net x y (link x y))
    (happ : ∀ x chan, (net.node u).man.heap (some x) = some chan →
      (adj u x ∨ adj x u) → ∃ chan' frames, node'.man.heap (some x) = some chan' ∧
        Appends bo chan chan' frames ∧ (∀ f ∈ frames, f.Ok) ∧
        ∃ srcs, Announces bo tables pongs u x frames srcs ∧ link' u x = link u x ++ srcs)
    (hsame : ∀ x y, x ≠ u → link' x y = link x y) :
    ∀ x y, adj x y → CarriesTables bo tables pongs (net.setNode u node') x y (link' x y) := by
  refine links_of_node hirrefl hlink (fun x hx => Net.setNode_node_of_ne hx) (fun _ _ _ _ => rfl)
    (fun x y hx _ => hsame x y hx) (fun x hx hadj => ?_) fun x hx hadj => ?_
  · obtain ⟨cu, cv, frames, hcu, hcv, hstate, hwait, hok, hann⟩ := hlink u x hadj
    obtain ⟨cu', frames', hcu', happ, hok', srcs, hann', hnew⟩ := happ x cu hcu (Or.inl hadj)
    refine ⟨cu', cv, frames ++ frames', ?_, ?_, happ.reader.state.trans hstate,
      happ.waitQueue.trans hwait, happ.link hok' hok, ?_⟩
    · rw [Net.setNode_node_self]
      exact hcu'
    · rw [Net.setNode_node_of_ne hx]
      exact hcv
    · rw [hnew]
      exact hann.append hann'
  · obtain ⟨cu, cv, frames, hcu, hcv, hstate, hwait, hok, hann⟩ := hlink x u hadj
    obtain ⟨cv', _, hcv', happ, _⟩ := happ x cv hcv (Or.inr hadj)
    refine ⟨cu, cv', frames, ?_, ?_, hstate, hwait, happ.reader.link hok, ?_⟩
    · rw [Net.setNode_node_of_ne hx]
      exact hcu
    · rw [Net.setNode_node_self]
      exact hcv'
    · rw [hsame x u hx]
      exact hann

/-- The node `u` leaves its channels alone. -/
theorem links_of_heap (hirrefl : ∀ u, ¬ adj u u)
    (hlink : ∀ x y, adj x y → CarriesTables bo tables pongs net x y (link x y))
    (hheap : node'.man.heap = (net.node u).man.heap) :
    ∀ x y, adj x y → CarriesTables bo tables pongs (net.setNode u node') x y (link x y) := by
  refine links_of_appends hirrefl hlink (fun x chan hchan _ => ?_) fun _ _ _ => rfl
  refine ⟨chan, [], ?_, Appends.refl chan, nofun, [], Announces.nil, (List.append_nil _).symm⟩
  rw [hheap]
  exact hchan

/-- The node `u` reads its channel to `v`, and `wire` stays in the socket. -/
theorem links_of_reader (hirrefl : ∀ u, ¬ adj u u)
    (hlink : ∀ x y, adj x y → CarriesTables bo tables pongs net x y (link x y)) (hvu : v ≠ u)
    (hcv : (net.node u).man.heap (some v) = some cv) (hreads : Reads cv cv')
    (hcu : (net.node v).man.heap (some u) = some cu) (hstate : cu.state = ChannelStatus.active)
    (hwait : cu.waitQueue = []) (hok : LinkOk bo u cu.buffQueue wire cv' frames)
    (hann : Announces bo tables pongs v u frames (link' v u))
    (hsame : ∀ x y, ¬ (x = v ∧ y = u) → link' x y = link x y) :
    ∀ x y, adj x y → CarriesTables bo tables pongs ((net.setNode u ((net.node u).setMan
      ((net.node u).man.put (some v) cv'))).setWire v u wire) x y (link' x y) := by
  refine links_of_node hirrefl hlink (fun x hx => by simp [hx])
    (fun x y hx hy => Net.setWire_wire_of_ne fun he => hy he.2)
    (fun x y hx hy => hsame x y fun he => hy he.2) (fun x hx hadj => ?_) fun x hx hadj => ?_
  · obtain ⟨c, cx, frames', hc, hcx, hstate', hwait', hok', hann'⟩ := hlink u x hadj
    rw [hsame u x fun he => hvu he.1.symm]
    have hwire : ((net.setNode u ((net.node u).setMan ((net.node u).man.put (some v)
        cv'))).setWire v u wire).wire u x = net.wire u x :=
      Net.setWire_wire_of_ne fun he => hvu he.1.symm
    have hpeer : ((net.setNode u ((net.node u).setMan ((net.node u).man.put (some v)
        cv'))).setWire v u wire).node x = net.node x := by simp [hx]
    by_cases hxv : x = v
    · subst hxv
      obtain rfl : c = cv := Option.some.inj (hc.symm.trans hcv)
      refine ⟨cv', cx, frames', ?_, ?_, hreads.state.trans hstate', hreads.waitQueue.trans hwait',
        ?_, hann'⟩
      · rw [Net.node_changed]
        exact Ioman.heap_put_self
      · rw [hpeer]
        exact hcx
      · rw [hwire, hreads.buffQueue]
        exact hok'
    · refine ⟨c, cx, frames', ?_, ?_, hstate', hwait', ?_, hann'⟩
      · rw [Net.node_changed]
        exact (Ioman.heap_put_of_ne (some_ne_some hxv)).trans hc
      · rw [hpeer]
        exact hcx
      · rw [hwire]
        exact hok'
  · have hpeer : ((net.setNode u ((net.node u).setMan ((net.node u).man.put (some v)
        cv'))).setWire v u wire).node x = net.node x := by simp [hx]
    by_cases hxv : x = v
    · subst hxv
      refine ⟨cu, cv', frames, ?_, ?_, hstate, hwait, ?_, hann⟩
      · rw [hpeer]
        exact hcu
      · rw [Net.node_changed]
        exact Ioman.heap_put_self
      · rw [Net.setWire_wire_self]
        exact hok
    · obtain ⟨c, cx, frames', hc, hcx, hstate', hwait', hok', hann'⟩ := hlink x u hadj
      have hne : ¬ (x = v ∧ u = u) := fun he => hxv he.1
      rw [hsame x u hne]
      refine ⟨c, cx, frames', ?_, ?_, hstate', hwait', ?_, hann'⟩
      · rw [hpeer]
        exact hc
      · rw [Net.node_changed]
        exact (Ioman.heap_put_of_ne (some_ne_some hxv)).trans hcx
      · rw [Net.setWire_wire_of_ne hne]
        exact hok'

/-- The node `u` sends bytes of its queue to `v`. -/
theorem links_of_send (hirrefl : ∀ u, ¬ adj u u)
    (hlink : ∀ x y, adj x y → CarriesTables bo tables pongs net x y (link x y)) (hvu : v ≠ u)
    (hchan : (net.node u).man.heap (some v) = some chan₀) {sent : List Byte}
    (hsent : sent ++ queue.flatMap MsgBuff.unsent = chan₀.buffQueue.flatMap MsgBuff.unsent) :
    ∀ x y, adj x y → CarriesTables bo tables pongs ((net.setNode u ((net.node u).setMan
      ((net.node u).man.modify (some v) (Channel.setBuffQueue queue)))).setWire u v
        (net.wire u v ++ sent)) x y (link x y) := by
  refine links_of_node hirrefl hlink (fun x hx => by simp [hx])
    (fun x y hx hy => Net.setWire_wire_of_ne fun he => hx he.1) (fun _ _ _ _ => rfl)
    (fun x hx hadj => ?_) fun x hx hadj => ?_
  · obtain ⟨c, cx, frames', hc, hcx, hstate', hwait', hok', hann'⟩ := hlink u x hadj
    have hpeer : ((net.setNode u ((net.node u).setMan ((net.node u).man.modify (some v)
        (Channel.setBuffQueue queue)))).setWire u v (net.wire u v ++ sent)).node x =
          net.node x := by simp [hx]
    by_cases hxv : x = v
    · subst hxv
      obtain rfl : c = chan₀ := Option.some.inj (hc.symm.trans hchan)
      refine ⟨c.setBuffQueue queue, cx, frames', ?_, ?_, hstate', hwait', ?_, hann'⟩
      · rw [Net.node_changed]
        exact Ioman.heap_modify_eq hc
      · rw [hpeer]
        exact hcx
      · rw [Net.setWire_wire_self]
        exact hok'.send hsent
    · refine ⟨c, cx, frames', ?_, ?_, hstate', hwait', ?_, hann'⟩
      · rw [Net.node_changed]
        exact (Ioman.heap_modify_of_ne (some_ne_some hxv)).trans hc
      · rw [hpeer]
        exact hcx
      · rw [Net.setWire_wire_of_ne fun he => hxv he.2]
        exact hok'
  · obtain ⟨c, cx, frames', hc, hcx, hstate', hwait', hok', hann'⟩ := hlink x u hadj
    have hpeer : ((net.setNode u ((net.node u).setMan ((net.node u).man.modify (some v)
        (Channel.setBuffQueue queue)))).setWire u v (net.wire u v ++ sent)).node x =
          net.node x := by simp [hx]
    have hreader : ∃ cx', ((net.node u).man.modify (some v)
        (Channel.setBuffQueue queue)).heap (some x) = some cx' ∧ SameReader cx cx' := by
      by_cases hxv : x = v
      · subst hxv
        exact ⟨_, Ioman.heap_modify_eq hcx, rfl, rfl, rfl, rfl, rfl⟩
      · exact ⟨cx, (Ioman.heap_modify_of_ne (some_ne_some hxv)).trans hcx, SameReader.refl cx⟩
    obtain ⟨cx', hcx', hsame⟩ := hreader
    refine ⟨c, cx', frames', ?_, ?_, hstate', hwait', ?_, hann'⟩
    · rw [hpeer]
      exact hc
    · rw [Net.node_changed]
      exact hcx'
    · rw [Net.setWire_wire_of_ne fun he => hx he.1]
      exact hsame.link hok'

end Links

/-! ### What handling a message does -/

section Handling

variable {bo : ByteOrder} {n : ℕ} {tables : ℤ → OverlayRtable} {adj : ℤ → ℤ → Prop}
  [∀ u v, Decidable (adj u v)] {node node' : CommNode (Option ℤ)} {man' : Ioman (Option ℤ)}
  {u v src : ℤ} {c : Option ℤ} {now : ℚ} {info : MsgInfo} {body : List Byte}

/-- A message whose numbers fit is a frame. -/
theorem messageFrame_ok {kind : MsgKind} {srcId dstId : ℤ} (hkind : kind ≠ MsgKind.data)
    (hkind' : kind ≠ MsgKind.err) (hsrc : FitsInt srcId) (hdst : FitsInt dstId)
    (hlen : FitsInt body.length) : (messageFrame kind srcId dstId body).Ok where
  fits := by
    refine ⟨?_, hdst, hsrc, hlen, ?_, ?_⟩
    · show FitsInt kind.toInt
      cases kind <;> decide
    · show FitsInt (-1)
      decide
    · show FitsInt (-1)
      decide
  len := rfl
  kind h := hkind' (MsgKind.toInt_injective h)
  chunk h := absurd (MsgKind.toInt_injective h) hkind

theorem fitsInt_of_peer {i : ℤ} (h : 0 ≤ i ∧ i < commMaxPeer) : FitsInt i := by
  unfold commMaxPeer at h
  unfold FitsInt
  omega

/-- A step that does not concern the tables of a node: it may wake threads up, and report a message
that has been queued. -/
structure SameTables (node node' : CommNode (Option ℤ)) : Prop where
  nodeId : node'.nodeId = node.nodeId
  maxpeers : node'.man.maxpeers = node.man.maxpeers
  channelMap : node'.man.channelMap = node.man.channelMap
  channels : node'.man.channels = node.man.channels
  events : ∃ es, node'.man.events = node.man.events ++ es ∧ ∀ e ∈ es, e = IomanEvent.newmsg
  rts : node'.rts = node.rts
  numRts : node'.numRts = node.numRts
  cond : ∀ w ∈ node'.cond, w ∈ node.cond

theorem checkPeer_bounds {man : Ioman (Option ℤ)} {r : Unit}
    (h : man.checkPeer src = Except.ok r) : 0 ≤ src ∧ src < man.maxpeers := by
  unfold Ioman.checkPeer at h
  split at h
  · assumption
  · cases h

/-- What the handling of a message appends to the channels of a node. -/
def AppendsPongs (bo : ByteOrder) (node node' : CommNode (Option ℤ)) : Prop :=
  ∀ x chan, node.man.heap (some x) = some chan → ∃ chan' frames,
    node'.man.heap (some x) = some chan' ∧ Appends bo chan chan' frames ∧
    (∀ f ∈ frames, f.Ok) ∧ ∀ f ∈ frames, f.IsPong

/-- **The messages that end a handshake do not concern the tables.** -/
theorem commNodeHandleMsg_pong
    (h : commNodeHandleMsg bo now node c info body = Except.ok node')
    (hkind : info.kind = MsgKind.pong0.toInt ∨ info.kind = MsgKind.pong1.toInt)
    (hmap : ∀ x d, node.man.channelMap x = some d → d = some x)
    (hid : FitsInt node.nodeId) (hmax : node.man.maxpeers = commMaxPeer) :
    SameTables node node' ∧ AppendsPongs bo node node' := by
  have hnot : ∀ {kind : MsgKind}, info.kind = kind.toInt → kind = MsgKind.pong0 ∨
      kind = MsgKind.pong1 := fun he => hkind.imp
    (fun hk => MsgKind.toInt_injective (he.symm.trans hk))
    fun hk => MsgKind.toInt_injective (he.symm.trans hk)
  cases commNodeHandleMsg_cases h with
  | ping hkind' =>
      rcases hkind' with ⟨hk, _⟩ | ⟨hk, _⟩ <;> rcases hnot hk with he | he <;> cases he
  | rtNew hk => rcases hnot hk with he | he <;> cases he
  | rtKnown hk => rcases hnot hk with he | he <;> cases he
  | pong0 _ hrtt hsend =>
      obtain ⟨rtts, rfl⟩ := commNodeRttMeasureEnd_cases hrtt
      obtain ⟨d, hd, hsend⟩ := bind_eq_ok.1 hsend
      obtain ⟨_, hcheck, hd⟩ := bind_eq_ok.1 hd
      have hsrc : 0 ≤ info.srcId ∧ info.srcId < node.man.maxpeers := checkPeer_bounds hcheck
      split at hd
      · cases hd
      rename_i hmapped
      cases hd
      cases hsend
      obtain rfl := hmap _ _ hmapped
      refine ⟨⟨rfl, rfl, rfl, rfl, ⟨[IomanEvent.newmsg], rfl, by simp⟩, rfl, rfl, fun _ h => h⟩,
        fun x chan hchan => ?_⟩
      by_cases hx : x = info.srcId
      · subst hx
        refine ⟨_, [messageFrame MsgKind.pong1 node.nodeId info.srcId []], Ioman.heap_modify_eq hchan,
          appends_send (messageFrame MsgKind.pong1 node.nodeId info.srcId []) chan, ?_, ?_⟩
        · intro f hf
          rw [List.mem_singleton.1 hf]
          rw [hmax] at hsrc
          exact messageFrame_ok (by decide) (by decide) hid (fitsInt_of_peer hsrc) (by decide)
        · intro f hf
          rw [List.mem_singleton.1 hf]
          exact Or.inr rfl
      · exact ⟨chan, [], (Ioman.heap_modify_of_ne (some_ne_some hx)).trans hchan,
          Appends.refl chan, nofun, nofun⟩
  | pong1 _ hrtt hnotify =>
      obtain ⟨rtts, rfl⟩ := commNodeRttMeasureEnd_cases hrtt
      obtain ⟨chan₀, hget, hnotify⟩ := bind_eq_ok.1 hnotify
      obtain ⟨chan₁, hmake, hnotify⟩ := bind_eq_ok.1 hnotify
      obtain ⟨_, _, hmake⟩ := bind_eq_ok.1 hmake
      cases hmake
      cases hnotify
      refine ⟨⟨rfl, rfl, rfl, rfl, ⟨[], (List.append_nil _).symm, nofun⟩, rfl, rfl, nofun⟩,
        fun x chan hchan => ?_⟩
      have hget := Ioman.get_eq_ok.1 hget
      by_cases hx : some x = c
      · subst hx
        obtain rfl : chan₀ = chan := Option.some.inj (hget.symm.trans hchan)
        exact ⟨_, [], Ioman.heap_put_self,
          ⟨⟨rfl, rfl, rfl, rfl, rfl⟩, rfl, (List.append_nil _).symm⟩, nofun, nofun⟩
      · exact ⟨chan, [], (Ioman.heap_put_of_ne hx).trans hchan, Appends.refl chan, nofun, nofun⟩

/-- **A table is stored, counted and broadcast when the node does not have it.** -/
theorem commNodeHandleMsg_rt {rt : OverlayRtable}
    (h : commNodeHandleMsg bo now node c info body = Except.ok node')
    (hkind : info.kind = MsgKind.rt.toInt)
    (hunpack : ∃ rest, overlayRtableCreateByUnpack bo body = Except.ok (rt, rest)) :
    (node.rts rt.srcpid = none ∧ ∃ maxWidth minWidth, node' = { node with
        man := iomanBcastMsg node.man MsgKind.rt body
        rts := Function.update node.rts rt.srcpid (some rt)
        numRts := node.numRts + 1
        maxWidth := maxWidth
        minWidth := minWidth
        cond := [] }) ∨
      (node.rts rt.srcpid ≠ none ∧ node' = node) := by
  obtain ⟨rest, hunpack⟩ := hunpack
  have hnot : ∀ {kind : MsgKind}, info.kind = kind.toInt → kind = MsgKind.rt :=
    fun he => MsgKind.toInt_injective (he.symm.trans hkind)
  cases commNodeHandleMsg_cases h with
  | ping hkind' => rcases hkind' with ⟨hk, _⟩ | ⟨hk, _⟩ <;> cases hnot hk
  | pong0 hk => cases hnot hk
  | pong1 hk => cases hnot hk
  | rtNew _ hrt =>
      obtain ⟨rt', rest', hrt', ⟨_, hnone, maxWidth, minWidth, rfl⟩ | ⟨hfalse, _⟩⟩ :=
        commNodeRegisterRt_cases hrt
      · obtain ⟨rfl, _⟩ := Prod.mk.inj (Except.ok.inj (hrt'.symm.trans hunpack))
        exact Or.inl ⟨hnone, maxWidth, minWidth, rfl⟩
      · cases hfalse
  | rtKnown _ hrt =>
      obtain ⟨rt', rest', hrt', ⟨hfalse, _⟩ | ⟨_, hsome, rfl⟩⟩ := commNodeRegisterRt_cases hrt
      · cases hfalse
      · obtain ⟨rfl, _⟩ := Prod.mk.inj (Except.ok.inj (hrt'.symm.trans hunpack))
        exact Or.inr ⟨hsome, rfl⟩

theorem iomanHandleEventBcastmsg_pids {man : Ioman (Option ℤ)} {kind : MsgKind}
    (hmap : ∀ v, man.channelMap v = if adj u v then some (some v) else none)
    (hid : man.nodeId = u) :
    (∃ heap, iomanHandleEventBcastmsg bo man kind body = { man with heap := heap }) ∧
      ∀ v chan, man.heap (some v) = some chan →
        (iomanHandleEventBcastmsg bo man kind body).heap (some v) =
          some (if adj u v ∧ ∃ pid ∈ List.range man.maxpeers, v = (pid : ℤ) then
            channelSendMsg bo (messageFrame kind u v body).info body chan else chan) := by
  unfold iomanHandleEventBcastmsg
  have hnodup : (List.range man.maxpeers).Nodup := List.nodup_range
  generalize List.range man.maxpeers = pids at hnodup ⊢
  induction pids generalizing man with
  | nil =>
      refine ⟨⟨man.heap, rfl⟩, fun v chan hchan => ?_⟩
      rw [if_neg (by simp)]
      exact hchan
  | cons pid pids ih =>
      obtain ⟨hpid, hnodup⟩ := List.nodup_cons.1 hnodup
      rw [List.foldl_cons, hmap pid]
      by_cases hadj : adj u pid
      · rw [if_pos hadj]
        dsimp only
        have hmap' : ∀ v, (iomanSysSendMsg bo man (some (pid : ℤ)) kind pid body).channelMap v =
            if adj u v then some (some v) else none := hmap
        obtain ⟨⟨heap, hman⟩, hheap⟩ := ih hmap' hid hnodup
        refine ⟨⟨heap, hman⟩, fun v chan hchan => ?_⟩
        by_cases hv : v = pid
        · subst hv
          have hsent : (iomanSysSendMsg bo man (some (pid : ℤ)) kind pid body).heap
              (some (pid : ℤ)) = some (channelSendMsg bo (messageFrame kind u pid body).info
                body chan) := by
            rw [← hid]
            exact Ioman.heap_modify_eq hchan
          rw [hheap _ _ hsent, if_neg, if_pos ⟨hadj, pid, List.mem_cons_self, rfl⟩]
          rintro ⟨_, p, hp, he⟩
          exact hpid (by rw [Int.natCast_inj.1 he]; exact hp)
        · have hsame : (iomanSysSendMsg bo man (some (pid : ℤ)) kind pid body).heap (some v) =
              some chan := (Ioman.heap_modify_of_ne (some_ne_some hv)).trans hchan
          rw [hheap _ _ hsame]
          simp [hv]
      · rw [if_neg hadj]
        dsimp only
        obtain ⟨hman, hheap⟩ := ih hmap hid hnodup
        refine ⟨hman, fun v chan hchan => ?_⟩
        rw [hheap v chan hchan]
        by_cases hv : v = pid
        · subst hv
          simp [hadj]
        · simp [hv]

/-- **A broadcast is appended to the queue of every registered peer.** -/
theorem iomanHandleEventBcastmsg_sends {man : Ioman (Option ℤ)} {kind : MsgKind}
    (hmap : ∀ v, man.channelMap v = if adj u v then some (some v) else none)
    (hid : man.nodeId = u) (hrange : ∀ v, adj u v → 0 ≤ v ∧ v < man.maxpeers) :
    (∃ heap, iomanHandleEventBcastmsg bo man kind body = { man with heap := heap }) ∧
      ∀ v chan, man.heap (some v) = some chan →
        (iomanHandleEventBcastmsg bo man kind body).heap (some v) = some (if adj u v then
          channelSendMsg bo (messageFrame kind u v body).info body chan else chan) := by
  obtain ⟨hman, hheap⟩ := @iomanHandleEventBcastmsg_pids bo adj _ u body man kind hmap hid
  refine ⟨hman, fun v chan hchan => ?_⟩
  rw [hheap v chan hchan]
  congr 1
  refine if_congr ⟨And.left, fun hadj => ⟨hadj, v.toNat, ?_⟩⟩ rfl rfl
  have hv := hrange v hadj
  exact ⟨List.mem_range.2 (by omega), by omega⟩

end Handling

/-! ### The flooding that the exchange refines -/

/-- The node `u` in the flooding: it knows the sources of the tables that it stores, its outbox are
the broadcasts in its notify pipe, and `log` are those that it has written. -/
structure NodeSim (bo : ByteOrder) (n : ℕ) (adj : ℤ → ℤ → Prop) [∀ u v, Decidable (adj u v)]
    (tables : ℤ → OverlayRtable) (node : CommNode (Option ℤ)) (call : ExchangeCall) (u : ℤ)
    (known : Finset ℤ) (outbox log : List ℤ) : Prop where
  nodeId : node.nodeId = u
  maxpeers : node.man.maxpeers = commMaxPeer
  channelMap : ∀ v, node.man.channelMap v = if adj u v then some (some v) else none
  channels : ∀ v, some v ∈ node.man.channels → adj u v
  events : ∀ e ∈ node.man.events, e = IomanEvent.newmsg ∨
    ∃ buff, e = IomanEvent.bcastmsg MsgKind.rt buff
  outbox : node.man.events.filterMap IomanEvent.rtBody = outbox.map (packedTable bo tables)
  rts : ∀ src, node.rts src = if src ∈ known then some (tables src) else none
  own : u ∈ known ↔ call ≠ ExchangeCall.before
  told : u ∈ log ↔ call.told = true
  stored : ∀ buff, call = ExchangeCall.stored buff → buff = packedTable bo tables u
  count : node.numRts + call.uncounted = known.card
  asleep : CondWaiter.exchange n ∈ node.cond → call = ExchangeCall.waiting ∧ node.numRts < n

/-- The network and the flooding that it refines. -/
structure ExchangeSim (bo : ByteOrder) (n : ℕ) (adj : ℤ → ℤ → Prop) [∀ u v, Decidable (adj u v)]
    (tables : ℤ → OverlayRtable) (pongs : Prop) (s : Exchange) (a : Flood ℤ ℤ) : Prop where
  flood : FloodInv adj id a
  range : ∀ u src, src ∈ a.known u → 0 ≤ src ∧ src < n
  node : ∀ u : ℤ, 0 ≤ u ∧ u < n → NodeSim bo n adj tables (s.net.node u) (s.call u) u (a.known u)
    (a.outbox u) (a.log u)
  link : ∀ u v, adj u v → CarriesTables bo tables pongs s.net u v (a.link u v)
  bcasts : ∀ u, s.bcasts u = (a.log u).map (packedTable bo tables)

section Sim

variable {bo : ByteOrder} {n : ℕ} {tables : ℤ → OverlayRtable} {pongs : Prop} {adj : ℤ → ℤ → Prop}
  [∀ u v, Decidable (adj u v)] {node node' : CommNode (Option ℤ)} {s s' : Exchange}
  {a a' : Flood ℤ ℤ} {net' : Net} {u v src : ℤ} {call call' : ExchangeCall} {known : Finset ℤ}
  {outbox log : List ℤ} {buff : List Byte}

theorem packedTable_eq (h : TablesOk bo n tables) (hsrc : 0 ≤ src ∧ src < n) :
    overlayRtablePack bo (tables src) = Except.ok (packedTable bo tables src) ∧
      ∃ rest, overlayRtableCreateByUnpack bo (packedTable bo tables src) =
        Except.ok (tables src, rest) := by
  obtain ⟨buff, hpack, _, hunpack⟩ := overlayRtableCreateByUnpack_pack bo (h.complete src hsrc)
  have heq : packedTable bo tables src = buff := by
    rw [packedTable, hpack]
  refine ⟨heq ▸ hpack, [], ?_⟩
  rw [heq]
  simpa using hunpack []

theorem newRtBodies_append {man man' : Ioman (Option ℤ)} {es : List (IomanEvent (Option ℤ))}
    (h : man'.events = man.events ++ es) : newRtBodies man man' = es.filterMap IomanEvent.rtBody := by
  rw [newRtBodies, h, List.drop_left]

theorem newRtBodies_of_le {man man' : Ioman (Option ℤ)}
    (h : man'.events.length ≤ man.events.length) : newRtBodies man man' = [] := by
  rw [newRtBodies, List.drop_of_length_le h]
  rfl

theorem filterMap_newmsg {es : List (IomanEvent (Option ℤ))}
    (h : ∀ e ∈ es, e = IomanEvent.newmsg) : es.filterMap IomanEvent.rtBody = [] := by
  refine List.filterMap_eq_nil_iff.2 fun e he => ?_
  rw [h e he]
  rfl

/-- A step that does not concern the tables. -/
theorem NodeSim.of_same (h : NodeSim bo n adj tables node call u known outbox log)
    (hsame : SameTables node node') : NodeSim bo n adj tables node' call u known outbox log := by
  obtain ⟨es, hevents, hnew⟩ := hsame.events
  refine ⟨hsame.nodeId.trans h.nodeId, hsame.maxpeers.trans h.maxpeers, fun v => ?_, fun v hv => ?_,
    fun e he => ?_, ?_, fun src => ?_, h.own, h.told, h.stored, ?_, fun hw => ?_⟩
  · rw [hsame.channelMap]
    exact h.channelMap v
  · rw [hsame.channels] at hv
    exact h.channels v hv
  · rw [hevents] at he
    rcases List.mem_append.1 he with he | he
    · exact h.events e he
    · exact Or.inl (hnew e he)
  · rw [hevents, List.filterMap_append, filterMap_newmsg hnew, List.append_nil]
    exact h.outbox
  · rw [hsame.rts]
    exact h.rts src
  · rw [hsame.numRts]
    exact h.count
  · rw [hsame.numRts]
    exact h.asleep (hsame.cond _ hw)

/-- A step of the node `u` that the flooding takes as well, or does not notice. -/
theorem ExchangeSim.of_node (h : ExchangeSim bo n adj tables pongs s a)
    (hstep : a' = a ∨ FloodStep adj id a a') (hnode : ∀ x, x ≠ u → net'.node x = s.net.node x)
    (hsame : ∀ x, x ≠ u → a'.known x = a.known x ∧ a'.outbox x = a.outbox x ∧
      a'.log x = a.log x)
    (hrange : ∀ src ∈ a'.known u, src ∈ a.known u ∨ (0 ≤ src ∧ src < n))
    (hsim : NodeSim bo n adj tables (net'.node u) call' u (a'.known u) (a'.outbox u) (a'.log u))
    (hlink : ∀ x y, adj x y → CarriesTables bo tables pongs net' x y (a'.link x y))
    (hlog : (a'.log u).map (packedTable bo tables) = (a.log u).map (packedTable bo tables) ++
      newRtBodies (s.net.node u).man (net'.node u).man) :
    ExchangeSim bo n adj tables pongs ((s.move u net').goto u call') a' where
  flood := by
    rcases hstep with rfl | hstep
    · exact h.flood
    · exact hstep.inv h.flood
  range x src hsrc := by
    by_cases hx : x = u
    · subst hx
      exact (hrange src hsrc).elim (h.range x src) id
    · rw [(hsame x hx).1] at hsrc
      exact h.range x src hsrc
  node x hx := by
    by_cases hxu : x = u
    · subst hxu
      have hcall : ((s.move x net').goto x call').call x = call' := Function.update_self _ _ _
      rw [hcall]
      exact hsim
    · have hcall : ((s.move u net').goto u call').call x = s.call x :=
        Function.update_of_ne hxu _ _
      obtain ⟨hknown, hout, hlog⟩ := hsame x hxu
      rw [hcall, hknown, hout, hlog]
      have hnet : ((s.move u net').goto u call').net.node x = s.net.node x := hnode x hxu
      rw [hnet]
      exact h.node x hx
  link := hlink
  bcasts x := by
    by_cases hx : x = u
    · subst hx
      refine (Function.update_self _ _ _).trans ?_
      rw [h.bcasts, hlog]
    · refine (Function.update_of_ne hx _ _).trans ?_
      rw [h.bcasts, (hsame x hx).2.2]

theorem goto_self (s : Exchange) (u : ℤ) (net : Net) :
    (s.move u net).goto u (s.call u) = s.move u net := by
  unfold Exchange.goto Exchange.move
  dsimp only
  rw [Function.update_eq_self]

/-! ### The steps of the call -/

theorem ExchangeSim.store (h : ExchangeSim bo n adj tables pongs s a)
    (hpeers : PeersConnected n adj) (htables : TablesOk bo n tables) (hu : 0 ≤ u ∧ u < n)
    (hcall : s.call u = ExchangeCall.before)
    (hstore : commNodeStoreRt bo (s.net.node u) (tables u) = Except.ok (buff, node')) :
    FloodStep adj id a (a.learn u u) ∧ ExchangeSim bo n adj tables pongs
      ((s.move u (s.net.setNode u node')).goto u (ExchangeCall.stored buff)) (a.learn u u) := by
  have hsim := h.node u hu
  rw [hcall] at hsim
  obtain ⟨hpack, _, _, rfl⟩ := commNodeStoreRt_cases hstore
  have hnew : u ∉ a.known u := fun hk => hsim.own.1 hk rfl
  have hstep : FloodStep adj id a (a.learn u u) := @FloodStep.learn ℤ ℤ _ _ adj _ id a u hnew
  refine ⟨hstep, h.of_node (Or.inr hstep) (fun x hx => Net.setNode_node_of_ne hx)
    (fun x hx => ⟨Function.update_of_ne hx _ _, rfl, rfl⟩) (fun src hsrc => ?_) ?_
    (links_of_heap hpeers.irrefl h.link rfl) ?_⟩
  · rcases Flood.mem_learn.1 hsrc with ⟨_, rfl⟩ | hsrc
    · exact Or.inr hu
    · exact Or.inl hsrc
  · rw [Net.setNode_node_self]
    have hknown : (a.learn u u).known u = insert u (a.known u) := Function.update_self _ _ _
    rw [hknown]
    refine ⟨hsim.nodeId, hsim.maxpeers, hsim.channelMap, hsim.channels, hsim.events, hsim.outbox,
      fun src => ?_, ⟨nofun, fun _ => Finset.mem_insert_self u _⟩, hsim.told, fun buff' hb => ?_, ?_,
      fun hw => ?_⟩
    · dsimp only
      rw [htables.srcpid u hu]
      by_cases hsrc : src = u
      · subst hsrc
        rw [Function.update_self, if_pos (Finset.mem_insert_self _ _)]
      · rw [Function.update_of_ne hsrc, hsim.rts src]
        simp [hsrc]
    · cases hb
      rw [packedTable, hpack]
    · rw [Finset.card_insert_of_notMem hnew, ← hsim.count]
      rfl
    · exact absurd (hsim.asleep hw).1 nofun
  · rw [Net.setNode_node_self, newRtBodies_of_le le_rfl, List.append_nil]
    rfl

theorem ExchangeSim.bcast (h : ExchangeSim bo n adj tables pongs s a)
    (hpeers : PeersConnected n adj) (hu : 0 ≤ u ∧ u < n) (hcall : s.call u = ExchangeCall.stored buff) :
    FloodStep adj id a (a.announce u u) ∧ ExchangeSim bo n adj tables pongs
      ((s.move u (s.net.setNode u (commNodeBcastMsg (s.net.node u) MsgKind.rt buff))).goto u
        ExchangeCall.sent) (a.announce u u) := by
  have hsim := h.node u hu
  rw [hcall] at hsim
  have hknown : u ∈ a.known u := hsim.own.2 nofun
  have hnew : u ∉ a.log u := fun hl => nomatch hsim.told.1 hl
  have hbuff : buff = packedTable bo tables u := hsim.stored buff rfl
  have hstep : FloodStep adj id a (a.announce u u) :=
    @FloodStep.announce ℤ ℤ _ _ adj _ id a u hknown hnew
  have hevents : (commNodeBcastMsg (s.net.node u) MsgKind.rt buff).man.events =
      (s.net.node u).man.events ++ [IomanEvent.bcastmsg MsgKind.rt buff] := rfl
  have hout : (a.announce u u).outbox u = a.outbox u ++ [u] := Function.update_self _ _ _
  have hlog : (a.announce u u).log u = a.log u ++ [u] := Function.update_self _ _ _
  refine ⟨hstep, h.of_node (Or.inr hstep) (fun x hx => Net.setNode_node_of_ne hx)
    (fun x hx => ⟨rfl, Function.update_of_ne hx _ _, Function.update_of_ne hx _ _⟩)
    (fun src hsrc => Or.inl hsrc) ?_ (links_of_heap hpeers.irrefl h.link rfl) ?_⟩
  · rw [Net.setNode_node_self, hout, hlog]
    refine ⟨hsim.nodeId, hsim.maxpeers, hsim.channelMap, hsim.channels, fun e he => ?_, ?_,
      hsim.rts, ⟨nofun, fun _ => hknown⟩, ⟨fun _ => rfl, fun _ => by simp⟩, nofun, hsim.count,
      fun hw => ?_⟩
    · rw [hevents] at he
      rcases List.mem_append.1 he with he | he
      · exact hsim.events e he
      · exact Or.inr ⟨buff, List.mem_singleton.1 he⟩
    · rw [hevents, List.filterMap_append, hsim.outbox, hbuff, List.map_append]
      rfl
    · exact absurd (hsim.asleep hw).1 nofun
  · rw [Net.setNode_node_self, newRtBodies_append hevents, hlog, hbuff, List.map_append]
    rfl

/-- A step of the call that leaves the I/O manager alone. -/
theorem ExchangeSim.own_step (h : ExchangeSim bo n adj tables pongs s a)
    (hpeers : PeersConnected n adj) (hman : node'.man = (s.net.node u).man)
    (hsim : NodeSim bo n adj tables node' call' u (a.known u) (a.outbox u) (a.log u)) :
    ExchangeSim bo n adj tables pongs ((s.move u (s.net.setNode u node')).goto u call') a := by
  refine h.of_node (Or.inl rfl) (fun x hx => Net.setNode_node_of_ne hx) (fun _ _ => ⟨rfl, rfl, rfl⟩)
    (fun _ hsrc => Or.inl hsrc) ?_ (links_of_heap hpeers.irrefl h.link (by rw [hman])) ?_
  · rw [Net.setNode_node_self]
    exact hsim
  · rw [Net.setNode_node_self, newRtBodies_of_le (by rw [hman]), List.append_nil]

theorem ExchangeSim.count (h : ExchangeSim bo n adj tables pongs s a)
    (hpeers : PeersConnected n adj) (hu : 0 ≤ u ∧ u < n) (hcall : s.call u = ExchangeCall.sent) :
    ExchangeSim bo n adj tables pongs ((s.move u (s.net.setNode u
      (commNodeCountOwnRt (s.net.node u)))).goto u ExchangeCall.waiting) a := by
  have hsim := h.node u hu
  rw [hcall] at hsim
  refine h.own_step hpeers rfl ⟨hsim.nodeId, hsim.maxpeers, hsim.channelMap, hsim.channels,
    hsim.events, hsim.outbox, hsim.rts, ⟨nofun, fun _ => hsim.own.2 nofun⟩,
    ⟨fun _ => rfl, fun _ => hsim.told.2 rfl⟩, nofun, hsim.count, fun hw => ?_⟩
  exact absurd (hsim.asleep hw).1 nofun

theorem ExchangeSim.wait (h : ExchangeSim bo n adj tables pongs s a) (hpeers : PeersConnected n adj)
    (hu : 0 ≤ u ∧ u < n) (hcall : s.call u = ExchangeCall.waiting)
    (hawake : CondWaiter.exchange n ∉ (s.net.node u).cond) {ret : Bool}
    (hwait : commNodeExchangeWait (s.net.node u) n = (ret, node')) :
    ExchangeSim bo n adj tables pongs ((s.move u (s.net.setNode u node')).goto u
      (if ret then ExchangeCall.done else ExchangeCall.waiting)) a := by
  have hsim := h.node u hu
  rw [hcall] at hsim
  unfold commNodeExchangeWait at hwait
  split at hwait
  · rename_i hlt
    cases hwait
    exact h.own_step hpeers rfl ⟨hsim.nodeId, hsim.maxpeers, hsim.channelMap, hsim.channels,
      hsim.events, hsim.outbox, hsim.rts, ⟨nofun, fun _ => hsim.own.2 nofun⟩,
      ⟨fun _ => rfl, fun _ => hsim.told.2 rfl⟩, nofun, hsim.count, fun _ => ⟨rfl, hlt⟩⟩
  · cases hwait
    exact h.own_step hpeers rfl ⟨hsim.nodeId, hsim.maxpeers, hsim.channelMap, hsim.channels,
      hsim.events, hsim.outbox, hsim.rts, ⟨nofun, fun _ => hsim.own.2 nofun⟩,
      ⟨fun _ => rfl, fun _ => hsim.told.2 rfl⟩, nofun, hsim.count, fun hw => absurd hw hawake⟩

/-! ### The steps of the I/O thread -/

/-- A step of the I/O thread of `u`. -/
theorem ExchangeSim.io_step (h : ExchangeSim bo n adj tables pongs s a)
    (hstep : a' = a ∨ FloodStep adj id a a') (hnode : ∀ x, x ≠ u → net'.node x = s.net.node x)
    (hsame : ∀ x, x ≠ u → a'.known x = a.known x ∧ a'.outbox x = a.outbox x ∧
      a'.log x = a.log x)
    (hrange : ∀ src ∈ a'.known u, src ∈ a.known u ∨ (0 ≤ src ∧ src < n))
    (hsim : NodeSim bo n adj tables (net'.node u) (s.call u) u (a'.known u) (a'.outbox u)
      (a'.log u))
    (hlink : ∀ x y, adj x y → CarriesTables bo tables pongs net' x y (a'.link x y))
    (hlog : (a'.log u).map (packedTable bo tables) = (a.log u).map (packedTable bo tables) ++
      newRtBodies (s.net.node u).man (net'.node u).man) :
    ExchangeSim bo n adj tables pongs (s.move u net') a' := by
  rw [← goto_self]
  exact h.of_node hstep hnode hsame hrange hsim hlink hlog

omit [∀ u v, Decidable (adj u v)] in
theorem packedTable_frame_ok (hn : n ≤ commMaxPeer) (hpeers : PeersConnected n adj)
    (htables : TablesOk bo n tables) (hadj : adj u v)
    (hsrc : 0 ≤ src ∧ src < n) :
    (messageFrame MsgKind.rt u v (packedTable bo tables src)).Ok := by
  have hbound : ∀ {x y : ℤ}, adj x y → 0 ≤ x ∧ x < commMaxPeer := by
    intro x y hxy
    have := hpeers.range hxy
    omega
  exact messageFrame_ok (by decide) (by decide) (fitsInt_of_peer (hbound hadj))
    (fitsInt_of_peer (hbound (hpeers.symm hadj)))
    (htables.packLen src hsrc _ (packedTable_eq htables hsrc).1)

theorem ExchangeSim.event (h : ExchangeSim bo n adj tables pongs s a) (hn : n ≤ commMaxPeer)
    (hpeers : PeersConnected n adj) (htables : TablesOk bo n tables) (hu : 0 ≤ u ∧ u < n)
    {man' : Ioman (Option ℤ)} (hevent : iomanHandleEvent bo (s.net.node u).man = Except.ok man') :
    ∃ a', (a' = a ∨ FloodStep adj id a a') ∧ ExchangeSim bo n adj tables pongs
      (s.move u (s.net.setNode u ((s.net.node u).setMan man'))) a' := by
  have hsim := h.node u hu
  unfold iomanHandleEvent at hevent
  split at hevent
  · cases hevent
  rename_i event events hevents
  have hall := hsim.events
  have hout := hsim.outbox
  rw [hevents] at hall hout
  have hrest : ∀ e ∈ events, e = IomanEvent.newmsg ∨
      ∃ buff, e = IomanEvent.bcastmsg MsgKind.rt buff :=
    fun e he => hall e (List.mem_cons_of_mem _ he)
  rcases hall event List.mem_cons_self with rfl | ⟨buff, rfl⟩
  · -- the event reports a message
    cases hevent
    refine ⟨a, Or.inl rfl, h.io_step (Or.inl rfl) (fun x hx => Net.setNode_node_of_ne hx)
      (fun _ _ => ⟨rfl, rfl, rfl⟩) (fun _ hsrc => Or.inl hsrc) ?_
      (links_of_heap hpeers.irrefl h.link rfl) ?_⟩
    · rw [Net.setNode_node_self]
      exact ⟨hsim.nodeId, hsim.maxpeers, hsim.channelMap, hsim.channels, hrest, hout, hsim.rts,
        hsim.own, hsim.told, hsim.stored, hsim.count, hsim.asleep⟩
    · rw [Net.setNode_node_self, newRtBodies_of_le, List.append_nil]
      rw [hevents]
      exact Nat.le_succ _
  · -- the event is a broadcast
    cases hevent
    obtain ⟨src, rest, hsrc, hbuff, hmap⟩ : ∃ src rest, a.outbox u = src :: rest ∧
        packedTable bo tables src = buff ∧
        rest.map (packedTable bo tables) = events.filterMap IomanEvent.rtBody :=
      List.map_eq_cons_iff.1 hout.symm
    have hknown : src ∈ a.known u :=
      h.flood.logged (h.flood.outbox (by rw [hsrc]; exact List.mem_cons_self))
    have hstep : FloodStep adj id a (a.send adj u src rest) := FloodStep.send hsrc
    obtain ⟨⟨heap, hman⟩, hheap⟩ := @iomanHandleEventBcastmsg_sends bo adj _ u buff
      { (s.net.node u).man with events := events } MsgKind.rt hsim.channelMap hsim.nodeId
      fun v hadj => by
        have hv := hpeers.range (hpeers.symm hadj)
        have hmax : (s.net.node u).man.maxpeers = commMaxPeer := hsim.maxpeers
        show 0 ≤ v ∧ v < ((s.net.node u).man.maxpeers : ℤ)
        rw [hmax]
        omega
    have hsent : (a.send adj u src rest).outbox u = rest := Function.update_self _ _ _
    refine ⟨_, Or.inr hstep, h.io_step (Or.inr hstep) (fun x hx => Net.setNode_node_of_ne hx)
      (fun x hx => ⟨rfl, Function.update_of_ne hx _ _, rfl⟩) (fun _ hs => Or.inl hs) ?_
      (links_of_appends hpeers.irrefl h.link (fun x chan hchan hadj => ?_) fun x y hx => ?_) ?_⟩
    · rw [Net.setNode_node_self, hsent, hman]
      exact ⟨hsim.nodeId, hsim.maxpeers, hsim.channelMap, hsim.channels, hrest, hmap.symm,
        hsim.rts, hsim.own, hsim.told, hsim.stored, hsim.count, hsim.asleep⟩
    · have hux : adj u x := hadj.elim id hpeers.symm
      refine ⟨_, [messageFrame MsgKind.rt u x buff], hheap x chan hchan, ?_, ?_, [src], ?_, ?_⟩
      · rw [if_pos hux]
        exact appends_send (messageFrame MsgKind.rt u x buff) chan
      · intro f hf
        rw [List.mem_singleton.1 hf, ← hbuff]
        exact packedTable_frame_ok hn hpeers htables hux (h.range u src hknown)
      · rw [← hbuff]
        exact Announces.nil.table
      · exact if_pos ⟨rfl, hux⟩
    · exact if_neg fun he => hx he.1
    · rw [Net.setNode_node_self, newRtBodies_of_le, List.append_nil]
      · rfl
      · rw [show ((s.net.node u).setMan (iomanHandleEventBcastmsg bo
          { (s.net.node u).man with events := events } MsgKind.rt buff)).man.events = events by
            rw [hman]; rfl, hevents]
        exact Nat.le_succ _

theorem ExchangeSim.write (h : ExchangeSim bo n adj tables pongs s a)
    (hpeers : PeersConnected n adj) (hu : 0 ≤ u ∧ u < n) {sent : List Byte}
    (hwrite : NetWrite bo u v s.net sent net') : ExchangeSim bo n adj tables pongs (s.move u net') a := by
  have hsim := h.node u hu
  have hadj : adj u v := by
    obtain ⟨hready, _⟩ := hwrite
    exact hsim.channels v hready.channel
  obtain ⟨cu, cv, frames, hcu, hcv, hstate, hwait, _⟩ := h.link u v hadj
  have hvu : v ≠ u := fun he => hpeers.irrefl u (by rw [he] at hadj; exact hadj)
  obtain ⟨node₁, rfl, ⟨hsetup, _⟩ | ⟨_, man', rfl, hrun⟩⟩ := hwrite.outcome hcu
  · rw [hstate] at hsetup
    cases hsetup
  obtain ⟨queue, rfl, hflat⟩ := hrun.of_idle hcu hwait
  refine h.io_step (Or.inl rfl) (fun x hx => by simp [hx]) (fun _ _ => ⟨rfl, rfl, rfl⟩)
    (fun _ hsrc => Or.inl hsrc) ?_ (links_of_send hpeers.irrefl h.link hvu hcu hflat) ?_
  · rw [Net.node_changed]
    exact hsim.of_same ⟨rfl, rfl, rfl, rfl, ⟨[], (List.append_nil _).symm, nofun⟩, rfl, rfl,
      fun _ hw => hw⟩
  · rw [Net.node_changed, newRtBodies_of_le, List.append_nil]
    exact le_rfl

/-- The handling of a message whose bytes have been read, by a node `u` of the network `net`. -/
theorem setNode_setWire_setNode (net : Net) (u v : ℤ) (node node' : CommNode (Option ℤ))
    (wire : List Byte) : ((net.setNode u node).setWire v u wire).setNode u node' =
      (net.setNode u node').setWire v u wire := by
  unfold Net.setNode Net.setWire
  dsimp only
  rw [Function.update_idem]

/-- A message that ends a handshake is taken from the link. -/
theorem ExchangeSim.handle_pong (h : ExchangeSim bo n adj tables pongs s a) (hn : n ≤ commMaxPeer)
    (hpeers : PeersConnected n adj) (hu : 0 ≤ u ∧ u < n) {chan' : Channel (Option ℤ)}
    {wire : List Byte} {now : ℚ} {info : MsgInfo} {body : List Byte}
    (htaken : ∀ x y, adj x y → CarriesTables bo tables pongs ((s.net.setNode u
      ((s.net.node u).setMan ((s.net.node u).man.put (some v) chan'))).setWire v u wire) x y
        (a.link x y))
    (hp : pongs) (hkind : info.kind = MsgKind.pong0.toInt ∨ info.kind = MsgKind.pong1.toInt)
    (hhandle : commNodeHandleMsg bo now ((s.net.node u).setMan
      ((s.net.node u).man.put (some v) chan')) (some v) info body = Except.ok node') :
    ExchangeSim bo n adj tables pongs (s.move u ((s.net.setNode u node').setWire v u wire)) a := by
  have hsim := h.node u hu
  have hmap : ∀ x d, (s.net.node u).man.channelMap x = some d → d = some x := by
    intro x d hd
    rw [hsim.channelMap] at hd
    split at hd
    · exact (Option.some.inj hd).symm
    · cases hd
  have hid : FitsInt (s.net.node u).nodeId := by
    rw [hsim.nodeId]
    exact fitsInt_of_peer (by omega)
  obtain ⟨hsame, happ⟩ := commNodeHandleMsg_pong hhandle hkind hmap hid hsim.maxpeers
  have hsame' : SameTables (s.net.node u) node' :=
    ⟨hsame.nodeId, hsame.maxpeers, hsame.channelMap, hsame.channels, hsame.events, hsame.rts,
      hsame.numRts, hsame.cond⟩
  refine h.io_step (Or.inl rfl) (fun x hx => by simp [hx]) (fun _ _ => ⟨rfl, rfl, rfl⟩)
    (fun _ hsrc => Or.inl hsrc) ?_ ?_ ?_
  · rw [Net.node_changed]
    exact hsim.of_same hsame'
  · rw [← setNode_setWire_setNode]
    refine links_of_appends hpeers.irrefl htaken (fun x chan hchan _ => ?_) fun _ _ _ => rfl
    rw [Net.node_changed] at hchan
    obtain ⟨chan₁, frames, hchan₁, happ₁, hok, hpong⟩ := happ x chan hchan
    exact ⟨chan₁, frames, hchan₁, happ₁, hok, [], Announces.of_pongs hp hpong,
      (List.append_nil _).symm⟩
  · obtain ⟨es, hevents, hnew⟩ := hsame'.events
    rw [Net.node_changed, newRtBodies_append hevents, filterMap_newmsg hnew, List.append_nil]

/-- **A table is taken from the link**: it is dropped, or learnt and announced. -/
theorem ExchangeSim.handle_rt (h : ExchangeSim bo n adj tables pongs s a)
    (hpeers : PeersConnected n adj) (htables : TablesOk bo n tables) (hu : 0 ≤ u ∧ u < n)
    {chan' : Channel (Option ℤ)} {wire : List Byte} {now : ℚ} {info : MsgInfo} {rest : List ℤ}
    (hlink : a.link v u = src :: rest)
    (htaken : ∀ x y, adj x y → CarriesTables bo tables pongs ((s.net.setNode u
      ((s.net.node u).setMan ((s.net.node u).man.put (some v) chan'))).setWire v u wire) x y
        ((a.take v u rest).link x y))
    (hkind : info.kind = MsgKind.rt.toInt)
    (hhandle : commNodeHandleMsg bo now ((s.net.node u).setMan
      ((s.net.node u).man.put (some v) chan')) (some v) info (packedTable bo tables src) =
        Except.ok node') :
    ∃ a', FloodStep adj id a a' ∧
      ExchangeSim bo n adj tables pongs (s.move u ((s.net.setNode u node').setWire v u wire))
        a' := by
  have hsim := h.node u hu
  have hlog : src ∈ a.log v := h.flood.link (v := u) (by rw [hlink]; exact List.mem_cons_self)
  have hsrc : 0 ≤ src ∧ src < n := h.range v src (h.flood.logged hlog)
  have hsrcpid := htables.srcpid src hsrc
  have hlinks : node'.man.heap = ((s.net.node u).man.put (some v) chan').heap →
      ∀ x y, adj x y → CarriesTables bo tables pongs ((s.net.setNode u node').setWire v u wire) x y
        ((a.take v u rest).link x y) := by
    intro hheap
    rw [← setNode_setWire_setNode]
    refine links_of_heap hpeers.irrefl htaken ?_
    rw [Net.node_changed]
    exact hheap
  rcases commNodeHandleMsg_rt hhandle hkind (packedTable_eq htables hsrc).2 with
    ⟨hnone, maxWidth, minWidth, rfl⟩ | ⟨hsome, rfl⟩
  · -- the table is new
    have hnew : src ∉ a.known u := by
      intro hk
      have hrts := hsim.rts src
      rw [if_pos hk, ← hsrcpid] at hrts
      exact nomatch hnone.symm.trans hrts
    -- its origin has it
    have hne : src ≠ u := by
      rintro rfl
      exact hnew (h.flood.logged (h.flood.first hlog))
    have hstep : FloodStep adj id a (((a.take v u rest).learn u src).announce u src) :=
      FloodStep.relay hlink hnew
    have hknown' : (((a.take v u rest).learn u src).announce u src).known u =
        insert src (a.known u) := Function.update_self _ _ _
    have hout' : (((a.take v u rest).learn u src).announce u src).outbox u =
        a.outbox u ++ [src] := Function.update_self _ _ _
    have hlog' : (((a.take v u rest).learn u src).announce u src).log u = a.log u ++ [src] :=
      Function.update_self _ _ _
    refine ⟨_, hstep, h.io_step (Or.inr hstep) (fun x hx => by simp [hx])
      (fun x hx => ⟨Function.update_of_ne hx _ _, Function.update_of_ne hx _ _,
        Function.update_of_ne hx _ _⟩) (fun x hx => ?_) ?_ (hlinks rfl) ?_⟩
    · rw [hknown'] at hx
      rcases Finset.mem_insert.1 hx with rfl | hx
      · exact Or.inr hsrc
      · exact Or.inl hx
    · rw [Net.node_changed, hknown', hout', hlog']
      refine ⟨hsim.nodeId, hsim.maxpeers, hsim.channelMap, hsim.channels, fun e he => ?_, ?_,
        fun x => ?_, ?_, ?_, hsim.stored, ?_, nofun⟩
      · rcases List.mem_append.1 he with he | he
        · exact hsim.events e he
        · exact Or.inr ⟨_, List.mem_singleton.1 he⟩
      · refine (List.filterMap_append).trans ?_
        rw [List.map_append]
        exact congrArg₂ (· ++ ·) hsim.outbox rfl
      · dsimp only
        rw [hsrcpid]
        by_cases hx : x = src
        · subst hx
          rw [Function.update_self, if_pos (Finset.mem_insert_self _ _)]
        · rw [Function.update_of_ne hx]
          refine (hsim.rts x).trans ?_
          simp [hx]
      · rw [Finset.mem_insert, ← hsim.own]
        exact or_iff_right hne.symm
      · rw [List.mem_append, List.mem_singleton, ← hsim.told]
        exact or_iff_left hne.symm
      · rw [Finset.card_insert_of_notMem hnew, ← hsim.count]
        exact Nat.add_right_comm _ _ _
    · rw [Net.node_changed, hlog', List.map_append, newRtBodies_append rfl]
      rfl
  · -- the table is known
    have hknown : src ∈ a.known u := by
      by_contra hk
      have hrts := hsim.rts src
      rw [if_neg hk, ← hsrcpid] at hrts
      exact hsome hrts
    have hstep : FloodStep adj id a (a.take v u rest) := FloodStep.drop hlink hknown
    refine ⟨_, hstep, h.io_step (Or.inr hstep) (fun x hx => by simp [hx])
      (fun _ _ => ⟨rfl, rfl, rfl⟩) (fun _ hs => Or.inl hs) ?_ (hlinks rfl) ?_⟩
    · rw [Net.node_changed]
      exact hsim.of_same ⟨rfl, rfl, rfl, rfl, ⟨[], (List.append_nil _).symm, nofun⟩, rfl, rfl,
        fun _ hw => hw⟩
    · rw [Net.node_changed, newRtBodies_of_le, List.append_nil]
      · rfl
      · exact le_rfl

/-- What is left of a read when a frame that is no chunk is complete. -/
theorem iomanReadDone_msg {f : Frame} {chan' : Channel (Option ℤ)} {now : ℚ} {c : Option ℤ}
    (hkind : f.info.kind ≠ MsgKind.data.toInt) (hinfo : chan'.msgInfo = f.seen f.body.length)
    (h : iomanReadDone bo now node c chan' (f.buff bo u f.body) = Except.ok node') :
    commNodeHandleMsg bo now node c chan'.msgInfo f.body = Except.ok node' := by
  unfold iomanReadDone at h
  rw [if_neg (by rw [hinfo]; exact hkind), Frame.unsent_buff_of_msg hkind] at h
  obtain ⟨_, _, h⟩ := bind_eq_ok.1 h
  exact h

theorem ExchangeSim.read (h : ExchangeSim bo n adj tables pongs s a) (hn : n ≤ commMaxPeer)
    (hpeers : PeersConnected n adj) (htables : TablesOk bo n tables) (hu : 0 ≤ u ∧ u < n)
    {now : ℚ} (hread : NetRead bo now u v s.net net') :
    ∃ a', (a' = a ∨ FloodStep adj id a a') ∧
      ExchangeSim bo n adj tables pongs (s.move u net') a' := by
  have hsim := h.node u hu
  have hadj : adj u v := by
    obtain ⟨hready, _⟩ := hread
    exact hsim.channels v hready.channel
  have hvu : v ≠ u := fun he => hpeers.irrefl u (by rw [he] at hadj; exact hadj)
  obtain ⟨cu, cv, frames, hcu, hcv, hstate, hwait, hlink, hann⟩ := h.link v u (hpeers.symm hadj)
  have hlink : LinkOk bo (s.net.node u).nodeId cu.buffQueue (s.net.wire v u) cv frames := by
    rw [hsim.nodeId]
    exact hlink
  generalize hframes : frames = frames₀ at hlink
  cases hread.outcome hcv hlink with
  | @part _ chan' wire hreads hlink' =>
      subst hframes
      rw [hsim.nodeId] at hlink'
      refine ⟨a, Or.inl rfl, h.io_step (Or.inl rfl) (fun x hx => by simp [hx])
        (fun _ _ => ⟨rfl, rfl, rfl⟩) (fun _ hsrc => Or.inl hsrc) ?_
        (links_of_reader hpeers.irrefl h.link hvu hcv hreads hcu hstate hwait hlink' hann
          fun _ _ _ => rfl) ?_⟩
      · rw [Net.node_changed]
        exact hsim.of_same ⟨rfl, rfl, rfl, rfl, ⟨[], (List.append_nil _).symm, nofun⟩, rfl, rfl,
          fun _ hw => hw⟩
      · rw [Net.node_changed, newRtBodies_of_le, List.append_nil]
        exact le_rfl
  | @full f frames' chan' wire node₁ hreads hf hdone hok hbytes hnode =>
      subst hframes
      have hrest : f.info.kind ≠ MsgKind.data.toInt →
          LinkOk bo u cu.buffQueue wire chan' frames' := by
        intro hkind
        refine LinkOk.of_read hok hbytes hdone.headerOff fun _ => ?_
        rw [hdone.currBuff]
        exact if_neg hkind
      have htaken : ∀ {srcs : List ℤ} {link' : ℤ → ℤ → List ℤ},
          f.info.kind ≠ MsgKind.data.toInt → Announces bo tables pongs v u frames' srcs →
          link' v u = srcs → (∀ x y, ¬ (x = v ∧ y = u) → link' x y = a.link x y) →
          ∀ x y, adj x y → CarriesTables bo tables pongs ((s.net.setNode u ((s.net.node u).setMan
            ((s.net.node u).man.put (some v) chan'))).setWire v u wire) x y (link' x y) := by
        intro srcs link' hkind hann' hsrcs hsame
        subst hsrcs
        exact links_of_reader hpeers.irrefl h.link hvu hcv hreads hcu hstate hwait
          (hrest hkind) hann' hsame
      generalize hsrcs : a.link v u = srcs at hann
      cases hann with
      | pong hp hpong hann' =>
          have hkind : f.info.kind ≠ MsgKind.data.toInt := by
            intro hd
            rcases hpong with hp | hp <;> exact absurd (hp.symm.trans hd) (by decide)
          refine ⟨a, Or.inl rfl, h.handle_pong hn hpeers hu
            (htaken hkind hann' hsrcs fun _ _ _ => rfl) hp ?_
            (iomanReadDone_msg hkind hdone.msgInfo hnode)⟩
          rw [hdone.msgInfo]
          exact hpong
      | @table src _ rest hann' =>
          have hrt : (messageFrame MsgKind.rt v u (packedTable bo tables src)).info.kind =
              MsgKind.rt.toInt := rfl
          have hbody : (messageFrame MsgKind.rt v u (packedTable bo tables src)).body =
              packedTable bo tables src := rfl
          have hkind : (messageFrame MsgKind.rt v u (packedTable bo tables src)).info.kind ≠
              MsgKind.data.toInt := by
            rw [hrt]
            decide
          have hinfo : chan'.msgInfo.kind = MsgKind.rt.toInt := by
            rw [hdone.msgInfo, Frame.seen_kind, hrt]
          have hhandle := iomanReadDone_msg hkind hdone.msgInfo hnode
          rw [hbody] at hhandle
          obtain ⟨a', hstep, hsim'⟩ := h.handle_rt hpeers htables hu hsrcs
            (htaken hkind hann' (if_pos ⟨rfl, rfl⟩) fun x y hne => if_neg hne) hinfo hhandle
          exact ⟨a', Or.inr hstep, hsim'⟩

/-- **Every step is a step of the flooding, or none.** -/
theorem ExchangeStep.refines (hstep : ExchangeStep bo n tables s s') (hn : n ≤ commMaxPeer)
    (hpeers : PeersConnected n adj) (htables : TablesOk bo n tables)
    (h : ExchangeSim bo n adj tables pongs s a) :
    ∃ a', (a' = a ∨ FloodStep adj id a a') ∧ ExchangeSim bo n adj tables pongs s' a' := by
  cases hstep with
  | store hu hcall hstore =>
      obtain ⟨hflood, hsim⟩ := h.store hpeers htables hu hcall hstore
      exact ⟨_, Or.inr hflood, hsim⟩
  | bcast hu hcall =>
      obtain ⟨hflood, hsim⟩ := h.bcast hpeers hu hcall
      exact ⟨_, Or.inr hflood, hsim⟩
  | count hu hcall => exact ⟨a, Or.inl rfl, h.count hpeers hu hcall⟩
  | wait hu hcall hawake hwait => exact ⟨a, Or.inl rfl, h.wait hpeers hu hcall hawake hwait⟩
  | event hu hevent => exact h.event hn hpeers htables hu hevent
  | read hu hread => exact h.read hn hpeers htables hu hread
  | write hu hwrite => exact ⟨a, Or.inl rfl, h.write hpeers hu hwrite⟩

/-- In the beginning nobody knows a table. -/
theorem ExchangeStart.sim (h : ExchangeStart bo n adj s) :
    ExchangeSim bo n adj tables True s floodStart where
  flood := floodInv_start
  range _ _ := nofun
  node u hu := by
    obtain ⟨hid, hmax, hmap, hchannels, hevents, hrts, hnum, hcond⟩ := h.node u hu
    rw [h.call u]
    refine ⟨hid, hmax, hmap, fun v => (hchannels v).1, fun e he => Or.inl (hevents e he),
      filterMap_newmsg hevents, hrts, ⟨nofun, fun hc => absurd rfl hc⟩, ⟨nofun, nofun⟩, nofun, ?_,
      fun hw => absurd hw hcond⟩
    rw [hnum]
    rfl
  link u v hadj := by
    obtain ⟨cu, cv, frames, hcu, hcv, _, hstate, hwait, hlink, hpong⟩ := h.link u v hadj
    exact ⟨cu, cv, frames, hcu, hcv, hstate, hwait, hlink, Announces.of_pongs trivial hpong⟩
  bcasts u := h.bcasts u

/-- Every reachable state refines a flooding. -/
theorem exchangeReach_sim (hn : n ≤ commMaxPeer) (hpeers : PeersConnected n adj)
    (htables : TablesOk bo n tables)
    (h : Reach (ExchangeStart bo n adj) (ExchangeStep bo n tables) s) :
    ∃ a, ExchangeSim bo n adj tables True s a := by
  refine Reach.inv (I := fun s => ∃ a, ExchangeSim bo n adj tables True s a)
    (fun s hs => ⟨floodStart, hs.sim⟩) (fun s t hsim hstep => ?_) h
  obtain ⟨a, hsim⟩ := hsim
  obtain ⟨a', _, hsim'⟩ := hstep.refines hn hpeers htables hsim
  exact ⟨a', hsim'⟩

/-! ### What the exchange achieves -/

/-- The bytes on the link from `u` to `v` are those of frames among which is a table. -/
def RtUnderWay (bo : ByteOrder) (net : Net) (u v : ℤ) : Prop :=
  ∃ cu cv frames, (net.node u).man.heap (some v) = some cu ∧
    (net.node v).man.heap (some u) = some cv ∧
    LinkOk bo v cu.buffQueue (net.wire u v) cv frames ∧
    ∃ f ∈ frames, f.info.kind = MsgKind.rt.toInt

/-- All nodes have called `comm_node_exchange_rt`, and no broadcast of a table is left to be written
or sent, and no table is queued or under way. -/
structure ExchangeQuiet (bo : ByteOrder) (n : ℕ) (adj : ℤ → ℤ → Prop) (s : Exchange) : Prop where
  called : ∀ u : ℤ, 0 ≤ u ∧ u < n → (s.call u).told = true
  events : ∀ u : ℤ, 0 ≤ u ∧ u < n → ∀ buff,
    IomanEvent.bcastmsg MsgKind.rt buff ∉ (s.net.node u).man.events
  links : ∀ u v, adj u v → ¬ RtUnderWay bo s.net u v

/-- What holds of the exchange: the tables that are stored are those that were broadcast, each node
broadcasts a table once and counts each table once, and the exchange is complete when nothing is
left to be done. -/
structure ExchangeOk (bo : ByteOrder) (n : ℕ) (adj : ℤ → ℤ → Prop) (tables : ℤ → OverlayRtable)
    (s : Exchange) : Prop where
  stores : ∀ u : ℤ, 0 ≤ u ∧ u < n → ∀ src rt, (s.net.node u).rts src = some rt →
    rt = tables src ∧ (0 ≤ src ∧ src < n) ∧ (src ≠ u → (s.call src).told = true)
  bcasts : ∀ u : ℤ, 0 ≤ u ∧ u < n → ∀ buff ∈ s.bcasts u,
    ∃ src, (s.net.node u).rts src = some (tables src) ∧
      overlayRtablePack bo (tables src) = Except.ok buff
  once : ∀ u : ℤ, 0 ≤ u ∧ u < n → (s.bcasts u).Nodup
  counted : ∀ u : ℤ, 0 ≤ u ∧ u < n → (s.net.node u).numRts =
    ((Finset.Ico 0 (n : ℤ)).filter fun src => src ≠ u ∧ ((s.net.node u).rts src).isSome).card +
      if (s.call u).counted then 1 else 0
  complete : ExchangeQuiet bo n adj s → ∀ u : ℤ, 0 ≤ u ∧ u < n →
    (∀ src : ℤ, 0 ≤ src ∧ src < n → (s.net.node u).rts src = some (tables src)) ∧
    ((s.call u).counted = true → (s.net.node u).numRts = n ∧
      CondWaiter.exchange n ∉ (s.net.node u).cond ∧
      commNodeExchangeWait (s.net.node u) n = (true, s.net.node u))

theorem ExchangeSim.rts_isSome (h : ExchangeSim bo n adj tables pongs s a) (hu : 0 ≤ u ∧ u < n) :
    ((s.net.node u).rts src).isSome ↔ src ∈ a.known u := by
  rw [(h.node u hu).rts src]
  by_cases hk : src ∈ a.known u <;> simp [hk]

/-- A node counts the tables of others as it stores them, and its own once. -/
theorem ExchangeSim.counted (h : ExchangeSim bo n adj tables pongs s a) (hu : 0 ≤ u ∧ u < n) :
    (s.net.node u).numRts = ((Finset.Ico 0 (n : ℤ)).filter fun src =>
      src ≠ u ∧ ((s.net.node u).rts src).isSome).card + if (s.call u).counted then 1 else 0 := by
  have hsim := h.node u hu
  have hset : ((Finset.Ico 0 (n : ℤ)).filter fun src =>
      src ≠ u ∧ ((s.net.node u).rts src).isSome) = (a.known u).erase u := by
    ext src
    rw [Finset.mem_filter, Finset.mem_Ico, Finset.mem_erase, h.rts_isSome hu]
    exact ⟨fun hs => hs.2, fun hs => ⟨h.range u src hs.2, hs⟩⟩
  have hcount := hsim.count
  have hown := hsim.own
  rw [hset]
  cases hcall : s.call u with
  | before =>
      rw [hcall] at hcount hown
      have hnot : u ∉ a.known u := fun hk => hown.1 hk rfl
      rw [Finset.erase_eq_of_notMem hnot, ← hcount]
      rfl
  | stored buff =>
      rw [hcall] at hcount hown
      rw [← Finset.card_erase_add_one (hown.2 nofun)] at hcount
      exact Nat.succ.inj hcount
  | sent =>
      rw [hcall] at hcount hown
      rw [← Finset.card_erase_add_one (hown.2 nofun)] at hcount
      exact Nat.succ.inj hcount
  | waiting =>
      rw [hcall] at hcount hown
      rw [← Finset.card_erase_add_one (hown.2 nofun)] at hcount
      exact hcount
  | done =>
      rw [hcall] at hcount hown
      rw [← Finset.card_erase_add_one (hown.2 nofun)] at hcount
      exact hcount

/-- **When nothing is left to be done, every node knows every table.** -/
theorem ExchangeSim.all_known (h : ExchangeSim bo n adj tables pongs s a)
    (hpeers : PeersConnected n adj) (hquiet : ExchangeQuiet bo n adj s) (hu : 0 ≤ u ∧ u < n) :
    a.known u = Finset.Ico 0 (n : ℤ) := by
  have hout : ∀ x y, adj x y → a.outbox x = [] := by
    intro x y hxy
    have hx := hpeers.range hxy
    have hsim := h.node x hx
    rw [← List.map_eq_nil_iff, ← hsim.outbox]
    refine filterMap_newmsg fun e he => (hsim.events e he).resolve_right ?_
    rintro ⟨buff, rfl⟩
    exact hquiet.events x hx buff he
  have hlink : ∀ x y, adj x y → a.link x y = [] := by
    intro x y hxy
    by_contra hne
    obtain ⟨cu, cv, frames, hcu, hcv, _, _, hok, hann⟩ := h.link x y hxy
    exact hquiet.links x y hxy ⟨cu, cv, frames, hcu, hcv, hok, hann.exists_rt hne⟩
  ext src
  rw [Finset.mem_Ico]
  refine ⟨h.range u src, fun hsrc => h.flood.logged ?_⟩
  have hlog : src ∈ a.log src := (h.node src hsrc).told.2 (hquiet.called src hsrc)
  exact h.flood.spread hout hlink hlog (hpeers.connected src u hsrc hu)

theorem ExchangeSim.ok (h : ExchangeSim bo n adj tables pongs s a) (hpeers : PeersConnected n adj)
    (htables : TablesOk bo n tables) : ExchangeOk bo n adj tables s where
  stores u hu src rt hrt := by
    have hk : src ∈ a.known u := by
      rw [← h.rts_isSome hu, hrt]
      rfl
    rw [(h.node u hu).rts src, if_pos hk] at hrt
    have hsrc := h.range u src hk
    refine ⟨(Option.some.inj hrt).symm, hsrc, fun hne => ?_⟩
    exact (h.node src hsrc).told.1 (h.flood.first (h.flood.relayed hk hne.symm))
  bcasts u hu buff hbuff := by
    rw [h.bcasts u] at hbuff
    obtain ⟨src, hlog, rfl⟩ := List.mem_map.1 hbuff
    have hk := h.flood.logged hlog
    refine ⟨src, ?_, (packedTable_eq htables (h.range u src hk)).1⟩
    rw [(h.node u hu).rts src, if_pos hk]
  once u hu := by
    rw [h.bcasts u]
    refine List.Nodup.map_on (fun src hsrc src' hsrc' heq => ?_) (h.flood.nodup u)
    have hs := h.range u src (h.flood.logged hsrc)
    have hs' := h.range u src' (h.flood.logged hsrc')
    obtain ⟨rest, hunpack⟩ := (packedTable_eq htables hs).2
    obtain ⟨rest', hunpack'⟩ := (packedTable_eq htables hs').2
    rw [heq, hunpack', Except.ok.injEq, Prod.mk.injEq] at hunpack
    rw [← htables.srcpid src hs, ← htables.srcpid src' hs', hunpack.1]
  counted u hu := h.counted hu
  complete hquiet u hu := by
    have hknown := h.all_known hpeers hquiet hu
    have hsim := h.node u hu
    have hall : (s.net.node u).numRts + (s.call u).uncounted = n := by
      rw [hsim.count, hknown, Int.card_Ico]
      omega
    refine ⟨fun src hsrc => ?_, fun hcounted => ?_⟩
    · rw [hsim.rts src, if_pos]
      rw [hknown, Finset.mem_Ico]
      exact hsrc
    · have hzero : (s.call u).uncounted = 0 := by
        cases hcall : s.call u <;> rw [hcall] at hcounted <;> first | rfl | cases hcounted
      rw [hzero, Nat.add_zero] at hall
      refine ⟨hall, fun hw => ?_, ?_⟩
      · have := (hsim.asleep hw).2
        omega
      · unfold commNodeExchangeWait
        rw [if_neg (by omega)]

/-- **The exchange of routing tables**, in a connected network of registered peers: a stored table is
the one that its source broadcast, a node broadcasts and counts no table twice, and when nothing is
left to be done every node has the tables of all nodes and no thread waits for more. -/
theorem rtExchange_floods (hn : n ≤ commMaxPeer) (hpeers : PeersConnected n adj)
    (htables : TablesOk bo n tables)
    (h : Reach (ExchangeStart bo n adj) (ExchangeStep bo n tables) s) :
    ExchangeOk bo n adj tables s := by
  obtain ⟨a, hsim⟩ := exchangeReach_sim hn hpeers htables h
  exact hsim.ok hpeers htables

end Sim

/-! ### Two nodes -/

/-- The two nodes 0 and 1 are peers. -/
def pairAdj (u v : ℤ) : Prop := (u = 0 ∧ v = 1) ∨ (u = 1 ∧ v = 0)

instance (u v : ℤ) : Decidable (pairAdj u v) := inferInstanceAs (Decidable (_ ∨ _))

/-- Their tables: each has an entry for the other. -/
def pairTables (u : ℤ) : OverlayRtable :=
  if u = 0 then ⟨0, [none, some ⟨1, [0, 1], 2, 100⟩]⟩ else ⟨1, [some ⟨0, [1, 0], 2, 100⟩, none]⟩

/-- One of the two nodes, with the channel to its peer. -/
def pairNode (u : ℤ) : CommNode (Option ℤ) :=
  let node : CommNode (Option ℤ) := commNodeCreate u none
  node.setMan { node.man with
    channels := [some (1 - u)]
    channelMap := fun v => if pairAdj u v then some (some v) else none
    heap := fun c => if c = none then some (channelLocalCreate u)
      else some { channelActiveCreate with peerId := 1 - u } }

/-- The two nodes before the exchange. -/
def pairStart : Exchange where
  net := ⟨pairNode, fun _ _ => []⟩
  call := fun _ => ExchangeCall.before
  bcasts := fun _ => []

theorem pairAdj_peers : PeersConnected 2 pairAdj where
  range := by
    rintro u v (⟨rfl, rfl⟩ | ⟨rfl, rfl⟩) <;> decide
  symm h := h.elim (fun h => Or.inr ⟨h.2, h.1⟩) fun h => Or.inl ⟨h.2, h.1⟩
  irrefl u h := by
    rcases h with ⟨h₀, h₁⟩ | ⟨h₀, h₁⟩ <;> omega
  connected u v hu hv := by
    by_cases huv : u = v
    · rw [huv]
    · refine Relation.ReflTransGen.single ?_
      unfold pairAdj
      omega

theorem pairTables_ok : TablesOk ByteOrder.little 2 pairTables := by
  have hzero : (pairTables 0).Complete := ⟨by decide, by decide,
    rfl, ⟨_, rfl, rfl, by decide, by decide, by decide, by decide, by decide⟩, trivial⟩
  have hone : (pairTables 1).Complete := ⟨by decide, by decide,
    ⟨_, rfl, rfl, by decide, by decide, by decide, by decide, by decide⟩, rfl, trivial⟩
  have hcomplete : ∀ u : ℤ, 0 ≤ u ∧ u < 2 → (pairTables u).Complete := by
    intro u hu
    obtain rfl | rfl : u = 0 ∨ u = 1 := by omega
    · exact hzero
    · exact hone
  refine ⟨hcomplete, fun u hu => ?_, fun u hu buff hpack => ?_⟩
  · obtain rfl | rfl : u = 0 ∨ u = 1 := by omega
    · rfl
    · rfl
  · obtain ⟨buff', hpack', hlen, _⟩ :=
      overlayRtableCreateByUnpack_pack ByteOrder.little (hcomplete u hu)
    obtain rfl : buff' = buff := Except.ok.inj (hpack'.symm.trans hpack)
    have hint : overlayRtablePackLen (pairTables u) = Except.ok 32 := by
      obtain rfl | rfl : u = 0 ∨ u = 1 := by omega
      · rfl
      · rfl
    rw [hint] at hlen
    rw [← Except.ok.inj hlen]
    decide

theorem pairStart_start : ExchangeStart ByteOrder.little 2 pairAdj pairStart where
  node u hu := by
    refine ⟨rfl, rfl, fun _ => rfl, fun v => ?_, nofun, fun _ => rfl, rfl, nofun⟩
    show some v ∈ [some (1 - u)] ↔ pairAdj u v
    rw [List.mem_singleton, Option.some.injEq]
    unfold pairAdj
    omega
  link u v huv := by
    have hv : 1 - u = v := by
      unfold pairAdj at huv
      omega
    refine ⟨_, _, [], rfl, rfl, hv, rfl, rfl, LinkOk.idle nofun rfl rfl, nofun⟩
  call _ := rfl
  bcasts _ := rfl

/-- One of them has broadcast its table. -/
theorem rtExchange_floods_pair : ∃ s : Exchange, s.call 0 = ExchangeCall.sent ∧
    s.bcasts 0 ≠ [] ∧ ExchangeOk ByteOrder.little 2 pairAdj pairTables s := by
  have hstart : Reach (ExchangeStart ByteOrder.little 2 pairAdj)
      (ExchangeStep ByteOrder.little 2 pairTables) pairStart := Reach.init pairStart_start
  have hstored := hstart.step (ExchangeStep.store (u := 0) (by decide) rfl
    (show commNodeStoreRt ByteOrder.little _ (pairTables 0) = Except.ok (_, _) from rfl))
  have hsent := hstored.step (ExchangeStep.bcast (u := 0) (by decide) rfl)
  exact ⟨_, rfl, List.cons_ne_nil _ _,
    rtExchange_floods (by decide) pairAdj_peers pairTables_ok hsent⟩

end DLFree
