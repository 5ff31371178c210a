/-
**The handshake of a connection, in a network of nodes.**

The node that connects sends PING0 as soon as the connection is made; the other end answers with
PING1, and PONG0 and PONG1 follow.  A ping registers the channel for the node that sent it, and a
pong ends the measurement of a round trip; PONG1 establishes the connection.  Replies are sent on the
channel that `channel_map` has for the peer, and many handshakes of one node share that map.

At any time a connection is in one of six phases, and carries at most one frame.

Main definitions:

* `Handshake`, `HandshakeStep` — a network whose nodes connect to one another;
* `Phase`, `Connection` — a connection in one of its phases;
* `HandshakeInv` — every attempt to connect is in some phase.

Main results:

* `HandshakeStep.inv` — every step keeps the invariant;
* `handshake_agreement` — **no call of the handshake fails, the map of channels agrees with the
  peers, and an established connection is registered at both ends**, when node ids are below
  `COMM_MAX_PEER`;
* `handshake_fails` — a node with a larger id makes the registration at its peer fail.
-/

import DLFree.Network
import DLFree.ConnectRun

set_option relaxedAutoImplicit false
set_option autoImplicit false

namespace DLFree

open TransitionRun

/-! ### Frames of the handshake -/

/-- A message without a body. -/
def handshakeFrame (kind : MsgKind) (srcId dstId : ℤ) : Frame where
  info := { msgInfoCreate with kind := kind.toInt, dstId := dstId, srcId := srcId, len := 0 }
  body := []

theorem handshakeFrame_ok {kind : MsgKind} {srcId dstId : ℤ} (hkind : kind ≠ MsgKind.data)
    (hkind' : kind ≠ MsgKind.err) (hsrc : FitsInt srcId) (hdst : FitsInt dstId) :
    (handshakeFrame kind srcId dstId).Ok where
  fits := by
    refine ⟨?_, hdst, hsrc, ?_, ?_, ?_⟩
    · show FitsInt kind.toInt
      cases kind <;> decide
    · show FitsInt 0
      decide
    · show FitsInt (-1)
      decide
    · show FitsInt (-1)
      decide
  len := rfl
  kind h := hkind' (MsgKind.toInt_injective h)
  chunk h := absurd (MsgKind.toInt_injective h) hkind

section Replies

variable {κ : Type} [DecidableEq κ] {bo : ByteOrder} {now : ℚ} {node : CommNode κ} {c : κ}
  {chan : Channel κ} {peer : ℤ} {kind : MsgKind}

/-! ### What the messages of the handshake do -/

namespace CommNode

/-- The channel `c` is registered for `peer` at the time `now`. -/
def register (node : CommNode κ) (c : κ) (peer : ℤ) (now : ℚ) : CommNode κ :=
  { node with
    man := { node.man with channelMap := Function.update node.man.channelMap peer (some c) }.modify c
      (Channel.setPeerId peer)
    rtts := Function.update node.rtts peer now }

/-- A message without a body is sent on the channel `c`. -/
def reply (bo : ByteOrder) (node : CommNode κ) (c : κ) (kind : MsgKind) (peer : ℤ) : CommNode κ :=
  node.setMan (iomanNotifyNewmsg (node.man.modify c
    (channelSendMsg bo (handshakeFrame kind node.nodeId peer).info [])))

/-- The measurement of the round trip to `peer` ends at the time `now`. -/
def measured (node : CommNode κ) (peer : ℤ) (now : ℚ) : CommNode κ :=
  { node with rtts := Function.update node.rtts peer (now - node.rtts peer) }

/-- The channel `c` is established. -/
def establish (node : CommNode κ) (c : κ) : CommNode κ :=
  { node with
    man := node.man.modify c (Channel.setConnectState ChannelConnectStatus.established)
    cond := [] }

theorem register_heap (node : CommNode κ) (h : node.man.heap c = some chan) :
    (node.register c peer now).man.heap c = some (chan.setPeerId peer) := Ioman.heap_modify_eq h

theorem reply_heap (node : CommNode κ) {nodeId : ℤ} (h : node.man.heap c = some chan)
    (hid : node.nodeId = nodeId) :
    (node.reply bo c kind peer).man.heap c =
      some (channelSendMsg bo (handshakeFrame kind nodeId peer).info [] chan) := by
  subst hid
  exact Ioman.heap_modify_eq h

theorem notifyConnect_heap (node : CommNode κ) {nodeId : ℤ} (h : node.man.heap c = some chan)
    (hid : node.nodeId = nodeId) : (commNodeNotifyConnect bo node c).man.heap c =
      some (channelSendMsg bo (handshakeFrame MsgKind.ping0 nodeId (-1)).info [] chan) := by
  subst hid
  exact Ioman.heap_modify_eq h

theorem establish_heap (node : CommNode κ) (h : node.man.heap c = some chan) :
    (node.establish c).man.heap c =
    some (chan.setConnectState ChannelConnectStatus.established) := Ioman.heap_modify_eq h

@[simp] theorem register_channelMap :
    (node.register c peer now).man.channelMap peer = some c := Function.update_self _ _ _

@[simp] theorem register_rtts : (node.register c peer now).rtts peer = now :=
  Function.update_self _ _ _

@[simp] theorem reply_channelMap :
    (node.reply bo c kind peer).man.channelMap = node.man.channelMap := rfl

@[simp] theorem reply_rtts : (node.reply bo c kind peer).rtts = node.rtts := rfl

end CommNode

theorem iomanSendMsg_eq (node : CommNode κ) (hpos : 0 ≤ peer) (hmax : peer < node.man.maxpeers)
    (hmap : node.man.channelMap peer = some c) :
    (iomanSendMsg bo node.man kind peer [] >>= fun man => Except.ok { node with man := man }) =
      Except.ok (node.reply bo c kind peer) := by
  have hcheck : node.man.checkPeer peer = Except.ok () := if_pos ⟨hpos, hmax⟩
  unfold iomanSendMsg iomanMapChannel
  rw [hcheck, ok_bind, hmap]
  rfl

theorem commNodeHandleMsg_ping {msgInfo : MsgInfo} {buff : List Byte} {reply : MsgKind}
    (hkind : (msgInfo.kind = MsgKind.ping0.toInt ∧ reply = MsgKind.ping1) ∨
      (msgInfo.kind = MsgKind.ping1.toInt ∧ reply = MsgKind.pong0))
    (hpos : 0 ≤ msgInfo.srcId) (hmax : msgInfo.srcId < node.man.maxpeers)
    (hbound : msgInfo.srcId < commMaxPeer) (hmap : node.man.channelMap msgInfo.srcId = none)
    (hchan : node.man.heap c = some chan) (hpeer : chan.peerId = channelPeerUnknown) :
    commNodeHandleMsg bo now node c msgInfo buff =
      Except.ok ((node.register c msgInfo.srcId now).reply bo c reply msgInfo.srcId) := by
  have hcheck : ∀ man : Ioman κ, man.maxpeers = node.man.maxpeers →
      man.checkPeer msgInfo.srcId = Except.ok () := by
    intro man hman
    exact if_pos ⟨hpos, hman ▸ hmax⟩
  have hget := Ioman.get_eq_ok.2 hchan
  have hreg : iomanRegisterChannel node.man msgInfo.srcId c =
      Except.ok (node.register c msgInfo.srcId now).man := by
    unfold iomanRegisterChannel
    rw [hcheck _ rfl, ok_bind, hmap, Option.isNone_none, cAssert_true, ok_bind, hget, ok_bind,
      cAssert_of hpeer]
    rfl
  have hrtt : commNodeRttMeasureStart { node with man := (node.register c msgInfo.srcId now).man }
      msgInfo.srcId now = Except.ok (node.register c msgInfo.srcId now) := by
    unfold commNodeRttMeasureStart
    rw [cAssert_of hbound, ok_bind]
    dsimp only
    rw [hcheck (node.register c msgInfo.srcId now).man rfl]
    rfl
  have hmapped : (node.register c msgInfo.srcId now).man.channelMap msgInfo.srcId = some c := by
    simp [CommNode.register, Ioman.modify]
  unfold commNodeHandleMsg
  rcases hkind with ⟨hkind, rfl⟩ | ⟨hkind, rfl⟩
  · rw [if_pos hkind, hreg, ok_bind, hrtt, ok_bind]
    exact iomanSendMsg_eq (node.register c msgInfo.srcId now) hpos hmax hmapped
  · rw [if_neg (by rw [hkind]; decide), if_pos hkind, hreg, ok_bind, hrtt, ok_bind]
    exact iomanSendMsg_eq (node.register c msgInfo.srcId now) hpos hmax hmapped

omit [DecidableEq κ] in
theorem commNodeRttMeasureEnd_eq (hpos : 0 ≤ peer) (hmax : peer < node.man.maxpeers)
    (hbound : peer < commMaxPeer) (hrtt : node.rtts peer ≠ 0) :
    commNodeRttMeasureEnd node peer now = Except.ok (node.measured peer now) := by
  have hcheck : node.man.checkPeer peer = Except.ok () := if_pos ⟨hpos, hmax⟩
  unfold commNodeRttMeasureEnd
  rw [cAssert_of hbound, ok_bind, hcheck, ok_bind, cAssert_of hrtt]
  rfl

theorem commNodeHandleMsg_pong0 {msgInfo : MsgInfo} {buff : List Byte}
    (hkind : msgInfo.kind = MsgKind.pong0.toInt)
    (hpos : 0 ≤ msgInfo.srcId) (hmax : msgInfo.srcId < node.man.maxpeers)
    (hbound : msgInfo.srcId < commMaxPeer) (hmap : node.man.channelMap msgInfo.srcId = some c)
    (hrtt : node.rtts msgInfo.srcId ≠ 0) :
    commNodeHandleMsg bo now node c msgInfo buff =
      Except.ok ((node.measured msgInfo.srcId now).reply bo c MsgKind.pong1 msgInfo.srcId) := by
  unfold commNodeHandleMsg
  rw [if_neg (by rw [hkind]; decide), if_neg (by rw [hkind]; decide), if_pos hkind,
    commNodeRttMeasureEnd_eq hpos hmax hbound hrtt, ok_bind]
  exact iomanSendMsg_eq (node.measured msgInfo.srcId now) hpos hmax hmap

theorem commNodeHandleMsg_pong1 {msgInfo : MsgInfo} {buff : List Byte}
    (hkind : msgInfo.kind = MsgKind.pong1.toInt)
    (hpos : 0 ≤ msgInfo.srcId) (hmax : msgInfo.srcId < node.man.maxpeers)
    (hbound : msgInfo.srcId < commMaxPeer) (hrtt : node.rtts msgInfo.srcId ≠ 0)
    (hchan : node.man.heap c = some chan)
    (hconn : chan.connectState = ChannelConnectStatus.inprogress) :
    commNodeHandleMsg bo now node c msgInfo buff =
      Except.ok ((node.measured msgInfo.srcId now).establish c) := by
  have hget : (node.measured msgInfo.srcId now).man.get c = Except.ok chan :=
    Ioman.get_eq_ok.2 hchan
  have hput : (node.measured msgInfo.srcId now).man.put c
      (chan.setConnectState ChannelConnectStatus.established) =
        (node.measured msgInfo.srcId now).man.modify c
          (Channel.setConnectState ChannelConnectStatus.established) :=
    Ioman.put_apply _ hchan
  unfold commNodeHandleMsg
  rw [if_neg (by rw [hkind]; decide), if_neg (by rw [hkind]; decide),
    if_neg (by rw [hkind]; decide), if_pos hkind,
    commNodeRttMeasureEnd_eq hpos hmax hbound hrtt, ok_bind]
  unfold commNodeNotifySuccess channelMakeEstablished
  rw [hget, ok_bind, cAssert_of hconn, ok_bind, ok_bind]
  unfold CommNode.establish
  rw [← hput]
  rfl

end Replies

/-! ### Networks of nodes that connect -/

/-- A network with the attempts to connect that were made, each from the node that connects. -/
structure Handshake where
  net : Net
  attempts : List (ℤ × ℤ)

/-- The nodes have just been created. -/
def Handshake.Init (s : Handshake) : Prop :=
  s = ⟨⟨fun u => commNodeCreate u none, fun _ _ => []⟩, []⟩

/-- A step of a network of `n` nodes. -/
inductive HandshakeStep (bo : ByteOrder) (n : ℤ) (s : Handshake) : Handshake → Prop
  /-- `u` connects to `v`; two nodes connect at most once -/
  | connect {u v : ℤ} (hu : 0 ≤ u ∧ u < n) (hv : 0 ≤ v ∧ v < n) (hne : u ≠ v)
      (hnew : (u, v) ∉ s.attempts ∧ (v, u) ∉ s.attempts) :
      HandshakeStep bo n s ⟨s.net.setNode u (commNodeAsyncConnect (s.net.node u) (some (some v))).2,
        (u, v) :: s.attempts⟩
  /-- `v` accepts the connection from `u` -/
  | accept {u v : ℤ} (hattempt : (u, v) ∈ s.attempts)
      (hnew : (s.net.node v).man.heap (some u) = none) :
      HandshakeStep bo n s ⟨s.net.setNode v ((s.net.node v).setMan
        (iomanAccept (s.net.node v).man (some u))), s.attempts⟩
  /-- the I/O thread of `u` takes an event from the notify pipe -/
  | event {u : ℤ} {man' : Ioman (Option ℤ)}
      (hevent : iomanHandleEvent bo (s.net.node u).man = Except.ok man') :
      HandshakeStep bo n s ⟨s.net.setNode u ((s.net.node u).setMan man'), s.attempts⟩
  /-- the I/O thread of `u` reads a channel; the clock does not show 0 -/
  | read {u v : ℤ} {now : ℚ} {net' : Net} (hnow : now ≠ 0) (hread : NetRead bo now u v s.net net') :
      HandshakeStep bo n s ⟨net', s.attempts⟩
  /-- the I/O thread of `u` writes a channel -/
  | write {u v : ℤ} {sent : List Byte} {net' : Net} (hwrite : NetWrite bo u v s.net sent net') :
      HandshakeStep bo n s ⟨net', s.attempts⟩
  /-- a user thread of `u` takes a round of `comm_node_connect_wait` -/
  | connectWait {u : ℤ} {handle : ℕ} {ret : ConnectWait} {node' : CommNode (Option ℤ)}
      (hwait : commNodeConnectWait (s.net.node u) handle = Except.ok (ret, node')) :
      HandshakeStep bo n s ⟨s.net.setNode u node', s.attempts⟩

/-! ### Phases of a connection -/

/-- The phases of a connection: the connection is being made, one of the four messages is under way,
or the handshake is over. -/
inductive Phase
  | connecting
  | ping0
  | ping1
  | pong0
  | pong1
  | established
  deriving DecidableEq, Repr

namespace Phase

/-- The node that connected has registered its peer. -/
def connectorKnows : Phase → Bool
  | pong0 | pong1 | established => true
  | _ => false

/-- The node that accepted has registered its peer. -/
def acceptorKnows : Phase → Bool
  | connecting | ping0 => false
  | _ => true

/-- The frames from the node `u` that connected to the node `v` that accepted. -/
def there (u v : ℤ) : Phase → List Frame
  | ping0 => [handshakeFrame MsgKind.ping0 u (-1)]
  | pong0 => [handshakeFrame MsgKind.pong0 u v]
  | _ => []

/-- The frames from the node `v` that accepted to the node `u` that connected. -/
def back (u v : ℤ) : Phase → List Frame
  | ping1 => [handshakeFrame MsgKind.ping1 v u]
  | pong1 => [handshakeFrame MsgKind.pong1 v u]
  | _ => []

end Phase

/-- What a node knows of its peer `d` at its end `chan` of their connection. -/
structure EndOk (node : CommNode (Option ℤ)) (d : ℤ) (chan : Channel (Option ℤ)) (knows : Bool) :
    Prop where
  peerId : chan.peerId = if knows then d else channelPeerUnknown
  mapped : node.man.channelMap d = if knows then some (some d) else none
  waitQueue : chan.waitQueue = []

/-- The connection that `u` made to `v` is in the phase `phase`; `cu` and `cv` are its ends, where
an end that has not been accepted yet is like a new one. -/
structure Connection (bo : ByteOrder) (net : Net) (u v : ℤ) (phase : Phase)
    (cu cv : Channel (Option ℤ)) : Prop where
  connector : (net.node u).man.heap (some v) = some cu
  acceptor : (net.node v).man.heap (some u) = some cv ∨
    ((net.node v).man.heap (some u) = none ∧ cv = channelActiveCreate)
  endU : EndOk (net.node u) v cu phase.connectorKnows
  endV : EndOk (net.node v) u cv phase.acceptorKnows
  rttU : phase.connectorKnows → phase ≠ Phase.established → (net.node u).rtts v ≠ 0
  rttV : phase = Phase.ping1 ∨ phase = Phase.pong0 → (net.node v).rtts u ≠ 0
  stateU : cu.state = if phase = Phase.connecting then ChannelStatus.setup else ChannelStatus.active
  stateV : cv.state = ChannelStatus.active
  connect : cu.connectState = if phase = Phase.established then ChannelConnectStatus.established
    else ChannelConnectStatus.inprogress
  there : LinkOk bo v cu.buffQueue (net.wire u v) cv (phase.there u v)
  back : LinkOk bo u cv.buffQueue (net.wire v u) cu (phase.back u v)

/-- Nothing of a node about its peer `d` changes. -/
structure SameEnd (node node' : CommNode (Option ℤ)) (d : ℤ) : Prop where
  heap : node'.man.heap (some d) = node.man.heap (some d)
  channelMap : node'.man.channelMap d = node.man.channelMap d
  rtts : node'.rtts d = node.rtts d

theorem SameEnd.refl (node : CommNode (Option ℤ)) (d : ℤ) : SameEnd node node d := ⟨rfl, rfl, rfl⟩

section Phases

variable {bo : ByteOrder} {n : ℤ} {net net' : Net} {u v : ℤ} {phase : Phase}
  {cu cv : Channel (Option ℤ)}

theorem EndOk.congr {node node' : CommNode (Option ℤ)} {d : ℤ} {chan : Channel (Option ℤ)}
    {knows : Bool} (h : EndOk node d chan knows)
    (hmap : node'.man.channelMap d = node.man.channelMap d) :
    EndOk node' d chan knows :=
  ⟨h.peerId, hmap.trans h.mapped, h.waitQueue⟩

/-- A connection stays in its phase when nothing of it changes. -/
theorem Connection.congr (h : Connection bo net u v phase cu cv)
    (hu : SameEnd (net.node u) (net'.node u) v) (hv : SameEnd (net.node v) (net'.node v) u)
    (hthere : net'.wire u v = net.wire u v) (hback : net'.wire v u = net.wire v u) :
    Connection bo net' u v phase cu cv where
  connector := hu.heap.trans h.connector
  acceptor := by
    rw [hv.heap]
    exact h.acceptor
  endU := h.endU.congr hu.channelMap
  endV := h.endV.congr hv.channelMap
  rttU := by
    rw [hu.rtts]
    exact h.rttU
  rttV := by
    rw [hv.rtts]
    exact h.rttV
  stateU := h.stateU
  stateV := h.stateV
  connect := h.connect
  there := by
    rw [hthere]
    exact h.there
  back := by
    rw [hback]
    exact h.back

/-- The end of the node that accepted changes. -/
theorem Connection.set_acceptor (h : Connection bo net u v phase cu cv) {phase' : Phase}
    {cv' : Channel (Option ℤ)} (hu : net'.node u = net.node u)
    (hheap : (net'.node v).man.heap (some u) = some cv')
    (hend : EndOk (net'.node v) u cv' phase'.acceptorKnows)
    (hknows : phase'.connectorKnows = phase.connectorKnows)
    (hfirst : phase' = Phase.connecting ↔ phase = Phase.connecting)
    (hlast : phase' = Phase.established ↔ phase = Phase.established)
    (hrtt : phase' = Phase.ping1 ∨ phase' = Phase.pong0 → (net'.node v).rtts u ≠ 0)
    (hstate : cv'.state = ChannelStatus.active)
    (hthere : LinkOk bo v cu.buffQueue (net'.wire u v) cv' (phase'.there u v))
    (hback : LinkOk bo u cv'.buffQueue (net'.wire v u) cu (phase'.back u v)) :
    Connection bo net' u v phase' cu cv' where
  connector := by
    rw [hu]
    exact h.connector
  acceptor := Or.inl hheap
  endU := by
    rw [hu, hknows]
    exact h.endU
  endV := hend
  rttU := by
    rw [hu, hknows]
    exact fun hk hne => h.rttU hk (mt hlast.2 hne)
  rttV := hrtt
  stateU := by
    rw [h.stateU]
    exact if_congr hfirst.symm rfl rfl
  stateV := hstate
  connect := by
    rw [h.connect]
    exact if_congr hlast.symm rfl rfl
  there := hthere
  back := hback

/-- The end of the node that connected changes. -/
theorem Connection.set_connector (h : Connection bo net u v phase cu cv) {phase' : Phase}
    {cu' : Channel (Option ℤ)} (hv : net'.node v = net.node v)
    (hheap : (net'.node u).man.heap (some v) = some cu')
    (hend : EndOk (net'.node u) v cu' phase'.connectorKnows)
    (hknows : phase'.acceptorKnows = phase.acceptorKnows)
    (hrttU : phase'.connectorKnows → phase' ≠ Phase.established → (net'.node u).rtts v ≠ 0)
    (hrttV : phase' = Phase.ping1 ∨ phase' = Phase.pong0 →
      phase = Phase.ping1 ∨ phase = Phase.pong0)
    (hstate : cu'.state = if phase' = Phase.connecting then ChannelStatus.setup
      else ChannelStatus.active)
    (hconn : cu'.connectState = if phase' = Phase.established then
      ChannelConnectStatus.established else ChannelConnectStatus.inprogress)
    (hthere : LinkOk bo v cu'.buffQueue (net'.wire u v) cv (phase'.there u v))
    (hback : LinkOk bo u cv.buffQueue (net'.wire v u) cu' (phase'.back u v)) :
    Connection bo net' u v phase' cu' cv where
  connector := hheap
  acceptor := by
    rw [hv]
    exact h.acceptor
  endU := hend
  endV := by
    rw [hv, hknows]
    exact h.endV
  rttU := hrttU
  rttV := by
    rw [hv]
    exact fun hp => h.rttV (hrttV hp)
  stateU := hstate
  stateV := h.stateV
  connect := hconn
  there := hthere
  back := hback

end Phases

/-! ### Changes at one end of a connection -/

/-- A step of a node that changes nothing but its end of the connection to `d`. -/
structure EndChange (node node' : CommNode (Option ℤ)) (d : ℤ) : Prop where
  nodeId : node'.nodeId = node.nodeId
  maxpeers : node'.man.maxpeers = node.man.maxpeers
  localChan : node'.man.localChan = node.man.localChan
  events : ∀ kind body, IomanEvent.bcastmsg kind body ∈ node'.man.events →
    IomanEvent.bcastmsg kind body ∈ node.man.events
  pendingConns : node'.pendingConns = node.pendingConns
  sameEnd : ∀ e, e ≠ d → SameEnd node node' e

section Ends

variable {bo : ByteOrder} {now : ℚ} {node node' node'' : CommNode (Option ℤ)} {d x : ℤ}
  {chan chan' cu cv : Channel (Option ℤ)} {f : Channel (Option ℤ) → Channel (Option ℤ)}
  {kind : MsgKind}

theorem EndChange.trans (h : EndChange node node' d) (h' : EndChange node' node'' d) :
    EndChange node node'' d where
  nodeId := h'.nodeId.trans h.nodeId
  maxpeers := h'.maxpeers.trans h.maxpeers
  localChan := h'.localChan.trans h.localChan
  events kind body hm := h.events kind body (h'.events kind body hm)
  pendingConns := h'.pendingConns.trans h.pendingConns
  sameEnd e he :=
    ⟨(h'.sameEnd e he).heap.trans (h.sameEnd e he).heap,
      (h'.sameEnd e he).channelMap.trans (h.sameEnd e he).channelMap,
      (h'.sameEnd e he).rtts.trans (h.sameEnd e he).rtts⟩

theorem some_ne_some {e : ℤ} (he : e ≠ d) : (some e : Option ℤ) ≠ some d :=
  fun h => he (Option.some.inj h)

theorem EndChange.modify (node : CommNode (Option ℤ)) :
    EndChange node (node.setMan (node.man.modify (some d) f)) d :=
  ⟨rfl, rfl, rfl, fun _ _ h => h, rfl,
    fun _ he => ⟨Ioman.heap_modify_of_ne (some_ne_some he), rfl, rfl⟩⟩

theorem EndChange.put (node : CommNode (Option ℤ)) :
    EndChange node (node.setMan (node.man.put (some d) chan)) d :=
  ⟨rfl, rfl, rfl, fun _ _ h => h, rfl,
    fun _ he => ⟨Ioman.heap_put_of_ne (some_ne_some he), rfl, rfl⟩⟩

theorem EndChange.register (node : CommNode (Option ℤ)) :
    EndChange node (node.register (some d) d now) d :=
  ⟨rfl, rfl, rfl, fun _ _ h => h, rfl, fun _ he => ⟨Ioman.heap_modify_of_ne (some_ne_some he),
    Function.update_of_ne he _ _, Function.update_of_ne he _ _⟩⟩

theorem EndChange.reply (node : CommNode (Option ℤ)) :
    EndChange node (node.reply bo (some d) kind d) d := by
  refine ⟨rfl, rfl, rfl, fun kind' body hm => ?_, rfl,
    fun _ he => ⟨Ioman.heap_modify_of_ne (some_ne_some he), rfl, rfl⟩⟩
  rcases List.mem_append.1 hm with hm | hm
  · exact hm
  · cases List.mem_singleton.1 hm

theorem EndChange.measured (node : CommNode (Option ℤ)) : EndChange node (node.measured d now) d :=
  ⟨rfl, rfl, rfl, fun _ _ h => h, rfl, fun _ he => ⟨rfl, rfl, Function.update_of_ne he _ _⟩⟩

theorem EndChange.establish (node : CommNode (Option ℤ)) :
    EndChange node (node.establish (some d)) d :=
  ⟨rfl, rfl, rfl, fun _ _ h => h, rfl,
    fun _ he => ⟨Ioman.heap_modify_of_ne (some_ne_some he), rfl, rfl⟩⟩

/-! ### Handling the frames of a connection -/

theorem iomanReadDone_handshake {srcId dstId : ℤ} {msg : MsgBuff} {c : Option ℤ}
    (hkind : kind ≠ MsgKind.data)
    (hinfo : chan.msgInfo = (handshakeFrame kind srcId dstId).seen 0)
    (hdst : dstId = node.nodeId ∨ kind = MsgKind.ping0) :
    iomanReadDone bo now node c chan msg =
      commNodeHandleMsg bo now node c chan.msgInfo msg.unsent := by
  have hmsgkind : chan.msgInfo.kind = kind.toInt := by rw [hinfo]; rfl
  have hmsgdst : chan.msgInfo.dstId = dstId := by rw [hinfo]; rfl
  have hassert : chan.msgInfo.dstId = node.nodeId ∨ chan.msgInfo.kind = MsgKind.ping0.toInt := by
    rw [hmsgdst, hmsgkind]
    exact hdst.imp id fun h => by rw [h]
  unfold iomanReadDone
  rw [if_neg fun h => hkind (MsgKind.toInt_injective (hmsgkind.symm.trans h)), cAssert_of hassert,
    ok_bind]

theorem unsent_handshakeFrame (srcId dstId : ℤ) :
    (channelPackBuff bo (handshakeFrame kind srcId dstId).info []).unsent =
      (handshakeFrame kind srcId dstId).encode bo :=
  unsent_channelPackBuff bo _ _

/-- The reply enters the link that carried nothing. -/
theorem LinkOk.reply {nodeId dstId srcId : ℤ} {queue : List MsgBuff} {wire : List Byte}
    (h : LinkOk bo nodeId queue wire chan []) (hkind : kind ≠ MsgKind.data)
    (hkind' : kind ≠ MsgKind.err) (hsrc : 0 ≤ srcId ∧ srcId < commMaxPeer)
    (hdst : 0 ≤ dstId ∧ dstId < commMaxPeer) :
    LinkOk bo nodeId (queue ++ [channelPackBuff bo (handshakeFrame kind srcId dstId).info []]) wire
      chan [handshakeFrame kind srcId dstId] := by
  have hfits : ∀ i : ℤ, 0 ≤ i ∧ i < commMaxPeer → FitsInt i := by
    intro i hi
    unfold commMaxPeer at hi
    unfold FitsInt
    omega
  exact h.append (handshakeFrame_ok hkind hkind' (hfits srcId hsrc) (hfits dstId hdst))
    (unsent_handshakeFrame srcId dstId)

variable {net : Net} {phase : Phase} {fr : Frame} {frames : List Frame}

/-- A node has taken the last byte of a frame from the channel to `d`. -/
structure TakenFrame (node node₁ : CommNode (Option ℤ)) (d : ℤ) (chan' : Channel (Option ℤ)) :
    Prop where
  change : EndChange node node₁ d
  heap : node₁.man.heap (some d) = some chan'
  channelMap : node₁.man.channelMap d = node.man.channelMap d
  rtts : node₁.rtts d = node.rtts d

theorem takenFrame (node : CommNode (Option ℤ)) (d : ℤ) (chan' : Channel (Option ℤ)) :
    TakenFrame node (node.setMan (node.man.put (some d) chan')) d chan' :=
  ⟨EndChange.put node, Ioman.heap_put_self, rfl, rfl⟩

/-- The receiver of a message of the handshake is idle when it has read it. -/
theorem Frame.Done.link {srcId dstId : ℤ} {queue : List MsgBuff} {wire : List Byte}
    (hdone : (handshakeFrame kind srcId dstId).Done bo x chan') (hkind : kind ≠ MsgKind.data)
    (hbytes : wire ++ queue.flatMap MsgBuff.unsent = [].flatMap (Frame.encode bo)) :
    LinkOk bo x queue wire chan' [] := by
  refine LinkOk.of_read nofun hbytes hdone.headerOff fun _ => ?_
  rw [hdone.currBuff]
  exact if_neg fun h => hkind (MsgKind.toInt_injective h)

/-- **The node that accepted handles the frame that is under way to it.** -/
theorem Connection.handle_there (h : Connection bo net d x phase cu cv) (msg : MsgBuff)
    (hid : (net.node x).nodeId = x) (hmax : (net.node x).man.maxpeers = commMaxPeer)
    (hdr : 0 ≤ d ∧ d < commMaxPeer) (hxr : 0 ≤ x ∧ x < commMaxPeer) (hne : x ≠ d) (hnow : now ≠ 0)
    (hframes : phase.there d x = fr :: frames) (hreads : Reads cv chan')
    (hdone : fr.Done bo x chan') :
    ∃ node', iomanReadDone bo now ((net.node x).setMan ((net.node x).man.put (some d) chan'))
        (some d) chan' msg = Except.ok node' ∧ EndChange (net.node x) node' d ∧
      ∀ wire, wire ++ cu.buffQueue.flatMap MsgBuff.unsent = frames.flatMap (Frame.encode bo) →
        ∃ phase' cv', Connection bo ((net.setNode x node').setWire d x wire) d x phase' cu cv' := by
  have htaken := takenFrame (net.node x) d chan'
  generalize (net.node x).setMan ((net.node x).man.put (some d) chan') = node₁ at htaken ⊢
  have hid₁ : node₁.nodeId = x := htaken.change.nodeId.trans hid
  have hmax₁ : d < node₁.man.maxpeers := by
    rw [htaken.change.maxpeers, hmax]
    exact hdr.2
  have hwq : chan'.waitQueue = [] := hreads.waitQueue.trans h.endV.waitQueue
  have hactive : chan'.state = ChannelStatus.active := hreads.state.trans h.stateV
  have hback := h.back
  have hinfo := hdone.msgInfo
  rw [← hreads.buffQueue] at hback
  cases phase with
  | connecting | ping1 | pong1 | established => cases hframes
  | ping0 =>
      cases hframes
      have hsrc : chan'.msgInfo.srcId = d := by rw [hinfo]; rfl
      have hhandle : commNodeHandleMsg bo now node₁ (some d) chan'.msgInfo msg.unsent = _ :=
        commNodeHandleMsg_ping (Or.inl ⟨by rw [hinfo]; rfl, rfl⟩)
          (by rw [hsrc]; exact hdr.1) (by rw [hsrc]; exact hmax₁) (by rw [hsrc]; exact hdr.2)
          (by rw [hsrc, htaken.channelMap]; exact h.endV.mapped) htaken.heap
          (hreads.peerId.trans h.endV.peerId)
      rw [hsrc] at hhandle
      refine ⟨_, (iomanReadDone_handshake (by decide) hinfo (Or.inr rfl)).trans hhandle,
        (htaken.change.trans (EndChange.register node₁)).trans (EndChange.reply _), fun wire hwire =>
          ⟨Phase.ping1, channelSendMsg bo (handshakeFrame MsgKind.ping1 x d).info []
            (chan'.setPeerId d), ?_⟩⟩
      refine h.set_acceptor (by simp [hne.symm]) ?_ ⟨rfl, by simp [Phase.acceptorKnows], hwq⟩ rfl
        (by decide) (by decide)
        (fun _ => by simpa using hnow) hactive ?_ ?_
      · rw [Net.node_changed]
        exact CommNode.reply_heap _ (CommNode.register_heap node₁ htaken.heap) hid₁
      · rw [Net.setWire_wire_self]
        exact (hdone.link (by decide) hwire).congr Iff.rfl rfl rfl rfl rfl
      · rw [Net.setWire_wire_of_ne fun he => hne he.1, Net.setNode_wire]
        exact hback.reply (by decide) (by decide) hxr hdr
  | pong0 =>
      cases hframes
      have hsrc : chan'.msgInfo.srcId = d := by rw [hinfo]; rfl
      have hmap : node₁.man.channelMap d = some (some d) := htaken.channelMap.trans h.endV.mapped
      have hhandle : commNodeHandleMsg bo now node₁ (some d) chan'.msgInfo msg.unsent = _ :=
        commNodeHandleMsg_pong0 (by rw [hinfo]; rfl) (by rw [hsrc]; exact hdr.1)
          (by rw [hsrc]; exact hmax₁) (by rw [hsrc]; exact hdr.2) (by rw [hsrc]; exact hmap)
          (by rw [hsrc, htaken.rtts]; exact h.rttV (Or.inr rfl))
      rw [hsrc] at hhandle
      refine ⟨_, (iomanReadDone_handshake (by decide) hinfo (Or.inl hid₁.symm)).trans hhandle,
        (htaken.change.trans (EndChange.measured node₁)).trans (EndChange.reply _), fun wire hwire =>
          ⟨Phase.pong1, channelSendMsg bo (handshakeFrame MsgKind.pong1 x d).info [] chan', ?_⟩⟩
      refine h.set_acceptor (by simp [hne.symm]) ?_
        ⟨hreads.peerId.trans h.endV.peerId, by
          simpa [CommNode.measured, Phase.acceptorKnows] using hmap, hwq⟩ rfl
        (by decide) (by decide) (by simp) hactive ?_ ?_
      · rw [Net.node_changed]
        exact CommNode.reply_heap (node₁.measured d now) htaken.heap hid₁
      · rw [Net.setWire_wire_self]
        exact (hdone.link (by decide) hwire).congr Iff.rfl rfl rfl rfl rfl
      · rw [Net.setWire_wire_of_ne fun he => hne he.1, Net.setNode_wire]
        exact hback.reply (by decide) (by decide) hxr hdr

/-- **The node that connected handles the frame that is under way to it.** -/
theorem Connection.handle_back (h : Connection bo net x d phase cu cv) (msg : MsgBuff)
    (hid : (net.node x).nodeId = x) (hmax : (net.node x).man.maxpeers = commMaxPeer)
    (hdr : 0 ≤ d ∧ d < commMaxPeer) (hxr : 0 ≤ x ∧ x < commMaxPeer) (hne : x ≠ d) (hnow : now ≠ 0)
    (hframes : phase.back x d = fr :: frames) (hreads : Reads cu chan')
    (hdone : fr.Done bo x chan') :
    ∃ node', iomanReadDone bo now ((net.node x).setMan ((net.node x).man.put (some d) chan'))
        (some d) chan' msg = Except.ok node' ∧ EndChange (net.node x) node' d ∧
      ∀ wire, wire ++ cv.buffQueue.flatMap MsgBuff.unsent = frames.flatMap (Frame.encode bo) →
        ∃ phase' cu', Connection bo ((net.setNode x node').setWire d x wire) x d phase' cu' cv := by
  have htaken := takenFrame (net.node x) d chan'
  generalize (net.node x).setMan ((net.node x).man.put (some d) chan') = node₁ at htaken ⊢
  have hid₁ : node₁.nodeId = x := htaken.change.nodeId.trans hid
  have hmax₁ : d < node₁.man.maxpeers := by
    rw [htaken.change.maxpeers, hmax]
    exact hdr.2
  have hwq : chan'.waitQueue = [] := hreads.waitQueue.trans h.endU.waitQueue
  have hstate := hreads.state.trans h.stateU
  have hconn := hreads.connectState.trans h.connect
  have hthere := h.there
  have hinfo := hdone.msgInfo
  rw [← hreads.buffQueue] at hthere
  cases phase with
  | connecting | ping0 | pong0 | established => cases hframes
  | ping1 =>
      cases hframes
      have hsrc : chan'.msgInfo.srcId = d := by rw [hinfo]; rfl
      have hhandle : commNodeHandleMsg bo now node₁ (some d) chan'.msgInfo msg.unsent = _ :=
        commNodeHandleMsg_ping (Or.inr ⟨by rw [hinfo]; rfl, rfl⟩)
          (by rw [hsrc]; exact hdr.1) (by rw [hsrc]; exact hmax₁) (by rw [hsrc]; exact hdr.2)
          (by rw [hsrc, htaken.channelMap]; exact h.endU.mapped) htaken.heap
          (hreads.peerId.trans h.endU.peerId)
      rw [hsrc] at hhandle
      refine ⟨_, (iomanReadDone_handshake (by decide) hinfo (Or.inl hid₁.symm)).trans hhandle,
        (htaken.change.trans (EndChange.register node₁)).trans (EndChange.reply _), fun wire hwire =>
          ⟨Phase.pong0, channelSendMsg bo (handshakeFrame MsgKind.pong0 x d).info []
            (chan'.setPeerId d), ?_⟩⟩
      refine h.set_connector (by simp [hne.symm]) ?_ ⟨rfl, by simp [Phase.connectorKnows], hwq⟩ rfl
        (fun _ _ => by simpa using hnow) (fun _ => Or.inl rfl) hstate hconn ?_ ?_
      · rw [Net.node_changed]
        exact CommNode.reply_heap _ (CommNode.register_heap node₁ htaken.heap) hid₁
      · rw [Net.setWire_wire_of_ne fun he => hne he.1, Net.setNode_wire]
        exact hthere.reply (by decide) (by decide) hxr hdr
      · rw [Net.setWire_wire_self]
        exact (hdone.link (by decide) hwire).congr Iff.rfl rfl rfl rfl rfl
  | pong1 =>
      cases hframes
      have hsrc : chan'.msgInfo.srcId = d := by rw [hinfo]; rfl
      have hmap : node₁.man.channelMap d = some (some d) := htaken.channelMap.trans h.endU.mapped
      have hhandle : commNodeHandleMsg bo now node₁ (some d) chan'.msgInfo msg.unsent = _ :=
        commNodeHandleMsg_pong1 (by rw [hinfo]; rfl) (by rw [hsrc]; exact hdr.1)
          (by rw [hsrc]; exact hmax₁) (by rw [hsrc]; exact hdr.2)
          (by rw [hsrc, htaken.rtts]; exact h.rttU rfl nofun) htaken.heap hconn
      rw [hsrc] at hhandle
      refine ⟨_, (iomanReadDone_handshake (by decide) hinfo (Or.inl hid₁.symm)).trans hhandle,
        (htaken.change.trans (EndChange.measured node₁)).trans (EndChange.establish _),
        fun wire hwire =>
          ⟨Phase.established, chan'.setConnectState ChannelConnectStatus.established, ?_⟩⟩
      refine h.set_connector (by simp [hne.symm]) ?_
        ⟨hreads.peerId.trans h.endU.peerId, by
          simpa [CommNode.measured, CommNode.establish, Ioman.modify, Phase.connectorKnows] using hmap,
          hwq⟩ rfl
        (fun _ he => absurd rfl he) (by simp) hstate rfl ?_ ?_
      · rw [Net.node_changed]
        exact CommNode.establish_heap (node₁.measured d now) htaken.heap
      · rw [Net.setWire_wire_of_ne fun he => hne he.1, Net.setNode_wire]
        exact hthere
      · rw [Net.setWire_wire_self]
        exact (hdone.link (by decide) hwire).congr Iff.rfl rfl rfl rfl rfl

end Ends

/-! ### The invariant of the network -/

/-- The references of the node `u`; nothing is broadcast during a handshake. -/
structure PeersOk (node : CommNode (Option ℤ)) (u : ℤ) : Prop where
  nodeId : node.nodeId = u
  maxpeers : node.man.maxpeers = commMaxPeer
  localChan : node.man.localChan = none
  channels : ChannelsInv node.man
  noBcast : ∀ kind body, IomanEvent.bcastmsg kind body ∉ node.man.events

/-- Every attempt to connect is in some phase, and nothing else is between two nodes. -/
structure HandshakeInv (bo : ByteOrder) (n : ℤ) (s : Handshake) : Prop where
  node : ∀ u, PeersOk (s.net.node u) u
  valid : ∀ u v, (u, v) ∈ s.attempts →
    (0 ≤ u ∧ u < n) ∧ (0 ≤ v ∧ v < n) ∧ u ≠ v ∧ (v, u) ∉ s.attempts
  apart : ∀ u v, (u, v) ∉ s.attempts → (v, u) ∉ s.attempts →
    (s.net.node u).man.heap (some v) = none ∧ (s.net.node u).man.channelMap v = none ∧
      s.net.wire u v = []
  connection : ∀ u v, (u, v) ∈ s.attempts → ∃ phase cu cv, Connection bo s.net u v phase cu cv
  pending : ∀ u, ∀ p ∈ (s.net.node u).pendingConns, ∀ c, p.2 = some c →
    ∃ v, c = some v ∧ (u, v) ∈ s.attempts

section Invariant

variable {bo : ByteOrder} {n : ℤ} {s t : Handshake} {net' : Net} {x d : ℤ}

theorem handshakeInv_init (h : s.Init) : HandshakeInv bo n s := by
  subst h
  refine ⟨fun u => ⟨rfl, rfl, rfl, ?_, nofun⟩, nofun, fun u v _ _ => ⟨?_, rfl, rfl⟩, nofun, nofun⟩
  · exact (nodeInv_init ⟨u, none, rfl⟩ : NodeInv ⟨commNodeCreate u none, none, fun _ => none, [], none⟩).1
  · simp [commNodeCreate, iomanCreate]

/-- A step of the node `x` that changes no connection. -/
theorem HandshakeInv.of_same (hinv : HandshakeInv bo n s)
    (hother : ∀ y, y ≠ x → net'.node y = s.net.node y) (hx : PeersOk (net'.node x) x)
    (hsame : ∀ d, SameEnd (s.net.node x) (net'.node x) d) (hwire : net'.wire = s.net.wire)
    (hpending : ∀ p ∈ (net'.node x).pendingConns, p ∈ (s.net.node x).pendingConns) :
    HandshakeInv bo n ⟨net', s.attempts⟩ := by
  have hends : ∀ u d, SameEnd (s.net.node u) (net'.node u) d := by
    intro u d
    by_cases hu : u = x
    · exact hu ▸ hsame d
    · rw [hother u hu]
      exact SameEnd.refl _ d
  refine ⟨fun u => ?_, hinv.valid, fun u v huv hvu => ?_, fun u v huv => ?_, fun u p hp => ?_⟩
  · by_cases hu : u = x
    · exact hu ▸ hx
    · rw [show (Handshake.net ⟨net', s.attempts⟩).node u = _ from hother u hu]
      exact hinv.node u
  · obtain ⟨hheap, hmap, hw⟩ := hinv.apart u v huv hvu
    exact ⟨(hends u v).heap.trans hheap, (hends u v).channelMap.trans hmap,
      (congrFun (congrFun hwire u) v).trans hw⟩
  · obtain ⟨phase, cu, cv, h⟩ := hinv.connection u v huv
    exact ⟨phase, cu, cv, h.congr (hends u v) (hends v u) (by rw [hwire]) (by rw [hwire])⟩
  · refine hinv.pending u p ?_
    by_cases hu : u = x
    · subst hu
      exact hpending p hp
    · rwa [show (Handshake.net ⟨net', s.attempts⟩).node u = _ from hother u hu] at hp

/-- A step of the node `x` that changes its connection with `d`. -/
theorem HandshakeInv.of_peer (hinv : HandshakeInv bo n s)
    (hpeer : (x, d) ∈ s.attempts ∨ (d, x) ∈ s.attempts)
    (hother : ∀ y, y ≠ x → net'.node y = s.net.node y)
    (hchange : EndChange (s.net.node x) (net'.node x) d) (hch : ChannelsInv (net'.node x).man)
    (hwire : ∀ a b, ¬ (a = x ∧ b = d) → ¬ (a = d ∧ b = x) → net'.wire a b = s.net.wire a b)
    (hmine : (x, d) ∈ s.attempts → ∃ phase cu cv, Connection bo net' x d phase cu cv)
    (htheirs : (d, x) ∈ s.attempts → ∃ phase cu cv, Connection bo net' d x phase cu cv) :
    HandshakeInv bo n ⟨net', s.attempts⟩ := by
  have hends : ∀ u v, ¬ (u = x ∧ v = d) → SameEnd (s.net.node u) (net'.node u) v := by
    intro u v huv
    by_cases hu : u = x
    · subst hu
      exact hchange.sameEnd v fun hv => huv ⟨rfl, hv⟩
    · rw [hother u hu]
      exact SameEnd.refl _ v
  refine ⟨fun u => ?_, hinv.valid, fun u v huv hvu => ?_, fun u v huv => ?_, fun u p hp => ?_⟩
  · by_cases hu : u = x
    · subst hu
      have h := hinv.node u
      exact ⟨hchange.nodeId.trans h.nodeId, hchange.maxpeers.trans h.maxpeers,
        hchange.localChan.trans h.localChan, hch,
        fun kind body hm => h.noBcast kind body (hchange.events kind body hm)⟩
    · rw [show (Handshake.net ⟨net', s.attempts⟩).node u = _ from hother u hu]
      exact hinv.node u
  · obtain ⟨hheap, hmap, hw⟩ := hinv.apart u v huv hvu
    have hxd : ¬ (u = x ∧ v = d) := by
      rintro ⟨rfl, rfl⟩
      exact hpeer.elim huv hvu
    have hdx : ¬ (u = d ∧ v = x) := by
      rintro ⟨rfl, rfl⟩
      exact hpeer.elim hvu huv
    exact ⟨(hends u v hxd).heap.trans hheap, (hends u v hxd).channelMap.trans hmap,
      (hwire u v hxd hdx).trans hw⟩
  · by_cases hxd : u = x ∧ v = d
    · obtain ⟨rfl, rfl⟩ := hxd
      exact hmine huv
    · by_cases hdx : u = d ∧ v = x
      · obtain ⟨rfl, rfl⟩ := hdx
        exact htheirs huv
      · obtain ⟨phase, cu, cv, h⟩ := hinv.connection u v huv
        have hvu : ¬ (v = x ∧ u = d) := fun h => hdx ⟨h.2, h.1⟩
        have huv' : ¬ (v = d ∧ u = x) := fun h => hxd ⟨h.2, h.1⟩
        exact ⟨phase, cu, cv, h.congr (hends u v hxd) (hends v u hvu) (hwire u v hxd hdx)
          (hwire v u hvu huv')⟩
  · refine hinv.pending u p ?_
    by_cases hu : u = x
    · subst hu
      rwa [show ((Handshake.net ⟨net', s.attempts⟩).node u).pendingConns = _ from
        hchange.pendingConns] at hp
    · rwa [show (Handshake.net ⟨net', s.attempts⟩).node u = _ from hother u hu] at hp

/-- A channel to `d` belongs to the connection with `d`. -/
theorem HandshakeInv.attempted (hinv : HandshakeInv bo n s) {chan : Channel (Option ℤ)}
    (hchan : (s.net.node x).man.heap (some d) = some chan) :
    (x, d) ∈ s.attempts ∨ (d, x) ∈ s.attempts := by
  by_contra hnone
  rw [not_or] at hnone
  have := (hinv.apart x d hnone.1 hnone.2).1
  rw [hchan] at this
  cases this

/-- The bounds of the two ends of a connection. -/
theorem HandshakeInv.bounds (hinv : HandshakeInv bo n s) (hn : n ≤ commMaxPeer)
    (h : (x, d) ∈ s.attempts ∨ (d, x) ∈ s.attempts) :
    (0 ≤ x ∧ x < commMaxPeer) ∧ (0 ≤ d ∧ d < commMaxPeer) ∧ x ≠ d := by
  rcases h with h | h <;> obtain ⟨h1, h2, hne, _⟩ := hinv.valid _ _ h
  · exact ⟨⟨h1.1, h1.2.trans_le hn⟩, ⟨h2.1, h2.2.trans_le hn⟩, hne⟩
  · exact ⟨⟨h2.1, h2.2.trans_le hn⟩, ⟨h1.1, h1.2.trans_le hn⟩, hne.symm⟩

/-- The connection of a channel to `d`, seen from the node that accepted. -/
theorem Connection.acceptor_eq {u v : ℤ} {net : Net} {phase : Phase}
    {cu cv chan : Channel (Option ℤ)} (h : Connection bo net u v phase cu cv)
    (hchan : (net.node v).man.heap (some u) = some chan) : chan = cv := by
  rcases h.acceptor with hcv | ⟨hcv, _⟩
  · exact Option.some.inj (hchan.symm.trans hcv)
  · rw [hchan] at hcv
    cases hcv

/-- **A read keeps the invariant.** -/
theorem HandshakeInv.read (hinv : HandshakeInv bo n s) (hn : n ≤ commMaxPeer) {now : ℚ}
    (hnow : now ≠ 0) (hread : NetRead bo now x d s.net net') :
    HandshakeInv bo n ⟨net', s.attempts⟩ := by
  have hx := hinv.node x
  have hch := hread.channelsInv hx.channels
  obtain ⟨chan, hchan, hreadable⟩ : ∃ chan, (s.net.node x).man.heap (some d) = some chan ∧
      channelIsReadable chan := by
    obtain ⟨hready, _⟩ := hread
    exact hready.readable
  have hpeer := hinv.attempted hchan
  obtain ⟨hxr, hdr, hne⟩ := hinv.bounds hn hpeer
  rcases hpeer with hmine | htheirs
  · -- `x` connected to `d`
    obtain ⟨phase, cu, cv, h⟩ := hinv.connection x d hmine
    obtain rfl : chan = cu := Option.some.inj (hchan.symm.trans h.connector)
    have hnot := (hinv.valid x d hmine).2.2.2
    have hback : LinkOk bo (s.net.node x).nodeId cv.buffQueue (s.net.wire d x) chan
        (phase.back x d) := by
      rw [hx.nodeId]
      exact h.back
    generalize hframes : phase.back x d = frames at hback
    cases hread.outcome hchan hback with
    | @part _ chan' wire hreads hlink =>
        rw [hx.nodeId, ← hframes] at hlink
        refine hinv.of_peer (Or.inl hmine) (fun y hy => by simp [hy])
          (by simpa using EndChange.put (s.net.node x)) hch
          (fun a b _ hba => Net.setWire_wire_of_ne hba)
          (fun _ => ⟨phase, chan', cv, ?_⟩) fun h => absurd h hnot
        refine h.set_connector (by simp [hne.symm]) ?_ ?_ rfl ?_ id
          (hreads.state.trans h.stateU) (hreads.connectState.trans h.connect) ?_ ?_
        · rw [Net.node_changed]
          exact Ioman.heap_put_self
        · rw [Net.node_changed]
          exact ⟨hreads.peerId.trans h.endU.peerId, h.endU.mapped,
              hreads.waitQueue.trans h.endU.waitQueue⟩
        · rw [Net.node_changed]
          exact h.rttU
        · rw [Net.setWire_wire_of_ne fun he => hne he.1, hreads.buffQueue]
          exact h.there
        · rw [Net.setWire_wire_self]
          exact hlink
    | full hreads hf hdone hok hbytes hnode =>
        rw [hx.nodeId] at hdone hnode
        obtain ⟨node₁, hnode₁, hchange, hconn⟩ := h.handle_back _ hx.nodeId hx.maxpeers hdr hxr hne hnow
          hframes hreads hdone
        obtain rfl : node₁ = _ := Except.ok.inj (hnode₁.symm.trans hnode)
        exact hinv.of_peer (Or.inl hmine) (fun y hy => by simp [hy]) (by simpa using hchange) hch
          (fun a b _ hba => Net.setWire_wire_of_ne hba) (fun _ => by
            obtain ⟨phase', cu', h'⟩ := hconn _ hbytes
            exact ⟨phase', cu', cv, h'⟩) fun h => absurd h hnot
  · -- `d` connected to `x`
    obtain ⟨phase, cu, cv, h⟩ := hinv.connection d x htheirs
    obtain rfl := h.acceptor_eq hchan
    have hnot := (hinv.valid d x htheirs).2.2.2
    have hthere : LinkOk bo (s.net.node x).nodeId cu.buffQueue (s.net.wire d x) chan
        (phase.there d x) := by
      rw [hx.nodeId]
      exact h.there
    generalize hframes : phase.there d x = frames at hthere
    cases hread.outcome hchan hthere with
    | @part _ chan' wire hreads hlink =>
        rw [hx.nodeId, ← hframes] at hlink
        refine hinv.of_peer (Or.inr htheirs) (fun y hy => by simp [hy])
          (by simpa using EndChange.put (s.net.node x)) hch
          (fun a b _ hba => Net.setWire_wire_of_ne hba)
          (fun h => absurd h hnot) (fun _ => ⟨phase, cu, chan', ?_⟩)
        refine h.set_acceptor (by simp [hne.symm]) ?_ ?_ rfl Iff.rfl Iff.rfl ?_
          (hreads.state.trans h.stateV) ?_ ?_
        · rw [Net.node_changed]
          exact Ioman.heap_put_self
        · rw [Net.node_changed]
          exact ⟨hreads.peerId.trans h.endV.peerId, h.endV.mapped,
              hreads.waitQueue.trans h.endV.waitQueue⟩
        · rw [Net.node_changed]
          exact h.rttV
        · rw [Net.setWire_wire_self]
          exact hlink
        · rw [Net.setWire_wire_of_ne fun he => hne he.1, hreads.buffQueue]
          exact h.back
    | full hreads hf hdone hok hbytes hnode =>
        rw [hx.nodeId] at hdone hnode
        obtain ⟨node₁, hnode₁, hchange, hconn⟩ := h.handle_there _ hx.nodeId hx.maxpeers hdr hxr hne
          hnow hframes hreads hdone
        obtain rfl : node₁ = _ := Except.ok.inj (hnode₁.symm.trans hnode)
        exact hinv.of_peer (Or.inr htheirs) (fun y hy => by simp [hy]) (by simpa using hchange) hch
          (fun a b _ hba => Net.setWire_wire_of_ne hba) (fun h => absurd h hnot) fun _ => by
            obtain ⟨phase', cv', h'⟩ := hconn _ hbytes
            exact ⟨phase', cu, cv', h'⟩

/-- **A write keeps the invariant.** -/
theorem HandshakeInv.write (hinv : HandshakeInv bo n s) (hn : n ≤ commMaxPeer) {sent : List Byte}
    (hwrite : NetWrite bo x d s.net sent net') : HandshakeInv bo n ⟨net', s.attempts⟩ := by
  have hx := hinv.node x
  have hch := hwrite.channelsInv hx.channels
  obtain ⟨chan, hchan, _⟩ : ∃ chan, (s.net.node x).man.heap (some d) = some chan ∧
      channelIsWritable chan := by
    obtain ⟨hready, _⟩ := hwrite
    exact hready.writable
  have hpeer := hinv.attempted hchan
  obtain ⟨hxr, hdr, hne⟩ := hinv.bounds hn hpeer
  obtain ⟨node', rfl, hnode⟩ := hwrite.outcome hchan
  rcases hpeer with hmine | htheirs
  · -- `x` connected to `d`
    obtain ⟨phase, cu, cv, h⟩ := hinv.connection x d hmine
    obtain rfl : chan = cu := Option.some.inj (hchan.symm.trans h.connector)
    have hnot := (hinv.valid x d hmine).2.2.2
    rcases hnode with ⟨hsetup, rfl, rfl⟩ | ⟨hactive, man', rfl, hrun⟩
    · -- the connection is made
      obtain rfl : phase = Phase.connecting := by
        by_contra hphase
        rw [h.stateU, if_neg hphase] at hsetup
        cases hsetup
      have hping : (handshakeFrame MsgKind.ping0 x (-1)).Ok := by
        refine handshakeFrame_ok (by decide) (by decide) ?_ (by decide)
        unfold commMaxPeer at hxr
        unfold FitsInt
        omega
      have hchange : EndChange (s.net.node x) (commNodeNotifyConnect bo ((s.net.node x).setMan
          ((s.net.node x).man.put (some d) (chan.setState ChannelStatus.active))) (some d)) d :=
        (EndChange.put _).trans (EndChange.modify _)
      refine hinv.of_peer (Or.inl hmine) (fun y hy => by simp [hy]) (by simpa using hchange) hch
        (fun a b hab _ => Net.setWire_wire_of_ne hab)
        (fun _ => ⟨Phase.ping0, channelSendMsg bo (handshakeFrame MsgKind.ping0 x (-1)).info []
          (chan.setState ChannelStatus.active), cv, ?_⟩) fun h => absurd h hnot
      refine h.set_connector (by simp [hne.symm]) ?_ ?_ rfl nofun (by simp) rfl
        h.connect ?_ ?_
      · rw [Net.node_changed]
        exact CommNode.notifyConnect_heap _ Ioman.heap_put_self hx.nodeId
      · rw [Net.node_changed]
        exact ⟨h.endU.peerId, h.endU.mapped, h.endU.waitQueue⟩
      · rw [Net.setWire_wire_self, List.append_nil]
        exact h.there.append hping (unsent_handshakeFrame x (-1))
      · rw [Net.setWire_wire_of_ne fun he => hne he.1.symm, Net.setNode_wire]
        exact h.back.congr (iff_of_false nofun (by rw [hsetup]; nofun)) rfl rfl rfl rfl
    · -- buffers are sent
      obtain ⟨queue', rfl, hflat⟩ := hrun.of_idle hchan h.endU.waitQueue
      refine hinv.of_peer (Or.inl hmine) (fun y hy => by simp [hy])
        (by simpa using EndChange.modify (s.net.node x)) hch
        (fun a b hab _ => Net.setWire_wire_of_ne hab)
        (fun _ => ⟨phase, chan.setBuffQueue queue', cv, ?_⟩) fun h => absurd h hnot
      refine h.set_connector (by simp [hne.symm]) ?_ ?_ rfl ?_ id h.stateU h.connect ?_ ?_
      · rw [Net.node_changed]
        exact Ioman.heap_modify_eq hchan
      · rw [Net.node_changed]
        exact ⟨h.endU.peerId, h.endU.mapped, h.endU.waitQueue⟩
      · rw [Net.node_changed]
        exact h.rttU
      · rw [Net.setWire_wire_self]
        exact h.there.send hflat
      · rw [Net.setWire_wire_of_ne fun he => hne he.1.symm, Net.setNode_wire]
        exact h.back.congr Iff.rfl rfl rfl rfl rfl
  · -- `d` connected to `x`
    obtain ⟨phase, cu, cv, h⟩ := hinv.connection d x htheirs
    obtain rfl := h.acceptor_eq hchan
    have hnot := (hinv.valid d x htheirs).2.2.2
    rcases hnode with ⟨hsetup, rfl, rfl⟩ | ⟨hactive, man', rfl, hrun⟩
    · rw [h.stateV] at hsetup
      cases hsetup
    · obtain ⟨queue', rfl, hflat⟩ := hrun.of_idle hchan h.endV.waitQueue
      refine hinv.of_peer (Or.inr htheirs) (fun y hy => by simp [hy])
        (by simpa using EndChange.modify (s.net.node x)) hch
        (fun a b hab _ => Net.setWire_wire_of_ne hab) (fun h => absurd h hnot)
        (fun _ => ⟨phase, cu, chan.setBuffQueue queue', ?_⟩)
      refine h.set_acceptor (by simp [hne.symm]) ?_ ?_ rfl Iff.rfl Iff.rfl ?_ h.stateV ?_ ?_
      · rw [Net.node_changed]
        exact Ioman.heap_modify_eq hchan
      · rw [Net.node_changed]
        exact ⟨h.endV.peerId, h.endV.mapped, h.endV.waitQueue⟩
      · rw [Net.node_changed]
        exact h.rttV
      · rw [Net.setWire_wire_of_ne fun he => hne he.1.symm, Net.setNode_wire]
        exact h.there.congr Iff.rfl rfl rfl rfl rfl
      · rw [Net.setWire_wire_self]
        exact h.back.send hflat

/-- An attempt to connect starts in the first phase. -/
theorem HandshakeInv.connect (hinv : HandshakeInv bo n s) {u v : ℤ} (hu : 0 ≤ u ∧ u < n)
    (hv : 0 ≤ v ∧ v < n) (hne : u ≠ v) (hnew : (u, v) ∉ s.attempts ∧ (v, u) ∉ s.attempts) :
    HandshakeInv bo n ⟨s.net.setNode u (commNodeAsyncConnect (s.net.node u) (some (some v))).2,
      (u, v) :: s.attempts⟩ := by
  obtain ⟨hheap, hmap, hw⟩ := hinv.apart u v hnew.1 hnew.2
  obtain ⟨hheap', hmap', hw'⟩ := hinv.apart v u hnew.2 hnew.1
  have hself : (s.net.setNode u (commNodeAsyncConnect (s.net.node u) (some (some v))).2).node u =
      (commNodeAsyncConnect (s.net.node u) (some (some v))).2 := Net.setNode_node_self
  have hother : ∀ y, y ≠ u → (s.net.setNode u
      (commNodeAsyncConnect (s.net.node u) (some (some v))).2).node y = s.net.node y :=
    fun y hy => Net.setNode_node_of_ne hy
  have hwire : (s.net.setNode u (commNodeAsyncConnect (s.net.node u) (some (some v))).2).wire =
      s.net.wire := rfl
  generalize s.net.setNode u (commNodeAsyncConnect (s.net.node u) (some (some v))).2 = net' at *
  have hsame : ∀ y e, ¬ (y = u ∧ e = v) → SameEnd (s.net.node y) (net'.node y) e := by
    intro y e hye
    by_cases hy : y = u
    · subst hy
      rw [hself]
      exact ⟨Function.update_of_ne (some_ne_some fun he => hye ⟨rfl, he⟩) _ _, rfl, rfl⟩
    · rw [hother y hy]
      exact SameEnd.refl _ e
  constructor
  case node =>
    intro y
    by_cases hy : y = u
    · subst hy
      have h := hinv.node y
      dsimp only
      rw [hself]
      refine ⟨h.nodeId, h.maxpeers, h.localChan, commNodeNewConnection_channelsInv (some (some v))
        (fun c hc => Option.some.inj hc ▸ hheap) h.channels, fun kind body hm => ?_⟩
      rcases List.mem_append.1 hm with hm | hm
      · exact h.noBcast kind body hm
      · cases List.mem_singleton.1 hm
    · dsimp only
      rw [hother y hy]
      exact hinv.node y
  case valid =>
    intro y e hye
    rcases List.mem_cons.1 hye with hye | hye
    · cases hye
      refine ⟨hu, hv, hne, fun h => ?_⟩
      rcases List.mem_cons.1 h with h | h
      · exact hne (Prod.mk.inj h).2
      · exact hnew.2 h
    · obtain ⟨h1, h2, h3, h4⟩ := hinv.valid y e hye
      refine ⟨h1, h2, h3, fun h => ?_⟩
      rcases List.mem_cons.1 h with h | h
      · cases h
        exact hnew.2 hye
      · exact h4 h
  case apart =>
    intro y e hye hey
    obtain ⟨hye, hye'⟩ := not_or.1 (mt List.mem_cons.2 hye)
    have hey' := (not_or.1 (mt List.mem_cons.2 hey)).2
    obtain ⟨h1, h2, h3⟩ := hinv.apart y e hye' hey'
    have h := hsame y e fun h => hye (by rw [h.1, h.2])
    exact ⟨h.heap.trans h1, h.channelMap.trans h2, by rw [hwire]; exact h3⟩
  case connection =>
    intro y e hye
    rcases List.mem_cons.1 hye with heq | hold
    · obtain ⟨rfl, rfl⟩ := Prod.mk.inj heq
      have hpeer := hsame e y fun h => hne h.1.symm
      refine ⟨Phase.connecting, channelSetupCreate, channelActiveCreate, ?_⟩
      refine ⟨?_, Or.inr ⟨hpeer.heap.trans hheap', rfl⟩, ⟨rfl, ?_, rfl⟩,
        ⟨rfl, hpeer.channelMap.trans hmap', rfl⟩, nofun, by simp, rfl, rfl, rfl, ?_, ?_⟩
      · dsimp only
        rw [hself]
        exact Function.update_self _ _ _
      · dsimp only
        rw [hself]
        exact hmap
      · dsimp only
        rw [hwire, hw]
        exact LinkOk.idle nofun rfl rfl
      · dsimp only
        rw [hwire, hw']
        exact LinkOk.idle nofun rfl rfl
    · obtain ⟨phase, cu, cv, h⟩ := hinv.connection y e hold
      refine ⟨phase, cu, cv, h.congr (hsame y e ?_) (hsame e y ?_) (by rw [hwire]) (by rw [hwire])⟩
      · rintro ⟨rfl, rfl⟩
        exact hnew.1 hold
      · rintro ⟨rfl, rfl⟩
        exact hnew.2 hold
  case pending =>
    intro y p hp c hc
    have hold : p ∈ (s.net.node y).pendingConns →
        ∃ e, c = some e ∧ (y, e) ∈ (u, v) :: s.attempts := by
      intro hp
      obtain ⟨e, he, hye⟩ := hinv.pending y p hp c hc
      exact ⟨e, he, List.mem_cons_of_mem _ hye⟩
    by_cases hy : y = u
    · subst hy
      dsimp only at hp
      rw [hself] at hp
      rcases List.mem_cons.1 hp with rfl | hp
      · cases hc
        exact ⟨v, rfl, List.mem_cons_self⟩
      · exact hold hp
    · dsimp only at hp
      rw [hother y hy] at hp
      exact hold hp

/-- The node that is connected to accepts. -/
theorem HandshakeInv.accept (hinv : HandshakeInv bo n s) {u v : ℤ} (hattempt : (u, v) ∈ s.attempts)
    (hnew : (s.net.node v).man.heap (some u) = none) :
    HandshakeInv bo n ⟨s.net.setNode v ((s.net.node v).setMan
      (iomanAccept (s.net.node v).man (some u))), s.attempts⟩ := by
  obtain ⟨_, _, hne, hnot⟩ := hinv.valid u v hattempt
  obtain ⟨phase, cu, cv, h⟩ := hinv.connection u v hattempt
  obtain rfl : cv = channelActiveCreate := by
    rcases h.acceptor with hcv | ⟨_, hcv⟩
    · rw [hnew] at hcv
      cases hcv
    · exact hcv
  have hx := hinv.node v
  have hchange : EndChange (s.net.node v) ((s.net.node v).setMan
      (iomanAccept (s.net.node v).man (some u))) u :=
    ⟨rfl, rfl, rfl, fun _ _ h => h, rfl,
      fun _ he => ⟨Function.update_of_ne (some_ne_some he) _ _, rfl, rfl⟩⟩
  refine hinv.of_peer (Or.inr hattempt) (fun y hy => by simp [hy]) (by simpa using hchange) ?_
    (fun _ _ _ _ => rfl) (fun h => absurd h hnot)
    fun _ => ⟨phase, cu, channelActiveCreate, ?_⟩
  · rw [Net.setNode_node_self]
    exact iomanAccept_channelsInv hnew hx.channels
  · refine h.set_acceptor (by simp [hne]) ?_ ?_ rfl Iff.rfl Iff.rfl ?_ rfl h.there h.back
    · rw [Net.setNode_node_self]
      exact Function.update_self _ _ _
    · rw [Net.setNode_node_self]
      exact ⟨h.endV.peerId, h.endV.mapped, rfl⟩
    · rw [Net.setNode_node_self]
      exact h.rttV

/-- An event announces a channel, or a message. -/
theorem HandshakeInv.event (hinv : HandshakeInv bo n s) {man' : Ioman (Option ℤ)}
    (hevent : iomanHandleEvent bo (s.net.node x).man = Except.ok man') :
    HandshakeInv bo n ⟨s.net.setNode x ((s.net.node x).setMan man'), s.attempts⟩ := by
  have hx := hinv.node x
  have hch := (iomanHandleEvent_channelsInv hevent hx.channels).1
  have hman : ∃ channels events, man' = { (s.net.node x).man with
      channels := channels, events := events } ∧ ∀ e ∈ events, e ∈ (s.net.node x).man.events := by
    unfold iomanHandleEvent at hevent
    split at hevent
    · cases hevent
    · rename_i event events hevents
      have hsub : ∀ e ∈ events, e ∈ (s.net.node x).man.events := by
        intro e he
        rw [hevents]
        exact List.mem_cons_of_mem _ he
      cases event with
      | newchan c =>
          cases hevent
          exact ⟨_, events, rfl, hsub⟩
      | newmsg =>
          cases hevent
          exact ⟨_, events, rfl, hsub⟩
      | bcastmsg kind body =>
          refine absurd ?_ (hx.noBcast kind body)
          rw [hevents]
          exact List.mem_cons_self
  obtain ⟨channels, events, rfl, hsub⟩ := hman
  refine hinv.of_same (fun y hy => Net.setNode_node_of_ne hy) ?_ (fun d => ?_) rfl (fun p hp => ?_)
  · rw [Net.setNode_node_self]
    exact ⟨hx.nodeId, hx.maxpeers, hx.localChan, hch,
      fun kind body hm => hx.noBcast kind body (hsub _ hm)⟩
  · rw [Net.setNode_node_self]
    exact ⟨rfl, rfl, rfl⟩
  · rwa [Net.setNode_node_self] at hp

/-- **Every step keeps the invariant.** -/
theorem HandshakeStep.inv (h : HandshakeStep bo n s t) (hn : n ≤ commMaxPeer)
    (hinv : HandshakeInv bo n s) : HandshakeInv bo n t := by
  cases h with
  | connect hu hv hne hnew => exact hinv.connect hu hv hne hnew
  | accept hattempt hnew => exact hinv.accept hattempt hnew
  | event hevent => exact hinv.event hevent
  | read hnow hread => exact hinv.read hn hnow hread
  | write hwrite => exact hinv.write hn hwrite
  | @connectWait u handle ret node' hwait =>
      have hu := hinv.node u
      have hman := commNodeConnectWait_man hwait
      have hnode : node'.rtts = (s.net.node u).rtts ∧
          ∀ p ∈ node'.pendingConns, p ∈ (s.net.node u).pendingConns := by
        rcases commNodeConnectWait_cases hwait with
          ⟨_, _, rfl⟩ | ⟨_, _, _, _, ⟨_, _, rfl⟩ | ⟨_, _, rfl⟩⟩
        · exact ⟨rfl, fun p hp => channelHashMapPop_sublist.subset hp⟩
        · exact ⟨rfl, fun p hp => channelHashMapPop_sublist.subset hp⟩
        · exact ⟨rfl, fun p hp => hp⟩
      refine hinv.of_same (fun y hy => Net.setNode_node_of_ne hy) ?_ (fun d => ?_) rfl (fun p hp => ?_)
      · rw [Net.setNode_node_self]
        refine ⟨?_, by rw [hman]; exact hu.maxpeers, by rw [hman]; exact hu.localChan,
          by rw [hman]; exact hu.channels, by rw [hman]; exact hu.noBcast⟩
        rw [CommNode.nodeId, hman]
        exact hu.nodeId
      · rw [Net.setNode_node_self]
        exact ⟨by rw [hman], by rw [hman], by rw [hnode.1]⟩
      · rw [Net.setNode_node_self] at hp
        exact hnode.2 p hp

end Invariant

/-! ### What holds in every state -/

/-- What should hold of a network of nodes that connect: no call fails, the map of channels agrees
with the peers, and a success of `comm_node_connect_wait` is known at both ends. -/
structure HandshakeOk (bo : ByteOrder) (s : Handshake) : Prop where
  read : ∀ u v now bursts rest, now ≠ 0 → ReadReady s.net u v bursts rest →
    ∃ node' script, iomanProcessChannelRead bo now (s.net.node u) (some v) (dataScript bursts) =
      Except.ok (true, node', script)
  write : ∀ u v rooms, WriteReady s.net u v →
    ∃ node' sent, iomanProcessChannelWrite bo (s.net.node u) (some v) true (roomScript rooms) =
      Except.ok (true, node', sent)
  event : ∀ u, (s.net.node u).man.events ≠ [] →
    ∃ man', iomanHandleEvent bo (s.net.node u).man = Except.ok man'
  wait : ∀ u handle, ∃ ret, commNodeConnectWait (s.net.node u) handle = Except.ok ret
  mapped : ∀ u d c, (s.net.node u).man.channelMap d = some c ↔ c ∈ (s.net.node u).man.channels ∧
    d ≠ channelPeerUnknown ∧ (s.net.node u).man.view Channel.peerId c = some d
  otherEnd : ∀ u d c, (s.net.node u).man.channelMap d = some c → c = some d
  agreed : ∀ u handle dst node', commNodeConnectWait (s.net.node u) handle =
      Except.ok (ConnectWait.success dst, node') →
    channelHashMapFind (s.net.node u).pendingConns handle = some (some dst) ∧
      (s.net.node u).man.channelMap dst = some (some dst) ∧
      (s.net.node dst).man.channelMap u = some (some u)

section Run

variable {bo : ByteOrder} {n : ℤ} {s : Handshake} {x d : ℤ}

/-- A read that is ready returns. -/
theorem HandshakeInv.read_ok (hinv : HandshakeInv bo n s) (hn : n ≤ commMaxPeer) {now : ℚ}
    (hnow : now ≠ 0) {bursts : List (List Byte)} {rest : List Byte}
    (hready : ReadReady s.net x d bursts rest) : ∃ node' script,
      iomanProcessChannelRead bo now (s.net.node x) (some d) (dataScript bursts) =
        Except.ok (true, node', script) := by
  have hx := hinv.node x
  obtain ⟨chan, hchan, _⟩ := hready.readable
  have hpeer := hinv.attempted hchan
  obtain ⟨hxr, hdr, hne⟩ := hinv.bounds hn hpeer
  have hlinks : ∃ queue frames, LinkOk bo (s.net.node x).nodeId queue (s.net.wire d x) chan frames ∧
      ∀ fr frames', frames = fr :: frames' → ∀ chan', Reads chan chan' →
        fr.Done bo (s.net.node x).nodeId chan' → ∀ msg, ∃ node', iomanReadDone bo now
          ((s.net.node x).setMan ((s.net.node x).man.put (some d) chan')) (some d) chan' msg =
            Except.ok node' := by
    rw [hx.nodeId]
    rcases hpeer with hmine | htheirs
    · obtain ⟨phase, cu, cv, h⟩ := hinv.connection x d hmine
      obtain rfl : chan = cu := Option.some.inj (hchan.symm.trans h.connector)
      refine ⟨_, _, h.back, fun fr frames' hframes chan' hreads hdone msg => ?_⟩
      obtain ⟨node', hnode, _⟩ := h.handle_back msg hx.nodeId hx.maxpeers hdr hxr hne hnow
        hframes hreads hdone
      exact ⟨node', hnode⟩
    · obtain ⟨phase, cu, cv, h⟩ := hinv.connection d x htheirs
      obtain rfl := h.acceptor_eq hchan
      refine ⟨_, _, h.there, fun fr frames' hframes chan' hreads hdone msg => ?_⟩
      obtain ⟨node', hnode, _⟩ := h.handle_there msg hx.nodeId hx.maxpeers hdr hxr hne hnow
        hframes hreads hdone
      exact ⟨node', hnode⟩
  obtain ⟨queue, frames, hlink, hdone⟩ := hlinks
  have hread : LinkRead bo now (s.net.node x) (some d) chan queue rest frames
      (iomanProcessChannelRead bo now (s.net.node x) (some d) (dataScript bursts)) :=
    hready.linkRead hchan hlink
  generalize iomanProcessChannelRead bo now (s.net.node x) (some d) (dataScript bursts) = res at hread ⊢
  cases hread with
  | part _ _ => exact ⟨_, _, rfl⟩
  | full hreads _ hd _ _ =>
      obtain ⟨node', hnode⟩ := hdone _ _ rfl _ hreads hd _
      rw [hnode]
      exact ⟨node', _, rfl⟩

/-- A write that is ready returns. -/
theorem HandshakeInv.write_ok (hinv : HandshakeInv bo n s) (rooms : List ℕ)
    (hready : WriteReady s.net x d) : ∃ node' sent,
      iomanProcessChannelWrite bo (s.net.node x) (some d) true (roomScript rooms) =
        Except.ok (true, node', sent) := by
  obtain ⟨chan, hchan, _⟩ := hready.writable
  have hends : chan.waitQueue = [] ∧ (chan.state = ChannelStatus.setup ∨
      chan.state = ChannelStatus.active) := by
    rcases hinv.attempted hchan with hmine | htheirs
    · obtain ⟨phase, cu, cv, h⟩ := hinv.connection x d hmine
      obtain rfl : chan = cu := Option.some.inj (hchan.symm.trans h.connector)
      refine ⟨h.endU.waitQueue, ?_⟩
      rw [h.stateU]
      split
      · exact Or.inl rfl
      · exact Or.inr rfl
    · obtain ⟨phase, cu, cv, h⟩ := hinv.connection d x htheirs
      obtain rfl := h.acceptor_eq hchan
      exact ⟨h.endV.waitQueue, Or.inr h.stateV⟩
  have hunblock : UnblockOk (s.net.node x).man (some d) := by
    refine ⟨Ioman.live_of_heap hchan, ?_, fun w hw => ?_⟩
    · rw [Ioman.waitQueue_eq hchan, hends.1]
      exact List.nodup_nil
    · rw [Ioman.waitQueue_eq hchan, hends.1] at hw
      cases hw
  unfold iomanProcessChannelWrite
  rw [Ioman.get_eq_ok.2 hchan, ok_bind]
  rcases hends.2 with hstate | hstate
  · simp only [hstate, channelMakeActive, decide_true, cAssert_true, ok_bind, if_true]
    exact ⟨_, _, rfl⟩
  · obtain ⟨r, hr, hstat⟩ := channelWrite_ok rooms hunblock
    simp only [hstate, hr, ok_bind, ne_eq, hstat, not_false_eq_true, decide_true]
    exact ⟨_, _, rfl⟩

/-- A round of `comm_node_connect_wait` returns, and a success is known at both ends. -/
theorem HandshakeInv.wait_ok (hinv : HandshakeInv bo n s) (handle : ℕ) :
    ∃ ret, commNodeConnectWait (s.net.node x) handle = Except.ok ret ∧
      ∀ dst, ret.1 = ConnectWait.success dst →
        channelHashMapFind (s.net.node x).pendingConns handle = some (some dst) ∧
          (s.net.node x).man.channelMap dst = some (some dst) ∧
          (s.net.node dst).man.channelMap x = some (some x) := by
  unfold commNodeConnectWait
  dsimp only
  cases hfind : channelHashMapFind (s.net.node x).pendingConns handle with
  | none => exact ⟨_, rfl, nofun⟩
  | some c =>
      obtain ⟨v, rfl, hattempt⟩ := hinv.pending x _ (channelHashMapFind_eq_some hfind) c rfl
      obtain ⟨phase, cu, cv, h⟩ := hinv.connection x v hattempt
      dsimp only
      rw [Ioman.get_eq_ok.2 h.connector, ok_bind]
      unfold channelIsEstablished
      rw [h.connect]
      by_cases hphase : phase = Phase.established
      · subst hphase
        refine ⟨_, rfl, fun dst hdst => ?_⟩
        obtain rfl : v = dst := by
          have hpeer := h.endU.peerId
          rw [show cu.peerId = dst from ConnectWait.success.inj hdst] at hpeer
          exact hpeer.symm
        exact ⟨rfl, h.endU.mapped, h.endV.mapped⟩
      · rw [if_neg hphase]
        exact ⟨_, rfl, nofun⟩

/-- A channel that is mapped leads to the peer it is mapped for. -/
theorem HandshakeInv.otherEnd (hinv : HandshakeInv bo n s) {c : Option ℤ}
    (h : (s.net.node x).man.channelMap d = some c) : c = some d := by
  have hx := (hinv.node x).channels
  obtain ⟨hc, hknown, hpeer⟩ := hx.mapped d c h
  cases c with
  | none => exact absurd (hinv.node x).localChan.symm (hx.ne_localChan hc)
  | some v =>
      obtain ⟨chan, hchan⟩ := Ioman.exists_of_live (hx.channels_live hc)
      rw [Ioman.view_eq hchan, Option.some.injEq] at hpeer
      have hends : chan.peerId = channelPeerUnknown ∨ chan.peerId = v := by
        rcases hinv.attempted hchan with hmine | htheirs
        · obtain ⟨phase, cu, cv, h⟩ := hinv.connection x v hmine
          obtain rfl : chan = cu := Option.some.inj (hchan.symm.trans h.connector)
          rw [h.endU.peerId]
          split
          · exact Or.inr rfl
          · exact Or.inl rfl
        · obtain ⟨phase, cu, cv, h⟩ := hinv.connection v x htheirs
          obtain rfl := h.acceptor_eq hchan
          rw [h.endV.peerId]
          split
          · exact Or.inr rfl
          · exact Or.inl rfl
      rcases hends with hunknown | hv
      · exact absurd (hpeer.symm.trans hunknown) hknown
      · rw [← hpeer, hv]

theorem handshakeReach_inv (hn : n ≤ commMaxPeer)
    (h : Reach Handshake.Init (HandshakeStep bo n) s) : HandshakeInv bo n s :=
  h.inv (fun _ => handshakeInv_init) fun _ _ hinv hstep => hstep.inv hn hinv

/-- **Agreement of the handshakes**, in every state of a network whose node ids are below
`COMM_MAX_PEER`. -/
theorem handshake_agreement (hn : n ≤ commMaxPeer)
    (h : Reach Handshake.Init (HandshakeStep bo n) s) : HandshakeOk bo s := by
  have hinv := handshakeReach_inv hn h
  refine ⟨fun u v now bursts rest hnow hready => hinv.read_ok hn hnow hready,
    fun u v rooms hready => hinv.write_ok rooms hready, fun u hne => iomanHandleEvent_ok bo hne,
    fun u handle => ?_, fun u d c => ⟨fun hmap => ?_, ?_⟩, fun u d c hmap => hinv.otherEnd hmap,
    fun u handle dst node' hwait => ?_⟩
  · obtain ⟨ret, hret, _⟩ := hinv.wait_ok (x := u) handle
    exact ⟨ret, hret⟩
  · exact (hinv.node u).channels.mapped d c hmap
  · rintro ⟨hc, hknown, hpeer⟩
    exact (hinv.node u).channels.registered c (List.mem_append_left _ hc) d hpeer hknown
  · obtain ⟨ret, hret, hagree⟩ := hinv.wait_ok (x := u) handle
    rw [hwait] at hret
    obtain rfl := Except.ok.inj hret
    exact hagree dst rfl

/-- The theorem at a state in which node 0 connects to node 1. -/
theorem handshake_agreement_two : ∃ s : Handshake, (0, 1) ∈ s.attempts ∧
    HandshakeOk ByteOrder.little s := by
  have hreach : Reach Handshake.Init (HandshakeStep ByteOrder.little 2) _ :=
    (Reach.init (show Handshake.Init _ from rfl)).step
      (HandshakeStep.connect (u := 0) (v := 1) (by decide) (by decide) (by decide)
        ⟨List.not_mem_nil, List.not_mem_nil⟩)
  exact ⟨_, List.mem_cons_self, handshake_agreement (by decide) hreach⟩

end Run

/-! ### Ids that are too large -/

section TooLarge

theorem iomanProcessChannelWrite_connect {bo : ByteOrder} {node : CommNode (Option ℤ)} {c : Option ℤ}
    {chan : Channel (Option ℤ)} {script : List SendEvent} (hchan : node.man.heap c = some chan)
    (hstate : chan.state = ChannelStatus.setup) :
    iomanProcessChannelWrite bo node c true script = Except.ok (true, commNodeNotifyConnect bo
      (node.setMan (node.man.put c (chan.setState ChannelStatus.active))) c, []) := by
  unfold iomanProcessChannelWrite
  rw [Ioman.get_eq_ok.2 hchan, ok_bind]
  simp only [hstate, channelMakeActive, decide_true, cAssert_true, ok_bind, if_true]
  rfl

theorem iomanProcessChannelWrite_whole {bo : ByteOrder} {node : CommNode (Option ℤ)} {c : Option ℤ}
    {chan : Channel (Option ℤ)} {buff : MsgBuff} {k : ℕ} (hchan : node.man.heap c = some chan)
    (hstate : chan.state = ChannelStatus.active) (hq : chan.buffQueue = [buff])
    (hwait : chan.waitQueue = []) (hne : buff.unsent ≠ []) (hk : buff.unsent.length ≤ k) :
    iomanProcessChannelWrite bo node c true (roomScript [k]) = Except.ok (true,
      node.setMan (node.man.modify c (Channel.setBuffQueue [])), buff.unsent) := by
  unfold iomanProcessChannelWrite
  rw [Ioman.get_eq_ok.2 hchan, ok_bind]
  simp only [hstate]
  rw [channelWrite_whole hchan hq hwait hne hk, ok_bind]
  rfl

/-- A network of 1025 nodes in which node 1024 connects to node 0; `chan` is the end of node 1024,
and `wire` are the bytes under way. -/
structure Calling (s : Handshake) (chan : Channel (Option ℤ)) (wire : List Byte) : Prop where
  reach : Reach Handshake.Init (HandshakeStep ByteOrder.little 1025) s
  attempt : (1024, 0) ∈ s.attempts
  nodeId : (s.net.node 1024).nodeId = 1024
  channel : some 0 ∈ (s.net.node 1024).man.channels
  heap : (s.net.node 1024).man.heap (some 0) = some chan
  called : s.net.node 0 = commNodeCreate 0 none
  wire : s.net.wire 1024 0 = wire

theorem calling_setup : ∃ s, Calling s channelSetupCreate [] := by
  have hconnect : Reach Handshake.Init (HandshakeStep ByteOrder.little 1025) _ :=
    (Reach.init (show Handshake.Init _ from rfl)).step
      (HandshakeStep.connect (u := 1024) (v := 0) (by decide) (by decide) (by decide)
        ⟨List.not_mem_nil, List.not_mem_nil⟩)
  exact ⟨_, hconnect.step (HandshakeStep.event (u := 1024) rfl), List.mem_cons_self, rfl,
    List.mem_cons_self, rfl, rfl, rfl⟩

theorem Calling.write {s : Handshake} {chan chan' : Channel (Option ℤ)} {wire sent : List Byte}
    (h : Calling s chan wire) (hwritable : channelIsWritable chan)
    {rooms : List ℕ} {node' : CommNode (Option ℤ)}
    (hwrite : iomanProcessChannelWrite ByteOrder.little (s.net.node 1024) (some 0) true
      (roomScript rooms) = Except.ok (true, node', sent)) (hid : node'.nodeId = 1024)
    (hchannel : some 0 ∈ node'.man.channels) (hheap : node'.man.heap (some 0) = some chan') :
    ∃ t, Calling t chan' (wire ++ sent) := by
  refine ⟨_, h.reach.step (HandshakeStep.write
    (NetWrite.intro ⟨h.channel, chan, h.heap, hwritable⟩ hwrite)), h.attempt, ?_, ?_, ?_, ?_, ?_⟩
  · dsimp only
    rw [Net.node_changed]
    exact hid
  · dsimp only
    rw [Net.node_changed]
    exact hchannel
  · dsimp only
    rw [Net.node_changed]
    exact hheap
  · dsimp only
    rw [Net.setWire_node, Net.setNode_node_of_ne (by decide)]
    exact h.called
  · dsimp only
    rw [Net.setWire_wire_self, h.wire]

/-- PING0 gets into the socket. -/
theorem calling_ping : ∃ s chan,
    Calling s chan ((handshakeFrame MsgKind.ping0 1024 (-1)).encode ByteOrder.little) := by
  obtain ⟨s, hs⟩ := calling_setup
  have hconnect : iomanProcessChannelWrite ByteOrder.little (s.net.node 1024) (some 0) true
      (roomScript []) = _ := iomanProcessChannelWrite_connect hs.heap rfl
  obtain ⟨t, ht⟩ := hs.write rfl hconnect hs.nodeId hs.channel
    (CommNode.notifyConnect_heap _ Ioman.heap_put_self hs.nodeId)
  have hunsent : (channelPackBuff ByteOrder.little (handshakeFrame MsgKind.ping0 1024 (-1)).info
      []).unsent = (handshakeFrame MsgKind.ping0 1024 (-1)).encode ByteOrder.little :=
    unsent_handshakeFrame 1024 (-1)
  have hwrite : iomanProcessChannelWrite ByteOrder.little (t.net.node 1024) (some 0) true
      (roomScript [100]) = _ :=
    iomanProcessChannelWrite_whole ht.heap rfl rfl rfl (by rw [hunsent]; exact Frame.encode_ne_nil)
      (by rw [hunsent, Frame.encode_length]; rfl)
  obtain ⟨r, hr⟩ := ht.write rfl hwrite ht.nodeId ht.channel (Ioman.heap_modify_eq ht.heap)
  rw [hunsent] at hr
  exact ⟨r, _, hr⟩

set_option maxRecDepth 10000 in
/-- Node 0 cannot register a node 1024. -/
theorem handshake_read_fails : iomanProcessChannelRead ByteOrder.little 1
    ((commNodeCreate 0 none).setMan (iomanAccept (commNodeCreate 0 none).man (some 1024)))
    (some (1024 : ℤ)) (dataScript [(handshakeFrame MsgKind.ping0 1024 (-1)).encode
      ByteOrder.little]) = Except.error Abort.badAccess := by
  rfl

/-- **A node whose id is not below `COMM_MAX_PEER` breaks the handshake**: the node that it connects
to registers it outside of its map. -/
theorem handshake_fails : ∃ s : Handshake,
    Reach Handshake.Init (HandshakeStep ByteOrder.little 1025) s ∧
      ¬ HandshakeOk ByteOrder.little s := by
  obtain ⟨s, chan, hs⟩ := calling_ping
  have haccept := hs.reach.step (HandshakeStep.accept hs.attempt (by rw [hs.called]; rfl))
  refine ⟨_, haccept, fun hok => ?_⟩
  have hnode : (s.net.setNode 0 ((s.net.node 0).setMan
      (iomanAccept (s.net.node 0).man (some 1024)))).node 0 = (commNodeCreate 0 none).setMan
        (iomanAccept (commNodeCreate 0 none).man (some 1024)) := by
    rw [Net.setNode_node_self, hs.called]
  have hready : ReadReady (s.net.setNode 0 ((s.net.node 0).setMan
      (iomanAccept (s.net.node 0).man (some 1024)))) 0 1024
      [(handshakeFrame MsgKind.ping0 1024 (-1)).encode ByteOrder.little] [] := by
    refine ⟨?_, ⟨channelActiveCreate, ?_, rfl⟩, ?_, ?_⟩
    · rw [hnode]
      exact List.mem_cons_self
    · rw [hnode]
      exact heap_new rfl
    · rw [List.flatten_singleton, List.append_nil]
      exact hs.wire
    · rw [List.flatten_singleton]
      exact Frame.encode_ne_nil
  obtain ⟨node', script, hread⟩ := hok.read 0 1024 1 _ [] one_ne_zero hready
  dsimp only at hread
  rw [hnode, handshake_read_fails] at hread
  cases hread

end TooLarge

end DLFree
