/-
**The I/O manager and the communicator of a node: `comm/ioman.c` and `comm/comm.c`.**

The I/O thread of a node waits for events of its notify pipe, new connections, chunks in the local
channel, and readable and writable channels, and handles them one after another.  Handshake and
table messages are handled by the communicator; a chunk is delivered, or moved to the queue of the
next hop, or blocks its channel until that queue has room.

A reference to a channel is a name of the type `κ`; the heap maps the names of the channels that
exist, and using any other name is a bad access.  Delivered chunks are handed to the reassembly of
messages, which is not part of this module.

Main definitions:

* `Ioman`, `CommNode` — `struct ioman` and `struct comm_node`;
* `channelPipelineChunk`, `channelWrite` — moving chunks between channels;
* `commNodeHandleMsg` — the handshake and the flooding of tables;
* `iomanProcessLocalChannelRead`, `iomanProcessChannelRead`, `iomanProcessChannelWrite`,
  `iomanHandleEvent`, `iomanDeleteChannel` — what the I/O thread does;
* `commNodeAsyncConnect`, `commNodeConnectWait`, `commNodeExchangeRt` — what user threads do.
-/

import DLFree.Channel
import DLFree.Rtable

set_option relaxedAutoImplicit false
set_option autoImplicit false

namespace DLFree

/-- `COMM_MAX_PEER`. -/
def commMaxPeer : ℕ := 1024

/-- An event in the notify pipe, with what is written after it. -/
inductive IomanEvent (κ : Type)
  | newchan (chan : κ)
  | newmsg
  | bcastmsg (kind : MsgKind) (buff : List Byte)
  deriving DecidableEq, Repr

/-- `struct ioman`: the channels, the notify pipe, and the heap in which the channels live. -/
structure Ioman (κ : Type) where
  nodeId : ℤ
  channels : List κ
  channelMap : ℤ → Option κ
  maxpeers : ℕ
  localChan : κ
  events : List (IomanEvent κ)
  heap : κ → Option (Channel κ)

/-- A user thread that waits for the condition variable of a node: for the connection of a handle,
or for the tables of all peers. -/
inductive CondWaiter
  | connect (handle : ℕ)
  | exchange (numPeers : ℕ)
  deriving DecidableEq, Repr

/-- `struct comm_node`; `cond` are the threads that wait for the condition variable, and `chunks` the
chunks that have been handed to the reassembly. -/
structure CommNode (κ : Type) where
  man : Ioman κ
  cond : List CondWaiter
  pendingConns : List (ℕ × Option κ)
  keyC : ℕ
  rtts : ℤ → ℚ
  rts : ℤ → Option OverlayRtable
  numRts : ℕ
  maxWidth : ℤ
  minWidth : ℤ
  chunks : List (MsgInfo × List Byte)

/-- The channels of a node change. -/
def CommNode.setMan {κ : Type} (node : CommNode κ) (man : Ioman κ) : CommNode κ := { node with man }

/-- `node -> node_id`. -/
def CommNode.nodeId {κ : Type} (node : CommNode κ) : ℤ := node.man.nodeId

section Code

variable {κ : Type} [DecidableEq κ]

/-! ### The heap -/

/-- The channel behind a reference. -/
def Ioman.get (man : Ioman κ) (c : κ) : Except Abort (Channel κ) :=
  match man.heap c with
  | none => Except.error Abort.badAccess
  | some chan => Except.ok chan

/-- A channel changes in place. -/
def Ioman.modify (man : Ioman κ) (c : κ) (f : Channel κ → Channel κ) : Ioman κ :=
  { man with heap := fun x => if x = c then (man.heap x).map f else man.heap x }

/-- A channel is replaced. -/
def Ioman.put (man : Ioman κ) (c : κ) (chan : Channel κ) : Ioman κ :=
  { man with heap := Function.update man.heap c (some chan) }

/-- An index into an array of `maxpeers` elements. -/
def Ioman.checkPeer (man : Ioman κ) (id : ℤ) : Except Abort Unit :=
  if 0 ≤ id ∧ id < man.maxpeers then Except.ok () else Except.error Abort.badAccess

/-- `ioman_create`; `c` is the name of the local channel. -/
def iomanCreate (nodeId : ℤ) (maxpeers : ℕ) (c : κ) : Ioman κ where
  nodeId := nodeId
  channels := []
  channelMap := fun _ => none
  maxpeers := maxpeers
  localChan := c
  events := []
  heap := Function.update (fun _ => none) c (some (channelLocalCreate nodeId))

/-- `comm_node_create`; `min_width` starts with `INT_MAX`. -/
def commNodeCreate (nodeId : ℤ) (c : κ) : CommNode κ where
  man := iomanCreate nodeId commMaxPeer c
  cond := []
  pendingConns := []
  keyC := 0
  rtts := fun _ => 0
  rts := fun _ => none
  numRts := 0
  maxWidth := 0
  minWidth := 2 ^ 31 - 1
  chunks := []

/-! ### Moving chunks -/

/-- `channel_pipeline_chunk` while the queue of `next` has room. -/
def Ioman.moveChunk (man : Ioman κ) (c next : κ) (buff : MsgBuff) : Ioman κ :=
  let man := man.modify c (Channel.setState ChannelStatus.active)
  let man := man.modify next (Channel.appendBuff buff)
  man.modify c (Channel.setCurrBuff none)

/-- `channel_pipeline_chunk` when the queue of `next` is full. -/
def Ioman.joinWaitQueue (man : Ioman κ) (c next : κ) : Ioman κ :=
  let man := man.modify c (Channel.setState ChannelStatus.blocking)
  man.modify next (Channel.appendWaiter c)

/-- `channel_pipeline_chunk`; the result is whether the chunk was moved. -/
def channelPipelineChunk (man : Ioman κ) (c next : κ) : Except Abort (Bool × Ioman κ) := do
  let chan ← man.get c
  match chan.currBuff with
  | none => Except.error Abort.assertion
  | some buff => do
      let nextChan ← man.get next
      if nextChan.buffQueue.length < channelMsgQueueLimit then
        Except.ok (true, man.moveChunk c next buff)
      else Except.ok (false, man.joinWaitQueue c next)

/-- The loop of `channel_write` that releases producers, from the given wait queue on. -/
def channelUnblock (man : Ioman κ) (c : κ) : List κ → Except Abort (Bool × Ioman κ)
  | [] => Except.ok (false, man)
  | waiter :: waitQueue => do
      let chan ← man.get c
      if chan.buffQueue.length < channelMsgQueueLimit then do
        let man := man.modify c (Channel.setWaitQueue waitQueue)
        let (stat, man) ← channelPipelineChunk man waiter c
        cAssert stat
        let (_, man) ← channelUnblock man c waitQueue
        Except.ok (true, man)
      else Except.ok (false, man)

/-- What `channel_write` returns and leaves: the status, whether a producer was released, and the
bytes that were sent. -/
structure ChannelWrite (κ : Type) where
  stat : ChannelWriteStatus
  unblock : Bool
  man : Ioman κ
  sent : List Byte

/-- The outer loop of `channel_write`. -/
def channelWriteLoop (c : κ) :
    ℕ → Ioman κ → Bool → List SendEvent → Except Abort (ChannelWrite κ)
  | fuel, man, unblock, script => do
      let chan ← man.get c
      match chan.buffQueue with
      | [] => Except.ok ⟨ChannelWriteStatus.ok, unblock, man, []⟩
      | buff :: buffQueue =>
          match fuel with
          | 0 => Except.error Abort.diverges
          | fuel + 1 =>
              let (stat, buff, script, sent) := sendBuff script buff
              if stat = ChannelWriteStatus.ok then do
                let man := man.modify c (Channel.setBuffQueue buffQueue)
                let (released, man) ← channelUnblock man c chan.waitQueue
                let r ← channelWriteLoop c fuel man (unblock || released) script
                Except.ok { r with sent := sent ++ r.sent }
              else
                let man := man.modify c (Channel.setBuffQueue (buff :: buffQueue))
                Except.ok ⟨stat, unblock, man, sent⟩

/-- `channel_write`. -/
def channelWrite (man : Ioman κ) (c : κ) (script : List SendEvent) :
    Except Abort (ChannelWrite κ) := do
  let chan ← man.get c
  channelWriteLoop c (chan.buffQueue.length + chan.waitQueue.length) man false script

/-! ### The channels of a node -/

/-- `ioman_register_channel`. -/
def iomanRegisterChannel (man : Ioman κ) (dstId : ℤ) (c : κ) : Except Abort (Ioman κ) := do
  man.checkPeer dstId
  cAssert (man.channelMap dstId).isNone
  let chan ← man.get c
  cAssert (chan.peerId = channelPeerUnknown)
  let man := { man with channelMap := Function.update man.channelMap dstId (some c) }
  Except.ok (man.modify c (Channel.setPeerId dstId))

/-- `ioman_delete_channel`, after the channel has been taken off the list of channels. -/
def iomanDeleteChannel (man : Ioman κ) (c : κ) : Except Abort (Ioman κ) := do
  let chan ← man.get c
  if chan.peerId ≠ channelPeerUnknown then do
    man.checkPeer chan.peerId
    cAssert (man.channelMap chan.peerId = some c)
    Except.ok { man with
      channelMap := Function.update man.channelMap chan.peerId none
      heap := Function.update man.heap c none }
  else Except.ok { man with heap := Function.update man.heap c none }

/-- `channel_list_remove` and then `ioman_delete_channel`, as the loops over the channels do when a
channel is dead. -/
def iomanRemoveChannel (man : Ioman κ) (c : κ) : Except Abort (Ioman κ) :=
  iomanDeleteChannel { man with channels := man.channels.erase c } c

/-- The lookup of a channel in `channel_map`. -/
def iomanMapChannel (man : Ioman κ) (dstId : ℤ) : Except Abort κ := do
  man.checkPeer dstId
  match man.channelMap dstId with
  | none => Except.error Abort.assertion
  | some c => Except.ok c

/-- `ioman_sys_send_msg`. -/
def iomanSysSendMsg (bo : ByteOrder) (man : Ioman κ) (c : κ) (kind : MsgKind) (dstId : ℤ)
    (buff : List Byte) : Ioman κ :=
  let minfo := { msgInfoCreate with
    kind := kind.toInt
    dstId := dstId
    srcId := man.nodeId
    len := buff.length }
  man.modify c (channelSendMsg bo minfo buff)

/-- `ioman_notify_newmsg`. -/
def iomanNotifyNewmsg (man : Ioman κ) : Ioman κ :=
  { man with events := man.events ++ [IomanEvent.newmsg] }

/-- `ioman_send_msg`. -/
def iomanSendMsg (bo : ByteOrder) (man : Ioman κ) (kind : MsgKind) (dstId : ℤ)
    (buff : List Byte) : Except Abort (Ioman κ) := do
  let c ← iomanMapChannel man dstId
  Except.ok (iomanNotifyNewmsg (iomanSysSendMsg bo man c kind dstId buff))

/-- `ioman_bcast_msg`. -/
def iomanBcastMsg (man : Ioman κ) (kind : MsgKind) (buff : List Byte) : Ioman κ :=
  { man with events := man.events ++ [IomanEvent.bcastmsg kind buff] }

/-- `ioman_handle_event_bcastmsg`. -/
def iomanHandleEventBcastmsg (bo : ByteOrder) (man : Ioman κ) (kind : MsgKind)
    (buff : List Byte) : Ioman κ :=
  (List.range man.maxpeers).foldl
    (fun man' (pid : ℕ) =>
      match man'.channelMap pid with
      | none => man'
      | some c => iomanSysSendMsg bo man' c kind pid buff)
    man

/-- `ioman_handle_event`, with one event waiting in the notify pipe. -/
def iomanHandleEvent (bo : ByteOrder) (man : Ioman κ) : Except Abort (Ioman κ) :=
  match man.events with
  | [] => Except.error Abort.diverges
  | event :: events =>
      let man := { man with events := events }
      match event with
      | IomanEvent.newchan c => Except.ok { man with channels := man.channels ++ [c] }
      | IomanEvent.newmsg => Except.ok man
      | IomanEvent.bcastmsg kind buff => Except.ok (iomanHandleEventBcastmsg bo man kind buff)

/-- A new connection of the listening socket in `ioman_handle_readables`; `c` is a new name. -/
def iomanAccept (man : Ioman κ) (c : κ) : Ioman κ :=
  { man with
    channels := man.channels ++ [c]
    heap := Function.update man.heap c (some channelActiveCreate) }

/-! ### Connecting -/

/-- `channel_hash_map_find`; both a missing key and a null pointer are `none`. -/
def channelHashMapFind (map : List (ℕ × Option κ)) (key : ℕ) : Option κ :=
  match map.find? fun p => p.1 = key with
  | none => none
  | some p => p.2

/-- `channel_hash_map_pop`. -/
def channelHashMapPop (map : List (ℕ × Option κ)) (key : ℕ) : List (ℕ × Option κ) :=
  map.eraseP fun p => p.1 = key

/-- `channel_hash_map_remove`. -/
def channelHashMapRemove (map : List (ℕ × Option κ)) (c : κ) : List (ℕ × Option κ) :=
  map.eraseP fun p => p.2 = some c

/-- `channel_hash_map_add`; a null pointer is `none`. -/
def channelHashMapAdd (map : List (ℕ × Option κ)) (key : ℕ) (c : Option κ) :
    List (ℕ × Option κ) :=
  (key, c) :: map

/-- `comm_node_async_connect` until `ioman_new_connection` has returned: `c` is the name of the new
channel, unless `connect` fails at once.  The result is the handle. -/
def commNodeNewConnection (node : CommNode κ) (c : Option κ) : ℕ × CommNode κ :=
  let handle := node.keyC
  let man :=
    match c with
    | none => node.man
    | some c => { node.man with
        events := node.man.events ++ [IomanEvent.newchan c]
        heap := Function.update node.man.heap c (some channelSetupCreate) }
  (handle, { node with man := man, keyC := node.keyC + 1 })

/-- The rest of `comm_node_async_connect`: the channel is registered in the pending table. -/
def commNodeAddPending (node : CommNode κ) (handle : ℕ) (c : Option κ) : CommNode κ :=
  { node with pendingConns := channelHashMapAdd node.pendingConns handle c }

/-- `comm_node_async_connect`.  The result is the handle. -/
def commNodeAsyncConnect (node : CommNode κ) (c : Option κ) : ℕ × CommNode κ :=
  let (handle, node) := commNodeNewConnection node c
  (handle, commNodeAddPending node handle c)

/-- `pthread_cond_wait`: the thread sleeps. -/
def commNodeCondWait (node : CommNode κ) (waiter : CondWaiter) : CommNode κ :=
  { node with cond := waiter :: node.cond }

/-- `pthread_cond_broadcast`: the threads that sleep wake up. -/
def commNodeCondBroadcast (node : CommNode κ) : CommNode κ := { node with cond := [] }

/-- How one round of the loop of `comm_node_connect_wait` ends. -/
inductive ConnectWait
  | waiting
  | success (dstId : ℤ)
  | failure
  deriving DecidableEq, Repr

/-- One round of the loop of `comm_node_connect_wait`; after the last one the entry is popped. -/
def commNodeConnectWait (node : CommNode κ) (handle : ℕ) :
    Except Abort (ConnectWait × CommNode κ) :=
  let popped := { node with pendingConns := channelHashMapPop node.pendingConns handle }
  match channelHashMapFind node.pendingConns handle with
  | none => Except.ok (ConnectWait.failure, popped)
  | some c => do
      let chan ← node.man.get c
      if channelIsEstablished chan then Except.ok (ConnectWait.success chan.peerId, popped)
      else Except.ok (ConnectWait.waiting, commNodeCondWait node (CondWaiter.connect handle))

/-- `comm_node_notify_connect`: the first message of the handshake. -/
def commNodeNotifyConnect (bo : ByteOrder) (node : CommNode κ) (c : κ) : CommNode κ :=
  let minfo := { msgInfoCreate with
    kind := MsgKind.ping0.toInt
    dstId := -1
    srcId := node.nodeId
    len := 0 }
  { node with man := node.man.modify c (channelSendMsg bo minfo []) }

/-- `comm_node_notify_success`. -/
def commNodeNotifySuccess (node : CommNode κ) (c : κ) : Except Abort (CommNode κ) := do
  let chan ← node.man.get c
  let established ← channelMakeEstablished chan
  Except.ok (commNodeCondBroadcast { node with man := node.man.put c established })

/-- `comm_node_notify_failure`. -/
def commNodeNotifyFailure (node : CommNode κ) (c : κ) : CommNode κ :=
  commNodeCondBroadcast { node with pendingConns := channelHashMapRemove node.pendingConns c }

/-- `comm_node_rtt_measure_start` at the time `now`. -/
def commNodeRttMeasureStart (node : CommNode κ) (dstId : ℤ) (now : ℚ) :
    Except Abort (CommNode κ) := do
  cAssert (dstId < commMaxPeer)
  node.man.checkPeer dstId
  Except.ok { node with rtts := Function.update node.rtts dstId now }

/-- `comm_node_rtt_measure_end` at the time `now`. -/
def commNodeRttMeasureEnd (node : CommNode κ) (dstId : ℤ) (now : ℚ) :
    Except Abort (CommNode κ) := do
  cAssert (dstId < commMaxPeer)
  node.man.checkPeer dstId
  cAssert (node.rtts dstId ≠ 0)
  Except.ok { node with rtts := Function.update node.rtts dstId (now - node.rtts dstId) }

/-! ### Routing tables -/

/-- `comm_node_bcast_msg`. -/
def commNodeBcastMsg (node : CommNode κ) (kind : MsgKind) (buff : List Byte) : CommNode κ :=
  { node with man := iomanBcastMsg node.man kind buff }

/-- The loop of `comm_node_register_rt` over the entries of a table. -/
def commNodeRtWidths (node : CommNode κ) (rt : OverlayRtable) : Except Abort (CommNode κ) :=
  (List.range (overlayRtableSize rt)).foldlM
    (fun node (pid : ℕ) =>
      if (pid : ℤ) = rt.srcpid then Except.ok node
      else do
        match ← overlayRtableGetEntry rt pid with
        | none => Except.error Abort.badAccess
        | some entry => Except.ok { node with
            maxWidth := max node.maxWidth entry.width
            minWidth := min node.minWidth entry.width })
    node

/-- `comm_node_register_rt`; the result is whether the table is new. -/
def commNodeRegisterRt (bo : ByteOrder) (node : CommNode κ) (buff : List Byte) :
    Except Abort (Bool × CommNode κ) := do
  let (rt, _) ← overlayRtableCreateByUnpack bo buff
  node.man.checkPeer rt.srcpid
  if (node.rts rt.srcpid).isNone then do
    let node ← commNodeRtWidths { node with
      rts := Function.update node.rts rt.srcpid (some rt)
      numRts := node.numRts + 1 } rt
    Except.ok (true, commNodeCondBroadcast node)
  else Except.ok (false, node)

/-- The first half of `comm_node_exchange_rt`: the node stores its own table.  The result is the
packed table. -/
def commNodeStoreRt (bo : ByteOrder) (node : CommNode κ) (rt : OverlayRtable) :
    Except Abort (List Byte × CommNode κ) := do
  let buff ← overlayRtablePack bo rt
  node.man.checkPeer rt.srcpid
  cAssert (node.nodeId = rt.srcpid ∧ (node.rts rt.srcpid).isNone)
  Except.ok (buff, { node with rts := Function.update node.rts rt.srcpid (some rt) })

/-- The increment of `comm_node_exchange_rt` for the own table. -/
def commNodeCountOwnRt (node : CommNode κ) : CommNode κ := { node with numRts := node.numRts + 1 }

/-- One round of the loop at the end of `comm_node_exchange_rt`; the result is whether the thread is
done. -/
def commNodeExchangeWait (node : CommNode κ) (numPeers : ℕ) : Bool × CommNode κ :=
  if node.numRts < numPeers then (false, commNodeCondWait node (CondWaiter.exchange numPeers))
  else (true, node)

/-! ### Handling messages -/

/-- `comm_node_handle_msg` at the time `now`. -/
def commNodeHandleMsg (bo : ByteOrder) (now : ℚ) (node : CommNode κ) (c : κ) (msgInfo : MsgInfo)
    (buff : List Byte) : Except Abort (CommNode κ) :=
  let srcId := msgInfo.srcId
  if msgInfo.kind = MsgKind.ping0.toInt then do
    let man ← iomanRegisterChannel node.man srcId c
    let node ← commNodeRttMeasureStart { node with man := man } srcId now
    let man ← iomanSendMsg bo node.man MsgKind.ping1 srcId []
    Except.ok { node with man := man }
  else if msgInfo.kind = MsgKind.ping1.toInt then do
    let man ← iomanRegisterChannel node.man srcId c
    let node ← commNodeRttMeasureStart { node with man := man } srcId now
    let man ← iomanSendMsg bo node.man MsgKind.pong0 srcId []
    Except.ok { node with man := man }
  else if msgInfo.kind = MsgKind.pong0.toInt then do
    let node ← commNodeRttMeasureEnd node srcId now
    let man ← iomanSendMsg bo node.man MsgKind.pong1 srcId []
    Except.ok { node with man := man }
  else if msgInfo.kind = MsgKind.pong1.toInt then do
    let node ← commNodeRttMeasureEnd node srcId now
    commNodeNotifySuccess node c
  else if msgInfo.kind = MsgKind.rt.toInt then do
    let (updated, node) ← commNodeRegisterRt bo node buff
    if updated then Except.ok (commNodeBcastMsg node MsgKind.rt buff) else Except.ok node
  else Except.error Abort.assertion

/-- `comm_node_setup_chunk`, without the record of the message that the chunk belongs to and the
assertions on it, which `DataStore.commNodeSetupChunk` has. -/
def commNodeSetupChunk (chan : Channel κ) : Except Abort (Channel κ) := do
  cAssert (chan.msgInfo.sid ≠ -1)
  channelSetupChunkWithBuff chan

/-- `comm_node_handle_chunk`: the chunk is handed to the reassembly of its message, which
`DataStore.commNodeHandleChunk` has with its assertions. -/
def commNodeHandleChunk (node : CommNode κ) (header : MsgInfo) (chunk : MsgBuff) :
    Except Abort (CommNode κ) := do
  cAssert (header.sid ≠ -1)
  Except.ok { node with chunks := node.chunks ++ [(header, chunk.data)] }

/-! ### Reading and writing channels -/

/-- `ioman_get_nexthop_channel`. -/
def iomanGetNexthopChannel (node : CommNode κ) (srcId dstId : ℤ) : Except Abort κ := do
  let nextpid ← commNodeLookupRt node.nodeId node.rts srcId dstId
  cAssert (nextpid ≠ -1)
  iomanMapChannel node.man nextpid

/-- `ioman_process_local_channel_read`. -/
def iomanProcessLocalChannelRead (bo : ByteOrder) (node : CommNode κ) :
    Except Abort (CommNode κ) := do
  let c := node.man.localChan
  let chan ← node.man.get c
  let (chunk, chan) ← channelLocalPopChunk bo chan
  let chan := { chan with currBuff := some chunk }
  cAssert (chan.msgInfo.srcId ≠ chan.msgInfo.dstId)
  let next ← iomanGetNexthopChannel node chan.msgInfo.srcId chan.msgInfo.dstId
  let (_, man) ← channelPipelineChunk (node.man.put c chan) c next
  Except.ok { node with man := man }

/-- The allocation of a buffer after a header in `ioman_process_channel_read`. -/
def iomanSetupRead (nodeId : ℤ) (chan : Channel κ) : Except Abort (Channel κ) :=
  if chan.msgInfo.kind = MsgKind.data.toInt then
    if chan.msgInfo.dstId = nodeId then commNodeSetupChunk chan else channelSetupChunk chan
  else channelSetupMsg chan

/-- The call of `channel_read_chunk` or `channel_read_msg` in `ioman_process_channel_read`. -/
def channelReadBody (chan : Channel κ) (script : List RecvEvent) :
    Except Abort (ChannelReadStatus × Option MsgBuff × Channel κ × List RecvEvent) :=
  if chan.msgInfo.kind = MsgKind.data.toInt then channelReadChunk chan script
  else channelReadMsg chan script

/-- What `ioman_process_channel_read` does with a chunk or a message that is complete. -/
def iomanReadDone (bo : ByteOrder) (now : ℚ) (node : CommNode κ) (c : κ) (chan : Channel κ)
    (msg : MsgBuff) : Except Abort (CommNode κ) :=
  if chan.msgInfo.kind = MsgKind.data.toInt then
    if chan.msgInfo.dstId = node.nodeId then do
      let node ← commNodeHandleChunk node chan.msgInfo msg
      let node := node.setMan (node.man.modify c (Channel.setCurrBuff none))
      cAssert (chan.msgInfo.remain = 0)
      Except.ok node
    else do
      let next ← iomanGetNexthopChannel node chan.msgInfo.srcId chan.msgInfo.dstId
      let (_, man) ← channelPipelineChunk node.man c next
      cAssert (chan.msgInfo.remain = 0)
      Except.ok (node.setMan man)
  else do
    cAssert (chan.msgInfo.dstId = node.nodeId ∨ chan.msgInfo.kind = MsgKind.ping0.toInt)
    commNodeHandleMsg bo now node c chan.msgInfo msg.unsent

/-- The body of a message or chunk in `ioman_process_channel_read`; the result is whether the
channel is alive. -/
def iomanReadBody (bo : ByteOrder) (now : ℚ) (node : CommNode κ) (c : κ) (chan : Channel κ)
    (script : List RecvEvent) : Except Abort (Bool × CommNode κ × List RecvEvent) := do
  let (stat, msg, chan, script) ← channelReadBody chan script
  let node := node.setMan (node.man.put c chan)
  match msg with
  | none => Except.ok (stat ≠ ChannelReadStatus.err, node, script)
  | some msg => do
      let node ← iomanReadDone bo now node c chan msg
      Except.ok (true, node, script)

/-- `ioman_process_channel_read`; the result is whether the channel is alive, the node, and what the
socket still holds. -/
def iomanProcessChannelRead (bo : ByteOrder) (now : ℚ) (node : CommNode κ) (c : κ)
    (script : List RecvEvent) : Except Abort (Bool × CommNode κ × List RecvEvent) := do
  let chan ← node.man.get c
  if chan.currBuff.isNone then do
    let (stat, chan, script) ← channelReadHeader bo chan script
    if stat = ChannelReadStatus.ok then do
      let chan ← iomanSetupRead node.nodeId chan
      iomanReadBody bo now node c chan script
    else
      Except.ok (stat ≠ ChannelReadStatus.err,
        { node with man := node.man.put c chan }, script)
  else iomanReadBody bo now node c chan script

/-- `ioman_process_channel_write`: whether the channel is alive, the node, and the bytes that were
sent; `connected` is the answer of `sock_connect_status`. -/
def iomanProcessChannelWrite (bo : ByteOrder) (node : CommNode κ) (c : κ) (connected : Bool)
    (script : List SendEvent) : Except Abort (Bool × CommNode κ × List Byte) := do
  let chan ← node.man.get c
  match chan.state with
  | ChannelStatus.init => Except.error Abort.assertion
  | ChannelStatus.setup => do
      let (isActive, chan) ← channelMakeActive chan connected
      let node := { node with man := node.man.put c chan }
      if isActive then Except.ok (true, commNodeNotifyConnect bo node c, [])
      else Except.ok (false, commNodeNotifyFailure node c, [])
  | _ => do
      let r ← channelWrite node.man c script
      Except.ok (r.stat ≠ ChannelWriteStatus.err, { node with man := r.man }, r.sent)

end Code

end DLFree
