/-
**Channels: `comm/channel.c` with the buffers of `comm/msg.c`.**

A channel is one end of a socket.  It reads a header and then the body that the header announces,
into `currBuff`; it sends the buffers of its `buffQueue`; and channels whose chunk does not fit that
queue stand in its `waitQueue`.  The local channel has a queue of chunks that user threads fill, and
a pipe with one token for each chunk.

Sockets answer from a script: a call of `recv` returns what the next burst holds, up to the number
of bytes asked for, and a call of `send` accepts as many bytes as the next event has room for.

Channels refer to one another by names of any type `κ`; `Ioman` keeps them in a heap.

Main definitions:

* `MsgBuff`, `Channel` — `struct msg_buff` and `struct channel`;
* `channelReadHeader`, `channelReadMsg`, `channelReadChunk` — reading;
* `channelPackBuff`, `channelSendMsg`, `sendBuff` — sending;
* `channelLocalPushChunk`, `channelLocalPopChunk` — the local channel.
-/

import DLFree.MsgInfo

set_option relaxedAutoImplicit false
set_option autoImplicit false

namespace DLFree

/-- `CHANNEL_PEER_UNKNOWN`. -/
def channelPeerUnknown : ℤ := -1

/-- `CHANNEL_MSG_HEADERLEN`. -/
def channelMsgHeaderlen : ℕ := 100

/-- `CHANNEL_MSG_QUEUE_LIMIT`. -/
def channelMsgQueueLimit : ℕ := 100

/-! ### Buffers -/

/-- `struct msg_buff`: `data` is written up to `tail`, and sent up to the offset `head`. -/
structure MsgBuff where
  len : ℕ
  data : List Byte
  head : ℕ
  deriving DecidableEq, Repr

/-- `msg_buff_create`. -/
def msgBuffCreate (len : ℕ) : MsgBuff where
  len := len
  data := []
  head := 0

/-- `msg_buff_send_len`. -/
def msgBuffSendLen (buff : MsgBuff) : ℕ := buff.data.length - buff.head

/-- `msg_buff_recv_len`. -/
def msgBuffRecvLen (buff : MsgBuff) : ℕ := buff.len - buff.data.length

/-- The bytes that are still to be sent. -/
def MsgBuff.unsent (buff : MsgBuff) : List Byte := buff.data.drop buff.head

/-! ### Channels -/

/-- `enum channel_connect_status`. -/
inductive ChannelConnectStatus
  | inprogress
  | established
  deriving DecidableEq, Repr

/-- `enum channel_status`. -/
inductive ChannelStatus
  | init
  | setup
  | active
  | blocking
  deriving DecidableEq, Repr

/-- `enum channel_read_status`. -/
inductive ChannelReadStatus
  | ok
  | done
  | err
  | eagain
  deriving DecidableEq, Repr

/-- `enum channel_write_status`. -/
inductive ChannelWriteStatus
  | ok
  | eagain
  | err
  deriving DecidableEq, Repr

/-- `struct channel`; `pipe` counts the unread tokens in the pipe of the local channel, and
`headerBuff` holds what has been written to the header buffer. -/
structure Channel (κ : Type) where
  connectState : ChannelConnectStatus
  peerId : ℤ
  headerBuff : List Byte
  headerOff : ℕ
  buffQueue : List MsgBuff
  msgInfo : MsgInfo
  currBuff : Option MsgBuff
  state : ChannelStatus
  waitQueue : List κ
  pipe : ℕ

/-! ### Assignments to the fields of a channel -/

namespace Channel

variable {κ : Type}

/-- `chan -> state = state`. -/
@[simps] def setState (state : ChannelStatus) (chan : Channel κ) : Channel κ := { chan with state }

/-- `chan -> peer_id = peerId`. -/
@[simps] def setPeerId (peerId : ℤ) (chan : Channel κ) : Channel κ := { chan with peerId }

/-- `chan -> connect_state = connectState`. -/
@[simps] def setConnectState (connectState : ChannelConnectStatus) (chan : Channel κ) : Channel κ :=
  { chan with connectState }

/-- `chan -> curr_buff = currBuff`. -/
@[simps] def setCurrBuff (currBuff : Option MsgBuff) (chan : Channel κ) : Channel κ :=
  { chan with currBuff }

/-- The send queue becomes `buffQueue`. -/
@[simps] def setBuffQueue (buffQueue : List MsgBuff) (chan : Channel κ) : Channel κ :=
  { chan with buffQueue }

/-- `msg_buff_list_append(chan -> buff_queue, buff)`. -/
@[simps] def appendBuff (buff : MsgBuff) (chan : Channel κ) : Channel κ :=
  { chan with buffQueue := chan.buffQueue ++ [buff] }

/-- The wait queue becomes `waitQueue`. -/
@[simps] def setWaitQueue (waitQueue : List κ) (chan : Channel κ) : Channel κ :=
  { chan with waitQueue }

/-- `channel_list_append(chan -> wait_queue, c)`. -/
@[simps] def appendWaiter (c : κ) (chan : Channel κ) : Channel κ :=
  { chan with waitQueue := chan.waitQueue ++ [c] }

end Channel

section Code

variable {κ : Type}

/-- `base_channel_create`. -/
def baseChannelCreate : Channel κ where
  connectState := ChannelConnectStatus.established
  peerId := channelPeerUnknown
  headerBuff := []
  headerOff := 0
  buffQueue := []
  msgInfo := msgInfoCreate
  currBuff := none
  state := ChannelStatus.init
  waitQueue := []
  pipe := 0

/-- `channel_active_create`. -/
def channelActiveCreate : Channel κ :=
  { baseChannelCreate with state := ChannelStatus.active }

/-- `channel_setup_create`. -/
def channelSetupCreate : Channel κ :=
  { baseChannelCreate with
    state := ChannelStatus.setup
    connectState := ChannelConnectStatus.inprogress }

/-- `channel_local_create`. -/
def channelLocalCreate (localPid : ℤ) : Channel κ :=
  { baseChannelCreate with state := ChannelStatus.active, peerId := localPid }

/-- `channel_is_readable`. -/
def channelIsReadable (chan : Channel κ) : Bool := chan.state = ChannelStatus.active

/-- `channel_is_writable`. -/
def channelIsWritable (chan : Channel κ) : Bool :=
  0 < chan.buffQueue.length ∨ chan.state = ChannelStatus.setup

/-- `channel_make_active`; `connected` is whether `sock_connect_status` reports success.  The result
is whether the channel is active. -/
def channelMakeActive (chan : Channel κ) (connected : Bool) : Except Abort (Bool × Channel κ) := do
  cAssert (chan.state = ChannelStatus.setup)
  if connected then Except.ok (true, chan.setState ChannelStatus.active)
  else Except.ok (false, chan)

/-- `channel_make_established`. -/
def channelMakeEstablished (chan : Channel κ) : Except Abort (Channel κ) := do
  cAssert (chan.connectState = ChannelConnectStatus.inprogress)
  Except.ok (chan.setConnectState ChannelConnectStatus.established)

/-- `channel_is_established`. -/
def channelIsEstablished (chan : Channel κ) : Bool :=
  chan.connectState = ChannelConnectStatus.established

/-! ### Reading -/

/-- What successive calls of `recv` meet: a burst of bytes (an empty one is `EAGAIN`), the end of
the stream or an error. -/
inductive RecvEvent
  | data (bytes : List Byte)
  | eof
  | err
  deriving DecidableEq, Repr

/-- `enum recv_status`, with the bytes that were received. -/
inductive RecvStatus
  | ok (bytes : List Byte)
  | eagain
  | eof
  | err
  deriving DecidableEq, Repr

/-- `sock_try_recv_n`: at most `n` bytes of the next burst; what is left of it comes next. -/
def sockTryRecvN : List RecvEvent → ℕ → RecvStatus × List RecvEvent
  | [], _ => (RecvStatus.eagain, [])
  | RecvEvent.data [] :: script, _ => (RecvStatus.eagain, script)
  | RecvEvent.data bytes :: script, n =>
      if bytes.length ≤ n then (RecvStatus.ok bytes, script)
      else (RecvStatus.ok (bytes.take n), RecvEvent.data (bytes.drop n) :: script)
  | RecvEvent.eof :: script, _ => (RecvStatus.eof, script)
  | RecvEvent.err :: script, _ => (RecvStatus.err, script)

/-- `channel_read_header`: the channel, and what the socket still holds. -/
def channelReadHeader (bo : ByteOrder) (chan : Channel κ) (script : List RecvEvent) :
    Except Abort (ChannelReadStatus × Channel κ × List RecvEvent) :=
  match sockTryRecvN script (channelMsgHeaderlen - chan.headerOff) with
  | (RecvStatus.err, script) => Except.ok (ChannelReadStatus.err, chan, script)
  | (RecvStatus.eof, script) => Except.ok (ChannelReadStatus.err, chan, script)
  | (RecvStatus.eagain, script) => Except.ok (ChannelReadStatus.eagain, chan, script)
  | (RecvStatus.ok bytes, script) =>
      let headerBuff := chan.headerBuff.take chan.headerOff ++ bytes
      let headerOff := chan.headerOff + bytes.length
      if headerOff = channelMsgHeaderlen then
        match msgInfoUnpack bo headerBuff with
        | none => Except.error Abort.badAccess
        | some (msgInfo, _) => do
            cAssert (msgInfo.kind ≠ MsgKind.err.toInt)
            Except.ok (ChannelReadStatus.ok, { chan with headerBuff, headerOff := 0, msgInfo }, script)
      else Except.ok (ChannelReadStatus.eagain, { chan with headerBuff, headerOff }, script)

/-- `_channel_setup_chunk`; a negative size cannot be allocated. -/
def channelSetupBuff (chan : Channel κ) (size : ℤ) (data : List Byte) :
    Except Abort (Channel κ) := do
  cAssert chan.currBuff.isNone
  if size < 0 then Except.error Abort.badAccess
  else Except.ok { chan with currBuff := some { msgBuffCreate size.toNat with data } }

/-- `channel_setup_chunk`: the buffer starts with the header. -/
def channelSetupChunk (chan : Channel κ) : Except Abort (Channel κ) := do
  cAssert (0 < chan.msgInfo.len)
  channelSetupBuff chan (chan.msgInfo.len + channelMsgHeaderlen) chan.headerBuff

/-- `channel_setup_chunk_with_buff`. -/
def channelSetupChunkWithBuff (chan : Channel κ) : Except Abort (Channel κ) := do
  cAssert (0 < chan.msgInfo.len)
  channelSetupBuff chan chan.msgInfo.len []

/-- `channel_setup_msg`. -/
def channelSetupMsg (chan : Channel κ) : Except Abort (Channel κ) :=
  channelSetupBuff chan chan.msgInfo.len []

/-- What `channel_read_to_buff` leaves: the status, the buffer, the bytes of the message and of the
buffer that remain, and what the socket still holds. -/
structure ReadToBuff where
  stat : ChannelReadStatus
  buff : MsgBuff
  remain : ℤ
  len : ℕ
  script : List RecvEvent

/-- `channel_read_to_buff`: as much as there is, up to `len` bytes. -/
def channelReadToBuff (buff : MsgBuff) (remain : ℤ) :
    ℕ → List RecvEvent → Except Abort ReadToBuff
  | 0, script => Except.ok ⟨ChannelReadStatus.ok, buff, remain, 0, script⟩
  | len, [] => Except.ok ⟨ChannelReadStatus.ok, buff, remain, len, []⟩
  | len, RecvEvent.data [] :: script => Except.ok ⟨ChannelReadStatus.ok, buff, remain, len, script⟩
  | len, RecvEvent.data bytes :: script =>
      if bytes.length ≤ len then do
        cAssert (0 ≤ remain - bytes.length)
        channelReadToBuff { buff with data := buff.data ++ bytes } (remain - bytes.length)
          (len - bytes.length) script
      else do
        cAssert (0 ≤ remain - len)
        Except.ok ⟨ChannelReadStatus.ok, { buff with data := buff.data ++ bytes.take len },
          remain - len, 0, RecvEvent.data (bytes.drop len) :: script⟩
  | len, RecvEvent.eof :: script => Except.ok ⟨ChannelReadStatus.err, buff, remain, len, script⟩
  | len, RecvEvent.err :: script => Except.ok ⟨ChannelReadStatus.err, buff, remain, len, script⟩

/-- `channel_read_msg`: the message once it is complete. -/
def channelReadMsg (chan : Channel κ) (script : List RecvEvent) :
    Except Abort (ChannelReadStatus × Option MsgBuff × Channel κ × List RecvEvent) :=
  match chan.currBuff with
  | none => Except.error Abort.badAccess
  | some buff => do
      let r ← channelReadToBuff buff chan.msgInfo.remain chan.msgInfo.remain.toNat script
      let msgInfo := { chan.msgInfo with remain := r.remain }
      if r.len = 0 then
        Except.ok (ChannelReadStatus.done, some r.buff, { chan with msgInfo, currBuff := none },
          r.script)
      else Except.ok (r.stat, none, { chan with msgInfo, currBuff := some r.buff }, r.script)

/-- `channel_read_chunk`: the chunk, which stays in `currBuff`, once it is complete. -/
def channelReadChunk (chan : Channel κ) (script : List RecvEvent) :
    Except Abort (ChannelReadStatus × Option MsgBuff × Channel κ × List RecvEvent) :=
  match chan.currBuff with
  | none => Except.error Abort.assertion
  | some buff => do
      cAssert ((msgBuffRecvLen buff : ℤ) ≤ chan.msgInfo.remain)
      let r ← channelReadToBuff buff chan.msgInfo.remain (msgBuffRecvLen buff) script
      let chan := { chan with
        msgInfo := { chan.msgInfo with remain := r.remain }
        currBuff := some r.buff }
      if r.len = 0 then Except.ok (ChannelReadStatus.done, some r.buff, chan, r.script)
      else Except.ok (r.stat, none, chan, r.script)

/-! ### Sending -/

/-- The header of a packed message, filled up with zeros. -/
def packHeader (bo : ByteOrder) (minfo : MsgInfo) : List Byte :=
  msgInfoPack bo minfo ++ List.replicate (channelMsgHeaderlen - msgInfoBytes) 0

/-- `channel_pack_buff`. -/
def channelPackBuff (bo : ByteOrder) (minfo : MsgInfo) (body : List Byte) : MsgBuff where
  len := channelMsgHeaderlen + body.length
  data := packHeader bo minfo ++ body
  head := 0

/-- `channel_send_msg`. -/
def channelSendMsg (bo : ByteOrder) (minfo : MsgInfo) (body : List Byte) (chan : Channel κ) :
    Channel κ :=
  chan.appendBuff (channelPackBuff bo minfo body)

/-- What successive calls of `send` meet: room for some bytes (no room is `EAGAIN`), or an error. -/
inductive SendEvent
  | room (bytes : ℕ)
  | err
  deriving DecidableEq, Repr

/-- The loop of `channel_write` that sends one buffer: the status, the buffer, what the socket still
offers, and the bytes that were sent. -/
def sendBuff : List SendEvent → MsgBuff →
    ChannelWriteStatus × MsgBuff × List SendEvent × List Byte
  | [], buff =>
      if msgBuffSendLen buff = 0 then (ChannelWriteStatus.ok, buff, [], [])
      else (ChannelWriteStatus.eagain, buff, [], [])
  | event :: script, buff =>
      if msgBuffSendLen buff = 0 then (ChannelWriteStatus.ok, buff, event :: script, [])
      else
        match event with
        | SendEvent.err => (ChannelWriteStatus.err, buff, script, [])
        | SendEvent.room k =>
            let n := min k (msgBuffSendLen buff)
            if n = 0 then (ChannelWriteStatus.eagain, buff, script, [])
            else
              let r := sendBuff script { buff with head := buff.head + n }
              (r.1, r.2.1, r.2.2.1, buff.unsent.take n ++ r.2.2.2)

/-! ### The local channel -/

/-- The part of `channel_local_push_chunk` under the lock; `none` while the queue is full. -/
def channelLocalPushChunk (chan : Channel κ) (chunk : MsgBuff) : Option (Channel κ) :=
  if chan.buffQueue.length ≥ channelMsgQueueLimit then none
  else some (chan.appendBuff chunk)

/-- The end of `channel_local_push_chunk`, which writes a token to the pipe. -/
def channelLocalPushToken (chan : Channel κ) : Channel κ := { chan with pipe := chan.pipe + 1 }

/-- `channel_local_pop_chunk`; without a token the read from the pipe never returns. -/
def channelLocalPopChunk (bo : ByteOrder) (chan : Channel κ) :
    Except Abort (MsgBuff × Channel κ) :=
  if chan.pipe = 0 then Except.error Abort.diverges
  else
    match chan.buffQueue with
    | [] => Except.error Abort.assertion
    | chunk :: buffQueue =>
        match msgInfoUnpack bo chunk.unsent with
        | none => Except.error Abort.badAccess
        | some (msgInfo, _) =>
            Except.ok (chunk, { chan with
              pipe := chan.pipe - 1
              buffQueue := buffQueue
              msgInfo := { msgInfo with remain := 0 } })

end Code

end DLFree
