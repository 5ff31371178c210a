/-
**Cutting messages into chunks, and their records at the receiver: `comm/comm.c`, `comm/msg.c`.**

`comm_node_send_data` cuts a message into chunks that carry its `sid`, its length and their number.
The receiver keeps a record for each message that has begun and is not complete, and finds it by the
`sid` of a chunk.  It does not copy chunks: the buffer of the channel that reads a chunk is the
piece of the message's own buffer behind the bytes of the chunks before.  The piece is chosen when
the header has been read, and the record learns of the chunk when its body has.

Records live in a heap and are named by numbers.  A message that is complete leaves this heap, since
it then belongs to the queue of its source and soon to the user; a channel that still wrote into its
buffer would make a bad access.

Main definitions:

* `commNodeSendData` — `comm_node_send_data`;
* `DataStore` — the records of a node, and the buffers of its channels that lie in them;
* `DataStore.commNodeSetupChunk`, `DataStore.commNodeHandleChunk` — the functions of the source;
* `DataStore.iomanProcessChannelRead` — reading a channel, with the records.

Main results:

* `DataSend.buff_eq_sent` — the chunks of a message are its bytes in order;
* `DataStore.iomanProcessChannelRead_refines` — **with the records a read does to the node what it
  does without them**.
-/

import DLFree.Frames
import DLFree.DataMsg

set_option relaxedAutoImplicit false
set_option autoImplicit false

namespace DLFree

/-! ### Sending a message -/

/-- `ioman_send_chunk`: the chunk that is pushed to the local channel. -/
def iomanSendChunk (nodeId dstId : ℤ) (sid : BitVec 64) (totLen seq : ℤ) (buff : List Byte) :
    Frame where
  info := { msgInfoCreate with
    kind := MsgKind.data.toInt
    dstId := dstId
    srcId := nodeId
    len := buff.length
    totLen := totLen
    sid := sid
    seq := seq }
  body := buff

/-- The loop of `comm_node_send_data` from the chunk `seq` on; with a chunk size of 0 it never
ends. -/
def commNodeSendLoop (nodeId dstId : ℤ) (sid : BitVec 64) (totLen chunkSz : ℕ) :
    ℕ → ℕ → List Byte → Except Abort (List Frame)
  | _, _, [] => Except.ok []
  | 0, _, _ :: _ => Except.error Abort.diverges
  | fuel + 1, seq, b :: bs => do
      let remain := (b :: bs).length
      let size := if chunkSz > remain then remain else chunkSz
      let chunks ← commNodeSendLoop nodeId dstId sid totLen chunkSz fuel (seq + 1)
        ((b :: bs).drop size)
      Except.ok (iomanSendChunk nodeId dstId sid totLen seq ((b :: bs).take size) :: chunks)

/-- `comm_node_send_data`: the chunks that are pushed, and the message counter after the call. -/
def commNodeSendData (nodeId : ℤ) (dataMsgSid : BitVec 64) (chunkSz : ℕ) (dstId : ℤ)
    (buff : List Byte) : Except Abort (List Frame × BitVec 64) := do
  let (sid, dataMsgSid) ← commNodeGetNewSid nodeId dataMsgSid
  let chunks ← commNodeSendLoop nodeId dstId sid buff.length chunkSz buff.length 0 buff
  Except.ok (chunks, dataMsgSid)

/-! ### The chunks of a message -/

/-- A message that a node sends: the id of the node, its message counter, the chunk size and the
bytes. -/
structure DataSend where
  srcId : ℕ
  dataMsgSid : BitVec 64
  chunkSz : ℕ
  buff : List Byte
  src_lt : srcId < commMaxPeer
  chunkSz_pos : 0 < chunkSz
  buff_ne : buff ≠ []
  buff_fits : FitsInt buff.length

/-- The first chunks of a list, put together. -/
def joined (chunks : List Frame) (k : ℕ) : List Byte := ((chunks.take k).map Frame.body).flatten

@[simp] theorem joined_zero (chunks : List Frame) : joined chunks 0 = [] := rfl

theorem joined_succ {chunks : List Frame} {k : ℕ} {f : Frame} (h : chunks[k]? = some f) :
    joined chunks (k + 1) = joined chunks k ++ f.body := by
  simp [joined, List.take_add_one, h]

theorem joined_cons (f : Frame) (chunks : List Frame) (k : ℕ) :
    joined (f :: chunks) (k + 1) = f.body ++ joined chunks k := by
  simp [joined]

/-- These are the chunks from the number `seq` on of a message with the bytes `buff` left: none is
empty, and together they are these bytes. -/
structure CutInto (nodeId dstId : ℤ) (sid : BitVec 64) (totLen seq : ℕ) (buff : List Byte)
    (chunks : List Frame) : Prop where
  chunk : ∀ k f, chunks[k]? = some f →
    f = iomanSendChunk nodeId dstId sid totLen (seq + k : ℕ) f.body ∧ f.body ≠ []
  buff : joined chunks chunks.length = buff

section Send

variable {nodeId dstId : ℤ} {sid : BitVec 64} {totLen chunkSz : ℕ}

/-- **The loop cuts a message** when the chunk size is positive. -/
theorem commNodeSendLoop_spec (hsz : 0 < chunkSz) (fuel : ℕ) : ∀ (seq : ℕ) (buff : List Byte),
    buff.length ≤ fuel → ∃ chunks,
      commNodeSendLoop nodeId dstId sid totLen chunkSz fuel seq buff = Except.ok chunks ∧
        CutInto nodeId dstId sid totLen seq buff chunks := by
  induction fuel with
  | zero =>
      intro seq buff hlen
      have hnil : buff = [] := List.length_eq_zero_iff.1 (Nat.le_zero.1 hlen)
      subst hnil
      exact ⟨[], rfl, ⟨by simp, rfl⟩⟩
  | succ fuel ih =>
      intro seq buff hlen
      cases buff with
      | nil => exact ⟨[], rfl, ⟨by simp, rfl⟩⟩
      | cons b bs =>
          set size := if chunkSz > (b :: bs).length then (b :: bs).length else chunkSz with hsize
          have hpos : 0 < size := by
            rw [hsize]
            split
            · exact Nat.succ_pos _
            · exact hsz
          have hle : ((b :: bs).drop size).length ≤ fuel := by
            rw [List.length_drop]
            omega
          obtain ⟨chunks, hloop, hcut⟩ := ih (seq + 1) ((b :: bs).drop size) hle
          refine ⟨iomanSendChunk nodeId dstId sid totLen seq ((b :: bs).take size) :: chunks,
            ?_, ⟨?_, ?_⟩⟩
          · unfold commNodeSendLoop
            dsimp only
            rw [← hsize, hloop, ok_bind]
          · intro k f hk
            cases k with
            | zero =>
                obtain rfl := Option.some.inj hk
                refine ⟨rfl, fun hnil => ?_⟩
                rcases List.take_eq_nil_iff.1 hnil with h | h
                · omega
                · cases h
            | succ k =>
                obtain ⟨hf, hne⟩ := hcut.chunk k f hk
                refine ⟨?_, hne⟩
                rw [show seq + (k + 1) = seq + 1 + k by omega]
                exact hf
          · rw [List.length_cons, joined_cons, hcut.buff]
            exact List.take_append_drop _ _

end Send

namespace DataSend

variable (m : DataSend) (dstId : ℤ)

/-- `comm_node_get_new_sid`. -/
def sid : BitVec 64 := m.dataMsgSid <<< 20 + BitVec.ofInt 64 m.srcId

/-- The `sid` that the receiver decodes. -/
def wireSid : BitVec 64 := wireUint64 m.sid

/-- The chunks that the loop of `comm_node_send_data` pushes. -/
def chunks : List Frame :=
  (commNodeSendLoop m.srcId dstId m.sid m.buff.length m.chunkSz m.buff.length 0 m.buff).toOption.getD
    []

/-- The number of chunks. -/
def count : ℕ := (m.chunks dstId).length

theorem commNodeGetNewSid_eq :
    commNodeGetNewSid m.srcId m.dataMsgSid = Except.ok (m.sid, m.dataMsgSid + 1) := by
  have hid : m.srcId < 1024 := m.src_lt
  unfold commNodeGetNewSid sid
  rw [cAssert_of, ok_bind]
  omega

/-- **`comm_node_send_data` returns** and has cut the message. -/
theorem commNodeSendData_eq :
    commNodeSendData m.srcId m.dataMsgSid m.chunkSz dstId m.buff =
        Except.ok (m.chunks dstId, m.dataMsgSid + 1) ∧
      CutInto m.srcId dstId m.sid m.buff.length 0 m.buff (m.chunks dstId) := by
  obtain ⟨chunks, hloop, hcut⟩ := @commNodeSendLoop_spec m.srcId dstId m.sid m.buff.length
    m.chunkSz m.chunkSz_pos m.buff.length 0 m.buff le_rfl
  have hsend : commNodeSendData m.srcId m.dataMsgSid m.chunkSz dstId m.buff =
      Except.ok (chunks, m.dataMsgSid + 1) := by
    unfold commNodeSendData
    rw [commNodeGetNewSid_eq, ok_bind]
    dsimp only
    rw [hloop, ok_bind]
  have hchunks : m.chunks dstId = chunks := congrArg (fun r => r.toOption.getD []) hloop
  rw [hchunks]
  exact ⟨hsend, hcut⟩

variable {m dstId} {k : ℕ} {f : Frame}

theorem chunk_eq (hk : (m.chunks dstId)[k]? = some f) :
    f = iomanSendChunk m.srcId dstId m.sid m.buff.length k f.body := by
  have h := ((m.commNodeSendData_eq dstId).2.chunk k f hk).1
  rwa [Nat.zero_add] at h

theorem chunk_ne_nil (hk : (m.chunks dstId)[k]? = some f) : f.body ≠ [] :=
  ((m.commNodeSendData_eq dstId).2.chunk k f hk).2

variable (m dstId) in
/-- The bytes of the first `k` chunks. -/
def sent (k : ℕ) : List Byte := joined (m.chunks dstId) k

variable (m dstId) in
/-- **The chunks of a message are its bytes in order.** -/
theorem buff_eq_sent : m.sent dstId (m.count dstId) = m.buff := (m.commNodeSendData_eq dstId).2.buff

theorem sent_succ (hk : (m.chunks dstId)[k]? = some f) :
    m.sent dstId (k + 1) = m.sent dstId k ++ f.body := joined_succ hk

theorem lt_count (hk : (m.chunks dstId)[k]? = some f) : k < m.count dstId :=
  (List.getElem?_eq_some_iff.1 hk).1

variable (m dstId) in
/-- What is behind the first `k` chunks of a message. -/
theorem buff_eq_append (k : ℕ) : ∃ rest, m.buff = m.sent dstId k ++ rest ∧
    (k < m.count dstId → rest ≠ []) := by
  refine ⟨(((m.chunks dstId).drop k).map Frame.body).flatten, ?_, fun hk hnil => ?_⟩
  · rw [← m.buff_eq_sent dstId, sent, sent, joined, joined, ← List.flatten_append,
      ← List.map_append, List.take_append_drop, count, List.take_length]
  · obtain ⟨f, hf⟩ : ∃ f, (m.chunks dstId)[k]? = some f := ⟨_, List.getElem?_eq_getElem hk⟩
    rw [List.drop_eq_getElem_cons hk, List.map_cons, List.flatten_cons] at hnil
    have hbody := (List.append_eq_nil_iff.1 hnil).1
    refine chunk_ne_nil hf ?_
    rw [List.getElem?_eq_getElem hk] at hf
    rw [← Option.some.inj hf]
    exact hbody

theorem count_pos : 0 < m.count dstId := by
  rcases Nat.eq_zero_or_pos (m.count dstId) with h | h
  · have hbuff := m.buff_eq_sent dstId
    rw [h] at hbuff
    exact absurd hbuff.symm m.buff_ne
  · exact h

/-- A chunk fits behind those before it. -/
theorem sent_length_le (hk : (m.chunks dstId)[k]? = some f) :
    (m.sent dstId k).length + f.body.length ≤ m.buff.length := by
  obtain ⟨rest, hbuff, _⟩ := m.buff_eq_append dstId (k + 1)
  have hlen := congrArg List.length hbuff
  rw [sent_succ hk, List.length_append, List.length_append] at hlen
  omega

/-- The last chunk is the one that ends with the message. -/
theorem sent_length_eq_iff (hk : (m.chunks dstId)[k]? = some f) :
    (m.sent dstId k).length + f.body.length = m.buff.length ↔ k + 1 = m.count dstId := by
  have hlt := lt_count hk
  obtain ⟨rest, hbuff, hrest⟩ := m.buff_eq_append dstId (k + 1)
  have hlen := congrArg List.length hbuff
  rw [sent_succ hk, List.length_append, List.length_append] at hlen
  constructor
  · intro h
    by_contra hne
    have hpos := List.length_pos_iff.2 (hrest (by omega))
    omega
  · intro h
    have hall := congrArg List.length (m.buff_eq_sent dstId)
    rw [← h, sent_succ hk, List.length_append] at hall
    exact hall

/-- A `sid` ends with the id of its node, so it is never the one that stands for none. -/
theorem wireSid_ne : m.wireSid ≠ -1 := by
  have hid := m.src_lt
  have hone : (-1 : BitVec 64) = wireUint64 (BitVec.ofNat 64 (2 ^ 32 - 1)) := by decide
  unfold commMaxPeer at hid
  intro h
  rw [wireSid, hone, wireUint64_eq_iff, sid, BitVec.toNat_add, BitVec.toNat_shiftLeft,
    BitVec.ofInt_natCast, BitVec.toNat_ofNat, BitVec.toNat_ofNat, Nat.shiftLeft_eq] at h
  omega

/-- No chunk is empty, so there are not more chunks than bytes. -/
theorem le_sent_length (hk : k ≤ m.count dstId) : k ≤ (m.sent dstId k).length := by
  induction k with
  | zero => exact Nat.zero_le _
  | succ k ih =>
      have hf : (m.chunks dstId)[k]? = some _ := List.getElem?_eq_getElem hk
      have hpos := List.length_pos_iff.2 (chunk_ne_nil hf)
      have hle := ih (by omega)
      rw [sent_succ hf, List.length_append]
      omega

/-- The chunks are frames that arrive as they were sent. -/
theorem chunk_ok (hdst : FitsInt dstId) (hk : (m.chunks dstId)[k]? = some f) : f.Ok := by
  have hinfo := congrArg Frame.info (chunk_eq hk)
  have hlen := sent_length_le hk
  have hle := le_sent_length (lt_count hk).le
  have hpos := List.length_pos_iff.2 (chunk_ne_nil hk)
  have hid : m.srcId < 1024 := m.src_lt
  have hfits := m.buff_fits
  unfold FitsInt at hfits
  refine ⟨⟨?_, ?_, ?_, ?_, ?_, ?_⟩, by rw [hinfo]; rfl, ?_,
    fun _ => ⟨chunk_ne_nil hk, by rw [hinfo]; exact m.wireSid_ne⟩⟩
  case refine_7 =>
    rw [hinfo]
    simp [iomanSendChunk, MsgKind.toInt]
  case refine_2 =>
    rw [hinfo]
    exact hdst
  all_goals
    rw [hinfo]
    unfold FitsInt
    simp only [iomanSendChunk, MsgKind.toInt]
    omega

end DataSend

/-! ### Records -/

/-- Bytes are written into a buffer. -/
def writeAt (data : List (Option Byte)) (off : ℤ) (bytes : List Byte) :
    Except Abort (List (Option Byte)) :=
  if 0 ≤ off ∧ off + bytes.length ≤ data.length then
    Except.ok (data.take off.toNat ++ bytes.map some ++ data.drop (off.toNat + bytes.length))
  else Except.error Abort.badAccess

/-- The chunk `seq` with `n` bytes is counted. -/
def DataMsg.addChunk (msg : DataMsg) (seq : ℤ) (n : ℕ) : DataMsg :=
  { msg with seq := seq, recvd := msg.recvd + n }

/-- `data_msg_push_chunk`; the result is whether the message is complete. -/
def dataMsgPushChunk (msg : DataMsg) (header : MsgInfo) (chunk : MsgBuff) :
    Except Abort (Bool × DataMsg) := do
  cAssert (header.srcId = msg.srcId)
  let dseq := header.seq - msg.seq
  cAssert (dseq = 0 ∨ dseq = 1)
  let msg := msg.addChunk header.seq chunk.len
  cAssert (msg.recvd ≤ msg.len)
  Except.ok (msg.recvd = msg.len, msg)

/-- The map of records of a node, the heap of records, and the queues of complete messages; a
channel whose buffer lies in a record has it at this offset. -/
structure DataStore (κ : Type) where
  dataMsgMap : BitVec 64 → Option ℕ
  records : ℕ → Option DataMsg
  nextRecord : ℕ
  extBuff : κ → Option (ℕ × ℤ)
  queues : DataQueues

/-- `comm_node_create`. -/
def commNodeCreateStore {κ : Type} (memory : BitVec 32) : DataStore κ where
  dataMsgMap := fun _ => none
  records := fun _ => none
  nextRecord := 0
  extBuff := fun _ => none
  queues := commNodeCreateQueues memory

/-- The bytes in the buffer of a channel. -/
def Channel.buffered {κ : Type} (chan : Channel κ) : List Byte :=
  match chan.currBuff with
  | none => []
  | some buff => buff.data

namespace DataStore

variable {κ : Type} [DecidableEq κ]

/-- A record changes. -/
@[simps] def setRecord (store : DataStore κ) (ref : ℕ) (msg : Option DataMsg) : DataStore κ :=
  { store with records := Function.update store.records ref msg }

/-- The buffer of a channel. -/
@[simps] def setExtBuff (store : DataStore κ) (c : κ) (ext : Option (ℕ × ℤ)) : DataStore κ :=
  { store with extBuff := Function.update store.extBuff c ext }

/-- The record behind a pointer. -/
def getRecord (store : DataStore κ) (ref : ℕ) : Except Abort DataMsg :=
  match store.records ref with
  | none => Except.error Abort.badAccess
  | some msg => Except.ok msg

/-- `data_msg_create` and `data_msg_hash_map_add`. -/
@[simps] def addRecord (store : DataStore κ) (sid : BitVec 64) (msg : DataMsg) : DataStore κ :=
  { store with
    dataMsgMap := Function.update store.dataMsgMap sid (some store.nextRecord)
    records := Function.update store.records store.nextRecord (some msg)
    nextRecord := store.nextRecord + 1 }

/-- `data_msg_hash_map_pop`, with the message now in these queues. -/
@[simps] def popRecord (store : DataStore κ) (sid : BitVec 64) (ref : ℕ) (queues : DataQueues) :
    DataStore κ :=
  { store with
    dataMsgMap := Function.update store.dataMsgMap sid none
    records := Function.update store.records ref none
    queues := queues }

/-- The record that `comm_node_setup_chunk` finds or creates. -/
def findOrCreate (store : DataStore κ) (header : MsgInfo) : ℕ × DataStore κ :=
  match store.dataMsgMap header.sid with
  | some ref => (ref, store)
  | none =>
      (store.nextRecord, store.addRecord header.sid (dataMsgCreate header.totLen header.srcId))

/-- `comm_node_setup_chunk`: the buffer of the channel is the end of the message's buffer
(`data_msg_buff_tail`). -/
def commNodeSetupChunk (store : DataStore κ) (c : κ) (chan : Channel κ) :
    Except Abort (DataStore κ × Channel κ) := do
  cAssert (chan.msgInfo.sid ≠ -1)
  let (ref, store) := store.findOrCreate chan.msgInfo
  let msg ← store.getRecord ref
  let chan ← channelSetupChunkWithBuff chan
  Except.ok (store.setExtBuff c (some (ref, msg.recvd)), chan)

/-- `comm_node_handle_chunk`; the message of the last chunk is delivered. -/
def commNodeHandleChunk (store : DataStore κ) (header : MsgInfo) (chunk : MsgBuff) :
    Except Abort (DataStore κ) := do
  cAssert (header.sid ≠ -1)
  match store.dataMsgMap header.sid with
  | none => Except.error Abort.assertion
  | some ref => do
      let msg ← store.getRecord ref
      let (full, msg) ← dataMsgPushChunk msg header chunk
      if full then do
        let queues ← commNodeDeliverChunk store.queues msg
        Except.ok (store.popRecord header.sid ref queues)
      else Except.ok (store.setRecord ref (some msg))

/-! ### Reading a channel -/

/-- The allocation of a buffer after a header in `ioman_process_channel_read`. -/
def iomanSetupRead (store : DataStore κ) (nodeId : ℤ) (c : κ) (chan : Channel κ) :
    Except Abort (DataStore κ × Channel κ) :=
  if chan.msgInfo.kind = MsgKind.data.toInt ∧ chan.msgInfo.dstId = nodeId then
    store.commNodeSetupChunk c chan
  else do
    let chan ← DLFree.iomanSetupRead nodeId chan
    Except.ok (store.setExtBuff c none, chan)

/-- What `channel_read_to_buff` has written: `got`, behind the `n` bytes that were in the buffer of
the channel before. -/
def recvInto (store : DataStore κ) (c : κ) (n : ℕ) (got : List Byte) :
    Except Abort (DataStore κ) :=
  match store.extBuff c, got with
  | none, _ => Except.ok store
  | some _, [] => Except.ok store
  | some (ref, off), b :: bs => do
      let msg ← store.getRecord ref
      let userMsgData ← writeAt msg.userMsgData (off + n) (b :: bs)
      Except.ok (store.setRecord ref (some { msg with userMsgData }))

/-- What `ioman_process_channel_read` does with a chunk or a message that is complete. -/
def iomanReadDone (bo : ByteOrder) (now : ℚ) (node : CommNode κ) (store : DataStore κ) (c : κ)
    (chan : Channel κ) (msg : MsgBuff) : Except Abort (CommNode κ × DataStore κ) := do
  let store ←
    (if chan.msgInfo.kind = MsgKind.data.toInt ∧ chan.msgInfo.dstId = node.nodeId then
      store.commNodeHandleChunk chan.msgInfo msg
    else Except.ok store)
  let node ← DLFree.iomanReadDone bo now node c chan msg
  Except.ok (node, store)

/-- The body of a message or chunk in `ioman_process_channel_read`. -/
def iomanReadBody (bo : ByteOrder) (now : ℚ) (node : CommNode κ) (store : DataStore κ) (c : κ)
    (chan : Channel κ) (script : List RecvEvent) :
    Except Abort (Bool × CommNode κ × DataStore κ × List RecvEvent) := do
  let n := chan.buffered.length
  let (stat, msg, chan, script) ← channelReadBody chan script
  let store ← store.recvInto c n (chan.buffered.drop n)
  let node := node.setMan (node.man.put c chan)
  match msg with
  | none => Except.ok (stat ≠ ChannelReadStatus.err, node, store, script)
  | some msg => do
      let (node, store) ← iomanReadDone bo now node store c chan msg
      Except.ok (true, node, store, script)

/-- `ioman_process_channel_read`; the result is whether the channel is alive, the node, its records,
and what the socket still holds. -/
def iomanProcessChannelRead (bo : ByteOrder) (now : ℚ) (node : CommNode κ) (store : DataStore κ)
    (c : κ) (script : List RecvEvent) :
    Except Abort (Bool × CommNode κ × DataStore κ × List RecvEvent) := do
  let chan ← node.man.get c
  if chan.currBuff.isNone then do
    let (stat, chan, script) ← channelReadHeader bo chan script
    if stat = ChannelReadStatus.ok then do
      let (store, chan) ← store.iomanSetupRead node.nodeId c chan
      iomanReadBody bo now node store c chan script
    else
      Except.ok (stat ≠ ChannelReadStatus.err,
        { node with man := node.man.put c chan }, store, script)
  else iomanReadBody bo now node store c chan script

/-! ### The records do not change what happens to the node -/

variable {bo : ByteOrder} {now : ℚ} {node node' : CommNode κ} {store store' : DataStore κ} {c : κ}
  {chan chan' : Channel κ} {script script' : List RecvEvent} {alive : Bool}

theorem iomanSetupRead_refines {nodeId : ℤ}
    (h : store.iomanSetupRead nodeId c chan = Except.ok (store', chan')) :
    DLFree.iomanSetupRead nodeId chan = Except.ok chan' := by
  unfold iomanSetupRead at h
  split at h
  · rename_i hown
    obtain ⟨_, hsid, h⟩ := bind_eq_ok.1 h
    obtain ⟨_, _, h⟩ := bind_eq_ok.1 h
    obtain ⟨chan₁, hsetup, h⟩ := bind_eq_ok.1 h
    simp only [Except.ok.injEq, Prod.mk.injEq] at h
    obtain ⟨_, rfl⟩ := h
    unfold DLFree.iomanSetupRead
    rw [if_pos hown.1, if_pos hown.2]
    exact bind_eq_ok.2 ⟨(), hsid, hsetup⟩
  · obtain ⟨chan₁, hsetup, h⟩ := bind_eq_ok.1 h
    simp only [Except.ok.injEq, Prod.mk.injEq] at h
    obtain ⟨_, rfl⟩ := h
    exact hsetup

theorem iomanReadBody_refines
    (h : iomanReadBody bo now node store c chan script =
      Except.ok (alive, node', store', script')) :
    DLFree.iomanReadBody bo now node c chan script = Except.ok (alive, node', script') := by
  obtain ⟨⟨stat, msg, chan₁, script₁⟩, hread, h⟩ := bind_eq_ok.1 h
  obtain ⟨store₁, _, h⟩ := bind_eq_ok.1 h
  refine bind_eq_ok.2 ⟨_, hread, ?_⟩
  cases msg with
  | none =>
      simp only [Except.ok.injEq, Prod.mk.injEq] at h ⊢
      obtain ⟨halive, hnode, _, hscript⟩ := h
      exact ⟨halive, hnode, hscript⟩
  | some msg =>
      obtain ⟨⟨node₂, store₂⟩, hdone, h⟩ := bind_eq_ok.1 h
      unfold iomanReadDone at hdone
      obtain ⟨store₃, hupcall, hdone⟩ := bind_eq_ok.1 hdone
      obtain ⟨node₃, hnode, hpair⟩ := bind_eq_ok.1 hdone
      simp only [Except.ok.injEq, Prod.mk.injEq] at h hpair
      obtain ⟨rfl, rfl, _, rfl⟩ := h
      obtain ⟨rfl, _⟩ := hpair
      exact bind_eq_ok.2 ⟨_, hnode, rfl⟩

/-- **With the records a read does to the node what it does without them.** -/
theorem iomanProcessChannelRead_refines
    (h : iomanProcessChannelRead bo now node store c script =
      Except.ok (alive, node', store', script')) :
    DLFree.iomanProcessChannelRead bo now node c script = Except.ok (alive, node', script') := by
  obtain ⟨chan, hchan, h⟩ := bind_eq_ok.1 h
  refine bind_eq_ok.2 ⟨chan, hchan, ?_⟩
  split at h
  · rename_i hidle
    rw [if_pos hidle]
    obtain ⟨⟨stat, chan₁, script₁⟩, hread, h⟩ := bind_eq_ok.1 h
    refine bind_eq_ok.2 ⟨_, hread, ?_⟩
    dsimp only at h ⊢
    split at h
    · rename_i hstat
      rw [if_pos hstat]
      obtain ⟨⟨store₂, chan₂⟩, hsetup, h⟩ := bind_eq_ok.1 h
      exact bind_eq_ok.2 ⟨chan₂, iomanSetupRead_refines hsetup, iomanReadBody_refines h⟩
    · rename_i hstat
      rw [if_neg hstat]
      simp only [Except.ok.injEq, Prod.mk.injEq] at h ⊢
      obtain ⟨halive, hnode, _, hscript⟩ := h
      exact ⟨halive, hnode, hscript⟩
  · rename_i hbusy
    rw [if_neg hbusy]
    exact iomanReadBody_refines h

end DataStore

/-! ### The records of messages -/

/-- A buffer whose first bytes have been written. -/
def fillBuff (len : ℕ) (bytes : List Byte) : List (Option Byte) :=
  bytes.map some ++ List.replicate (len - bytes.length) none

theorem writeAt_fillBuff {len : ℕ} {bytes more : List Byte} {off : ℤ} (hoff : off = bytes.length)
    (hfit : bytes.length + more.length ≤ len) :
    writeAt (fillBuff len bytes) off more = Except.ok (fillBuff len (bytes ++ more)) := by
  have hlen : (fillBuff len bytes).length = len := by
    unfold fillBuff
    rw [List.length_append, List.length_map, List.length_replicate]
    omega
  have hbounds : 0 ≤ off ∧ off + more.length ≤ (fillBuff len bytes).length := by
    rw [hlen]
    omega
  have htake : (fillBuff len bytes).take off.toNat = bytes.map some := by
    rw [hoff, Int.toNat_natCast]
    exact List.take_left' (List.length_map _)
  have hdrop : (fillBuff len bytes).drop (off.toNat + more.length) =
      List.replicate (len - (bytes ++ more).length) none := by
    have hb : (bytes.map some).length = bytes.length := List.length_map _
    rw [hoff, Int.toNat_natCast, fillBuff, List.drop_append, hb, List.drop_replicate,
      List.drop_eq_nil_of_le (by omega), List.length_append, List.nil_append]
    congr 1
    omega
  unfold writeAt
  rw [if_pos hbounds, htake, hdrop, fillBuff, List.map_append]

namespace DataSend

/-- The record of a message of which `k` chunks and the bytes `got` of the next have arrived. -/
def record (m : DataSend) (dstId : ℤ) (k : ℕ) (got : List Byte) : DataMsg where
  len := m.buff.length
  srcId := m.srcId
  recvd := (m.sent dstId k).length
  seq := (k : ℤ) - 1
  userMsgData := fillBuff m.buff.length (m.sent dstId k ++ got)

/-- The record of a message that is complete. -/
def delivered (m : DataSend) (dstId : ℤ) : DataMsg where
  len := m.buff.length
  srcId := m.srcId
  recvd := m.buff.length
  seq := (m.count dstId : ℤ) - 1
  userMsgData := m.buff.map some

variable {m : DataSend} {dstId : ℤ} {k : ℕ} {f : Frame}

theorem record_zero : m.record dstId 0 [] = dataMsgCreate m.buff.length m.srcId := by
  simp [record, dataMsgCreate, sent, fillBuff]

theorem record_count : m.record dstId (m.count dstId) [] = m.delivered dstId := by
  simp [record, delivered, buff_eq_sent, fillBuff]

/-- A chunk is pushed behind those before it, and the message is complete with the last one. -/
theorem dataMsgPushChunk_record {header : MsgInfo} {chunk : MsgBuff}
    (hk : (m.chunks dstId)[k]? = some f) (hsrc : header.srcId = m.srcId) (hseq : header.seq = k)
    (hlen : chunk.len = f.body.length) :
    dataMsgPushChunk (m.record dstId k f.body) header chunk =
      Except.ok (decide (k + 1 = m.count dstId), m.record dstId (k + 1) []) := by
  have hle := sent_length_le hk
  have hsent : (m.sent dstId (k + 1)).length = (m.sent dstId k).length + f.body.length := by
    rw [sent_succ hk, List.length_append]
  have hnew : (m.record dstId k f.body).addChunk header.seq chunk.len =
      m.record dstId (k + 1) [] := by
    simp only [record, DataMsg.addChunk, hseq, hlen, sent_succ hk, List.append_nil, List.length_append,
      Nat.cast_add, Nat.cast_one, add_sub_cancel_right]
  have hdseq : header.seq - (m.record dstId k f.body).seq = 0 ∨
      header.seq - (m.record dstId k f.body).seq = 1 := by
    rw [hseq]
    simp only [record]
    omega
  have hrecvd : (m.record dstId (k + 1) []).recvd ≤ (m.record dstId (k + 1) []).len := by
    simp only [record]
    omega
  have hfull : (m.record dstId (k + 1) []).recvd = (m.record dstId (k + 1) []).len ↔
      k + 1 = m.count dstId := by
    rw [← sent_length_eq_iff hk]
    simp only [record]
    omega
  unfold dataMsgPushChunk
  dsimp only
  rw [cAssert_of (show header.srcId = (m.record dstId k f.body).srcId from hsrc), ok_bind,
    cAssert_of hdseq, ok_bind, hnew, cAssert_of hrecvd, ok_bind, decide_eq_decide.2 hfull]

end DataSend

namespace DataStore

variable {κ : Type} [DecidableEq κ] {store : DataStore κ} {c : κ} {chan : Channel κ} {ref : ℕ}
  {m : DataSend} {dstId : ℤ} {k : ℕ} {f : Frame} {got got' : List Byte}

omit [DecidableEq κ] in
theorem getRecord_eq {msg : DataMsg} (h : store.records ref = some msg) :
    store.getRecord ref = Except.ok msg := by
  unfold getRecord
  rw [h]

omit [DecidableEq κ] in
/-- **Bytes of a chunk are written behind what has arrived of its message.** -/
theorem recvInto_record (hext : store.extBuff c = some (ref, ((m.sent dstId k).length : ℤ)))
    (hrec : store.records ref = some (m.record dstId k got))
    (hfit : (m.sent dstId k).length + (got ++ got').length ≤ m.buff.length) :
    store.recvInto c got.length got' =
      Except.ok (store.setRecord ref (some (m.record dstId k (got ++ got')))) := by
  cases got' with
  | nil =>
      have hsame : store.setRecord ref (some (m.record dstId k (got ++ []))) = store := by
        unfold setRecord
        rw [List.append_nil, ← hrec, Function.update_eq_self]
      unfold recvInto
      rw [hext, hsame]
  | cons b bs =>
      have hwrite := @writeAt_fillBuff m.buff.length (m.sent dstId k ++ got) (b :: bs)
        ((m.sent dstId k).length + got.length : ℕ)
        (by rw [List.length_append])
        (by rw [List.length_append] at hfit ⊢; omega)
      unfold recvInto
      rw [hext]
      dsimp only
      rw [getRecord_eq hrec, ok_bind]
      simp only [DataSend.record]
      rw [← Nat.cast_add, hwrite, ok_bind, List.append_assoc]

omit [DecidableEq κ] in
/-- **The last chunk of a message delivers it**, any other is noted in its record. -/
theorem commNodeHandleChunk_record {header : MsgInfo} {chunk : MsgBuff}
    (hk : (m.chunks dstId)[k]? = some f) (hsid : header.sid = m.wireSid)
    (hsrc : header.srcId = m.srcId) (hseq : header.seq = k) (hlen : chunk.len = f.body.length)
    (hmap : store.dataMsgMap m.wireSid = some ref)
    (hrec : store.records ref = some (m.record dstId k f.body)) :
    store.commNodeHandleChunk header chunk = Except.ok
      (if k + 1 = m.count dstId then
        store.popRecord m.wireSid ref (store.queues.push (m.delivered dstId))
      else store.setRecord ref (some (m.record dstId (k + 1) []))) := by
  have hid : 0 ≤ ((m.record dstId (k + 1) []).srcId) ∧
      (m.record dstId (k + 1) []).srcId < commMaxPeer :=
    ⟨Int.natCast_nonneg _, Int.ofNat_lt.2 m.src_lt⟩
  unfold commNodeHandleChunk
  rw [hsid, cAssert_of m.wireSid_ne, ok_bind, hmap]
  dsimp only
  rw [getRecord_eq hrec, ok_bind, DataSend.dataMsgPushChunk_record hk hsrc hseq hlen, ok_bind]
  dsimp only
  by_cases hfull : k + 1 = m.count dstId
  · rw [if_pos (decide_eq_true hfull), if_pos hfull]
    unfold commNodeDeliverChunk
    rw [checkPeerId_of hid, ok_bind, ok_bind, hfull, DataSend.record_count]
  · rw [if_neg (by simpa using hfull), if_neg hfull]

end DataStore

end DLFree
