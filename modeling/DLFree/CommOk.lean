/-
**When the steps of the I/O thread return.**

The lemmas of `CommInv` say what a step did once it has returned.  The lemmas here go the other way:
they give the result of a step from the state before it, so that no assertion on the way fails.

Main results:

* `channelPipelineChunk_eq`, `iomanGetNexthopChannel_eq` — passing a chunk on;
* `iomanProcessLocalChannelRead_eq` — **reading the local channel returns** when there is a token, a
  packed chunk for another node, and a next hop.
-/

import DLFree.CommInv

set_option relaxedAutoImplicit false
set_option autoImplicit false

namespace DLFree

/-! ### Packed headers -/

theorem packHeader_length (bo : ByteOrder) (minfo : MsgInfo) :
    (packHeader bo minfo).length = channelMsgHeaderlen := by
  simp [packHeader, msgInfoBytes, channelMsgHeaderlen]

theorem msgInfoUnpack_packHeader (bo : ByteOrder) {minfo : MsgInfo} (h : minfo.Fits)
    (rest : List Byte) : ∃ rest', msgInfoUnpack bo (packHeader bo minfo ++ rest) =
      some (minfo.onWire, rest') := by
  unfold packHeader
  rw [List.append_assoc]
  exact ⟨_, msgInfoUnpack_msgInfoPack bo h _⟩

theorem unsent_channelPackBuff (bo : ByteOrder) (minfo : MsgInfo) (body : List Byte) :
    (channelPackBuff bo minfo body).unsent = packHeader bo minfo ++ body := by
  simp [MsgBuff.unsent, channelPackBuff]

section Steps

variable {κ : Type} [DecidableEq κ] {bo : ByteOrder} {man : Ioman κ} {node : CommNode κ}
  {c next : κ} {chan nextChan : Channel κ} {buff : MsgBuff}

/-! ### Passing a chunk on -/

theorem channelPipelineChunk_eq (hc : man.heap c = some chan) (hbuff : chan.currBuff = some buff)
    (hnext : man.heap next = some nextChan) :
    channelPipelineChunk man c next = Except.ok
      (if nextChan.buffQueue.length < channelMsgQueueLimit then (true, man.moveChunk c next buff)
        else (false, man.joinWaitQueue c next)) := by
  have hget := Ioman.get_eq_ok.2 hc
  have hgetnext := Ioman.get_eq_ok.2 hnext
  simp only [channelPipelineChunk, hget, hbuff, hgetnext, bind, Except.bind]
  split <;> rfl

omit [DecidableEq κ] in
theorem iomanGetNexthopChannel_eq {srcId dstId pid : ℤ}
    (hlookup : commNodeLookupRt node.nodeId node.rts srcId dstId = Except.ok pid)
    (hpos : 0 ≤ pid) (hmax : pid < node.man.maxpeers) (hmap : node.man.channelMap pid = some next) :
    iomanGetNexthopChannel node srcId dstId = Except.ok next := by
  have hpid : pid ≠ -1 := by omega
  have hcheck : node.man.checkPeer pid = Except.ok () := if_pos ⟨hpos, hmax⟩
  simp [iomanGetNexthopChannel, hlookup, hpid, iomanMapChannel, hcheck, hmap, bind, Except.bind]

/-! ### The local channel -/

omit [DecidableEq κ] in
theorem channelLocalPopChunk_eq {chunk : MsgBuff} {bs : List MsgBuff} {msgInfo : MsgInfo}
    {rest : List Byte} (hpipe : chan.pipe ≠ 0) (hq : chan.buffQueue = chunk :: bs)
    (hunpack : msgInfoUnpack bo chunk.unsent = some (msgInfo, rest)) :
    channelLocalPopChunk bo chan = Except.ok (chunk, { chan with
      pipe := chan.pipe - 1
      buffQueue := bs
      msgInfo := { msgInfo with remain := 0 } }) := by
  simp only [channelLocalPopChunk, if_neg hpipe, hq, hunpack]

/-- What is left of the local channel when its first chunk is popped. -/
def Channel.popped (chan : Channel κ) (msgInfo : MsgInfo) (chunk : MsgBuff) (bs : List MsgBuff) :
    Channel κ :=
  { chan with
    pipe := chan.pipe - 1
    buffQueue := bs
    msgInfo := { msgInfo with remain := 0 }
    currBuff := some chunk }

/-- **Reading the local channel returns.** -/
theorem iomanProcessLocalChannelRead_eq {chunk : MsgBuff} {bs : List MsgBuff} {msgInfo : MsgInfo}
    {rest : List Byte} {pid : ℤ} (hchan : node.man.heap node.man.localChan = some chan)
    (hpipe : chan.pipe ≠ 0) (hq : chan.buffQueue = chunk :: bs)
    (hunpack : msgInfoUnpack bo chunk.unsent = some (msgInfo, rest))
    (hsd : msgInfo.srcId ≠ msgInfo.dstId)
    (hlookup : commNodeLookupRt node.nodeId node.rts msgInfo.srcId msgInfo.dstId = Except.ok pid)
    (hpos : 0 ≤ pid) (hmax : pid < node.man.maxpeers) (hmap : node.man.channelMap pid = some next)
    (hnext : node.man.heap next = some nextChan) (hne : next ≠ node.man.localChan) :
    iomanProcessLocalChannelRead bo node = Except.ok { node with man :=
      (if nextChan.buffQueue.length < channelMsgQueueLimit then
        (node.man.put node.man.localChan (chan.popped msgInfo chunk bs)).moveChunk
          node.man.localChan next chunk
      else (node.man.put node.man.localChan (chan.popped msgInfo chunk bs)).joinWaitQueue
          node.man.localChan next) } := by
  have hget := Ioman.get_eq_ok.2 hchan
  have hpop := channelLocalPopChunk_eq hpipe hq hunpack
  have hnexthop := iomanGetNexthopChannel_eq hlookup hpos hmax hmap
  have hnext' : (node.man.put node.man.localChan (chan.popped msgInfo chunk bs)).heap next =
      some nextChan := by
    rw [Ioman.heap_put_of_ne hne]
    exact hnext
  have hpipeline := channelPipelineChunk_eq (c := node.man.localChan) Ioman.heap_put_self
    (show (chan.popped msgInfo chunk bs).currBuff = some chunk from rfl) hnext'
  unfold Channel.popped at *
  simp only [iomanProcessLocalChannelRead, hget, hpop, hnexthop, bind, Except.bind, hsd, ne_eq,
    not_false_eq_true, decide_true, cAssert_true, hpipeline]
  split <;> rfl

/-! ### Events -/

/-- Every event of the notify pipe can be handled. -/
theorem iomanHandleEvent_ok (bo : ByteOrder) (hne : man.events ≠ []) :
    ∃ man', iomanHandleEvent bo man = Except.ok man' := by
  unfold iomanHandleEvent
  cases hevents : man.events with
  | nil => exact absurd hevents hne
  | cons event events => cases event <;> exact ⟨_, rfl⟩

/-! ### Removing a channel -/

theorem iomanRemoveChannel_ok (hc : man.heap c = some chan) (hpos : 0 ≤ chan.peerId)
    (hmax : chan.peerId < man.maxpeers) (hmap : man.channelMap chan.peerId = some c) :
    ∃ man', iomanRemoveChannel man c = Except.ok man' := by
  have hget : ({ man with channels := man.channels.erase c } : Ioman κ).get c = Except.ok chan :=
    Ioman.get_eq_ok.2 hc
  have hcheck : ({ man with channels := man.channels.erase c } : Ioman κ).checkPeer chan.peerId =
      Except.ok () := if_pos ⟨hpos, hmax⟩
  have hknown : chan.peerId ≠ channelPeerUnknown := by
    unfold channelPeerUnknown
    omega
  unfold iomanRemoveChannel iomanDeleteChannel
  simp only [hget, ok_bind, if_pos hknown, hcheck, hmap, decide_true, cAssert_true]
  exact ⟨_, rfl⟩

end Steps

end DLFree
