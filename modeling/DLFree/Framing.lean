/-
**Framing does not depend on fragmentation.**

One node queues frames on a channel and writes it whenever the socket has room for some bytes; the
node at the other end reads whatever arrives.  Between these steps both nodes do other things: other
channels join the wait queue of the sender and are released by its writes, and a chunk that the
receiver holds is passed on when there is room for it.

A run records the frames that have been queued, the bytes that have been sent and taken, and what the
reads of the receiver have handed on.  It shows that these are the queued frames in order, whatever
the pieces were.

Main definitions:

* `FramingState`, `FramingStep` — the two nodes, the socket and the records of the run;
* `Received` — what a read hands on for a frame;
* `FramingInv` — what every run keeps;
* `Framed` — what this says of the bytes, the messages and the chunks that are passed on.

Main results:

* `WriteRun.stream` — a write sends the queue in order, and then what it releases;
* `iomanReadDone_reader` — the channel is ready for the next frame when one has been handled;
* `FramingStep.inv` — a step keeps the invariant;
* `framing_independent` — **the receiver takes the sent bytes and hands on the queued frames**.
-/

import DLFree.Links

set_option relaxedAutoImplicit false
set_option autoImplicit false

namespace DLFree

/-! ### Sending -/

section Send

variable {κ : Type} [DecidableEq κ] {bo : ByteOrder} {c : κ} {man man' : Ioman κ}
  {chan : Channel κ} {bytes : List Byte}

/-- The channel `w` holds the chunk `f`, to be passed on. -/
def Holding (bo : ByteOrder) (man : Ioman κ) (w : κ) (f : Frame) : Prop :=
  f.Ok ∧ ∃ buff, man.view Channel.currBuff w = some (some buff) ∧ buff.unsent = f.encode bo

/-- The bytes that are queued on a channel. -/
def queuedBytes (queue : List MsgBuff) : List Byte := queue.flatMap MsgBuff.unsent

/-- The bytes of frames. -/
def encodeAll (bo : ByteOrder) (frames : List Frame) : List Byte := frames.flatMap (Frame.encode bo)

@[simp] theorem encodeAll_nil : encodeAll bo [] = [] := rfl

@[simp] theorem encodeAll_cons (f : Frame) (frames : List Frame) :
    encodeAll bo (f :: frames) = f.encode bo ++ encodeAll bo frames := rfl

@[simp] theorem encodeAll_append (frames frames' : List Frame) :
    encodeAll bo (frames ++ frames') = encodeAll bo frames ++ encodeAll bo frames' :=
  List.flatMap_append

theorem view_currBuff_release {waiter w : κ} {ws : List κ} {buff : MsgBuff} (hw : w ≠ waiter) :
    ((man.modify c (Channel.setWaitQueue ws)).moveChunk waiter c buff).view Channel.currBuff w =
      man.view Channel.currBuff w := by
  unfold Ioman.moveChunk
  have hlast : ∀ man : Ioman κ, (man.modify waiter (Channel.setCurrBuff none)).view
      Channel.currBuff w = man.view Channel.currBuff w := by
    intro man
    unfold Ioman.view
    rw [Ioman.heap_modify_of_ne hw]
  rw [hlast, Ioman.view_modify (Channel.appendBuff buff) fun _ => rfl,
    Ioman.view_modify (Channel.setState _) fun _ => rfl,
    Ioman.view_modify (Channel.setWaitQueue ws) fun _ => rfl]

theorem buffQueue_release {waiter : κ} {ws : List κ} {buff : MsgBuff}
    (hchan : man.heap c = some chan) : ∃ chan',
      ((man.modify c (Channel.setWaitQueue ws)).moveChunk waiter c buff).heap c = some chan' ∧
        chan'.buffQueue = chan.buffQueue ++ [buff] := by
  have h₁ : (man.modify c (Channel.setWaitQueue ws)).heap c = some (chan.setWaitQueue ws) :=
    Ioman.heap_modify_eq hchan
  have hview : ((man.modify c (Channel.setWaitQueue ws)).moveChunk waiter c buff).view
      Channel.buffQueue c = some (chan.buffQueue ++ [buff]) := by
    unfold Ioman.moveChunk
    rw [Ioman.view_modify (Channel.setCurrBuff none) fun _ => rfl]
    unfold Ioman.view
    rw [Ioman.heap_modify_self, Option.map_map]
    have h₂ : ((man.modify c (Channel.setWaitQueue ws)).modify waiter
        (Channel.setState ChannelStatus.active)).view Channel.buffQueue c =
        (man.modify c (Channel.setWaitQueue ws)).view Channel.buffQueue c :=
      Ioman.view_modify (Channel.setState _) fun _ => rfl
    unfold Ioman.view at h₂
    rw [h₁] at h₂
    obtain ⟨chan₂, hchan₂, hq⟩ := Option.map_eq_some_iff.1 h₂
    rw [hchan₂]
    simp only [Option.map_some, Function.comp, Channel.appendBuff_buffQueue, hq,
      Channel.setWaitQueue_buffQueue]
  unfold Ioman.view at hview
  exact Option.map_eq_some_iff.1 hview

/-- **A write sends the queue in order**; the chunks of the channels that it releases come behind. -/
theorem WriteRun.stream (h : WriteRun c man bytes man') :
    ∀ {chan : Channel κ} {fs : List Frame}, man.heap c = some chan → (man.waitQueue c).Nodup →
      List.Forall₂ (Holding bo man) (man.waitQueue c) fs →
      ∃ chan' k, man'.heap c = some chan' ∧ k ≤ fs.length ∧
        (man'.waitQueue c).length = fs.length - k ∧
        bytes ++ queuedBytes chan'.buffQueue =
          queuedBytes chan.buffQueue ++ encodeAll bo (fs.take k) := by
  induction h with
  | refl man =>
      intro chan fs hchan _ hheld
      refine ⟨chan, 0, hchan, Nat.zero_le _, ?_, ?_⟩
      · rw [hheld.length_eq, Nat.sub_zero]
      · simp
  | @step man man₁ man₂ bytes bytes' hmicro hrun ih =>
      intro chan fs hchan hnodup hheld
      cases hmicro with
      | @part chan₁ buff buff' bs _ hchan₁ hq hbytes hne =>
          obtain rfl : chan₁ = chan := Option.some.inj (hchan₁.symm.trans hchan)
          have hwq : (man.modify c (Channel.setBuffQueue (buff' :: bs))).waitQueue c =
              man.waitQueue c := Ioman.waitQueue_modify (Channel.setBuffQueue _) fun _ => rfl
          have hhold : ∀ w f, Holding bo man w f →
              Holding bo (man.modify c (Channel.setBuffQueue (buff' :: bs))) w f := by
            rintro w f ⟨hf, b, hb, hub⟩
            exact ⟨hf, b, by rw [Ioman.view_modify (Channel.setBuffQueue _) fun _ => rfl, hb], hub⟩
          obtain ⟨chan', k, hchan', hk, hlen, hstream⟩ := ih (Ioman.heap_modify_eq hchan)
            (by rw [hwq]; exact hnodup) (by rw [hwq]; exact hheld.imp hhold)
          refine ⟨chan', k, hchan', hk, hlen, ?_⟩
          rw [List.append_assoc, hstream, hq]
          simp only [queuedBytes, Channel.setBuffQueue_buffQueue, List.flatMap_cons, hbytes,
            List.append_assoc]
      | @whole chan₁ buff bs hchan₁ hq =>
          obtain rfl : chan₁ = chan := Option.some.inj (hchan₁.symm.trans hchan)
          have hwq : (man.modify c (Channel.setBuffQueue bs)).waitQueue c = man.waitQueue c :=
            Ioman.waitQueue_modify (Channel.setBuffQueue _) fun _ => rfl
          have hhold : ∀ w f, Holding bo man w f →
              Holding bo (man.modify c (Channel.setBuffQueue bs)) w f := by
            rintro w f ⟨hf, b, hb, hub⟩
            exact ⟨hf, b, by rw [Ioman.view_modify (Channel.setBuffQueue _) fun _ => rfl, hb], hub⟩
          obtain ⟨chan', k, hchan', hk, hlen, hstream⟩ := ih (Ioman.heap_modify_eq hchan)
            (by rw [hwq]; exact hnodup) (by rw [hwq]; exact hheld.imp hhold)
          refine ⟨chan', k, hchan', hk, hlen, ?_⟩
          rw [List.append_assoc, hstream, hq]
          simp only [queuedBytes, Channel.setBuffQueue_buffQueue, List.flatMap_cons,
            List.append_assoc]
      | release h =>
          obtain ⟨waiter, ws, buff, hlive, hwq, _, hbuff, _, rfl⟩ := h
          rw [hwq] at hnodup hheld
          cases hheld with
          | @cons _ f _ fs hf hheld =>
              obtain ⟨chan₁, hchan₁, hq⟩ := @buffQueue_release κ _ c man chan waiter ws buff hchan
              have hwq₁ : ((man.modify c (Channel.setWaitQueue ws)).moveChunk waiter c
                  buff).waitQueue c = ws := by
                rw [waitQueue_moveChunk, Ioman.waitQueue_eq (Ioman.heap_modify_eq hchan)]
                rfl
              have hheld₁ : List.Forall₂ (Holding bo ((man.modify c
                  (Channel.setWaitQueue ws)).moveChunk waiter c buff)) ws fs := by
                have hne : ∀ w ∈ ws, w ≠ waiter := by
                  rintro w hw rfl
                  exact (List.nodup_cons.1 hnodup).1 hw
                refine ((List.forall₂_and_left _ _).2 ⟨hne, hheld⟩).imp ?_
                rintro w g ⟨hw, hg, b, hb, hub⟩
                exact ⟨hg, b, by rw [view_currBuff_release hw, hb], hub⟩
              obtain ⟨chan', k, hchan', hk, hlen, hstream⟩ := ih hchan₁
                (by rw [hwq₁]; exact (List.nodup_cons.1 hnodup).2) (by rw [hwq₁]; exact hheld₁)
              obtain ⟨_, buff', hbuff', hunsent⟩ := hf
              obtain rfl : buff = buff' :=
                Option.some.inj (Option.some.inj (hbuff.symm.trans hbuff'))
              refine ⟨chan', k + 1, hchan', Nat.succ_le_succ hk, ?_, ?_⟩
              · rw [hlen, List.length_cons, Nat.add_sub_add_right]
              · rw [List.nil_append, hstream, hq, List.take_succ_cons, encodeAll_cons, ← hunsent]
                simp [queuedBytes]

end Send

/-! ### Handling a frame -/

section Handle

variable {κ : Type} [DecidableEq κ] {bo : ByteOrder} {now : ℚ} {d : κ} {man man' : Ioman κ}
  {node node' : CommNode κ} {chan chan' : Channel κ} {f : Frame}

/-- What the reader of a channel looks at between two frames. -/
def Channel.standing (chan : Channel κ) : ChannelStatus × Option MsgBuff × ℕ :=
  (chan.state, chan.currBuff, chan.headerOff)

theorem iomanSendMsg_standing {kind : MsgKind} {dstId : ℤ} {body : List Byte}
    (h : iomanSendMsg bo man kind dstId body = Except.ok man') :
    man'.nodeId = man.nodeId ∧
      man'.view Channel.standing d = man.view Channel.standing d := by
  obtain ⟨x, _, h⟩ := bind_eq_ok.1 h
  cases h
  exact ⟨rfl, Ioman.view_modify (channelSendMsg bo _ body) fun _ => rfl⟩

/-- **Handling a message does not touch the readers of the channels.** -/
theorem commNodeHandleMsg_standing {c : κ} {msgInfo : MsgInfo} {buff : List Byte}
    (h : commNodeHandleMsg bo now node c msgInfo buff = Except.ok node') :
    node'.nodeId = node.nodeId ∧
      node'.man.view Channel.standing d = node.man.view Channel.standing d := by
  cases commNodeHandleMsg_cases h with
  | ping _ hreg hrtt hsend =>
      obtain ⟨_, rfl⟩ := commNodeRttMeasureStart_cases hrtt
      obtain ⟨hid, hview⟩ := @iomanSendMsg_standing κ _ bo d _ _ _ _ _ hsend
      obtain ⟨_, _, _, _, rfl⟩ := iomanRegisterChannel_cases hreg
      refine ⟨hid, hview.trans ?_⟩
      exact Ioman.view_modify (Channel.setPeerId _) fun _ => rfl
  | pong0 _ hrtt hsend =>
      obtain ⟨_, rfl⟩ := commNodeRttMeasureEnd_cases hrtt
      exact iomanSendMsg_standing hsend
  | pong1 _ hrtt hnotify =>
      obtain ⟨_, rfl⟩ := commNodeRttMeasureEnd_cases hrtt
      obtain ⟨_, rfl⟩ := commNodeNotifySuccess_cases hnotify
      exact ⟨rfl, Ioman.view_modify (Channel.setConnectState _) fun _ => rfl⟩
  | rtNew _ hrt =>
      obtain ⟨_, _, _, ⟨_, _, _, _, rfl⟩ | ⟨hfalse, _, _⟩⟩ := commNodeRegisterRt_cases hrt
      · exact ⟨rfl, rfl⟩
      · cases hfalse
  | rtKnown _ hrt =>
      obtain ⟨_, _, _, ⟨hfalse, _⟩ | ⟨_, _, rfl⟩⟩ := commNodeRegisterRt_cases hrt
      · cases hfalse
      · exact ⟨rfl, rfl⟩

/-- The channel `d` has passed the chunk `msg` on: it is at the end of the queue of `next`, or the
channel waits with it for `next`. -/
def PassedOn (man man' : Ioman κ) (d : κ) (msg : MsgBuff) : Prop :=
  ∃ next, man' = man.moveChunk d next msg ∨
    (man' = man.joinWaitQueue d next ∧ man'.view Channel.currBuff d = some (some msg))

omit [DecidableEq κ] in
theorem exists_of_standing {st : ChannelStatus × Option MsgBuff × ℕ}
    (h : man.view Channel.standing d = some st) :
    ∃ chan, man.heap d = some chan ∧ chan.standing = st := by
  unfold Ioman.view at h
  exact Option.map_eq_some_iff.1 h

/-- A channel whose chunk has been moved can read the next header. -/
theorem standing_moveChunk (hchan : man.heap d = some chan) (next : κ) (msg : MsgBuff) :
    (man.moveChunk d next msg).view Channel.standing d =
      some (ChannelStatus.active, none, chan.headerOff) := by
  have h₁ : ((man.modify d (Channel.setState ChannelStatus.active)).modify next
      (Channel.appendBuff msg)).view Channel.standing d =
      some (ChannelStatus.active, chan.currBuff, chan.headerOff) := by
    rw [Ioman.view_modify (Channel.appendBuff msg) fun _ => rfl,
      Ioman.view_eq (Ioman.heap_modify_eq hchan)]
    rfl
  obtain ⟨chan₁, hchan₁, hst⟩ := exists_of_standing h₁
  unfold Ioman.moveChunk
  rw [Ioman.view_eq (Ioman.heap_modify_eq hchan₁)]
  simp only [Channel.standing, Prod.mk.injEq] at hst
  simp [Channel.standing, hst.1, hst.2.2]

/-- A channel that waits for another still holds its chunk. -/
theorem standing_joinWaitQueue (hchan : man.heap d = some chan) (next : κ) :
    (man.joinWaitQueue d next).view Channel.standing d =
      some (ChannelStatus.blocking, chan.currBuff, chan.headerOff) := by
  unfold Ioman.joinWaitQueue
  rw [Ioman.view_modify (Channel.appendWaiter d) fun _ => rfl,
    Ioman.view_eq (Ioman.heap_modify_eq hchan)]
  rfl

theorem iomanReadDone_pass (hkind : chan.msgInfo.kind = MsgKind.data.toInt)
    (hdst : chan.msgInfo.dstId ≠ node.nodeId) (hchan : node.man.heap d = some chan)
    {msg : MsgBuff} (hcurr : chan.currBuff = some msg)
    (h : iomanReadDone bo now node d chan msg = Except.ok node') :
    ∃ man', node' = node.setMan man' ∧ PassedOn node.man man' d msg := by
  unfold iomanReadDone at h
  rw [if_pos hkind, if_neg hdst] at h
  obtain ⟨next, _, h⟩ := bind_eq_ok.1 h
  obtain ⟨⟨moved, man'⟩, hpipe, h⟩ := bind_eq_ok.1 h
  obtain ⟨_, _, h⟩ := bind_eq_ok.1 h
  cases h
  obtain ⟨chan₁, buff, _, hchan₁, hbuff, _, ⟨_, _, rfl⟩ | ⟨_, _, rfl⟩⟩ :=
    channelPipelineChunk_cases hpipe
  · obtain rfl : chan₁ = chan := Option.some.inj (hchan₁.symm.trans hchan)
    obtain rfl : buff = msg := Option.some.inj (hbuff.symm.trans hcurr)
    exact ⟨_, rfl, next, Or.inl rfl⟩
  · refine ⟨_, rfl, next, Or.inr ⟨rfl, ?_⟩⟩
    unfold Ioman.joinWaitQueue
    rw [Ioman.view_modify (Channel.appendWaiter d) fun _ => rfl,
      Ioman.view_eq (Ioman.heap_modify_eq hchan), Channel.setState_currBuff, hcurr]

/-- **When a frame has been handled the channel is ready for the next one**, or waits. -/
theorem iomanReadDone_reader (hchan : node.man.heap d = some chan)
    (hdone : f.Done bo node.nodeId chan)
    (h : iomanReadDone bo now node d chan (f.buff bo node.nodeId f.body) = Except.ok node') :
    node'.nodeId = node.nodeId ∧ ∃ chan', node'.man.heap d = some chan' ∧ chan'.headerOff = 0 ∧
      (chan'.state ≠ ChannelStatus.blocking → chan'.currBuff = none) := by
  have hoff := hdone.headerOff
  have hcurr := hdone.currBuff
  have hkind_eq : chan.msgInfo.kind = f.info.kind := by rw [hdone.msgInfo, Frame.seen_kind]
  by_cases hkind : chan.msgInfo.kind = MsgKind.data.toInt
  · rw [if_pos (hkind_eq ▸ hkind)] at hcurr
    by_cases hdst : chan.msgInfo.dstId = node.nodeId
    · -- the chunk is for this node
      unfold iomanReadDone at h
      rw [if_pos hkind, if_pos hdst] at h
      obtain ⟨node₁, hchunk, h⟩ := bind_eq_ok.1 h
      obtain ⟨_, _, h⟩ := bind_eq_ok.1 h
      cases h
      obtain rfl := commNodeHandleChunk_cases hchunk
      exact ⟨rfl, _, Ioman.heap_modify_eq hchan, hoff, fun _ => rfl⟩
    · obtain ⟨man', rfl, next, rfl | ⟨rfl, _⟩⟩ := iomanReadDone_pass hkind hdst hchan hcurr h
      · obtain ⟨chan', hchan', hst⟩ := exists_of_standing
          (standing_moveChunk hchan next (f.buff bo node.nodeId f.body))
        simp only [Channel.standing, Prod.mk.injEq] at hst
        exact ⟨rfl, chan', hchan', hst.2.2.trans hoff, fun _ => hst.2.1⟩
      · obtain ⟨chan', hchan', hst⟩ := exists_of_standing (standing_joinWaitQueue hchan next)
        simp only [Channel.standing, Prod.mk.injEq] at hst
        exact ⟨rfl, chan', hchan', hst.2.2.trans hoff, fun hne => absurd hst.1 hne⟩
  · -- a message has left its buffer
    rw [if_neg (hkind_eq ▸ hkind)] at hcurr
    unfold iomanReadDone at h
    rw [if_neg hkind] at h
    obtain ⟨_, _, h⟩ := bind_eq_ok.1 h
    obtain ⟨hid, hview⟩ := commNodeHandleMsg_standing h
    obtain ⟨chan', hchan', hst⟩ := exists_of_standing (hview.trans (Ioman.view_eq hchan))
    simp only [Channel.standing, Prod.mk.injEq] at hst
    exact ⟨hid, chan', hchan', hst.2.2.trans hoff, fun _ => hst.2.1.trans hcurr⟩

end Handle

/-! ### Reading the stream -/

section Stream

variable {κ : Type} {bo : ByteOrder} {nodeId : ℤ} {chan chan' : Channel κ} {f : Frame}
  {pending : List Frame} {r bytes left : List Byte}

/-- The bytes that have been taken of `bytes` when `left` is left of them. -/
def takenOf (bytes left : List Byte) : List Byte := bytes.take (bytes.length - left.length)

theorem takenOf_self : takenOf bytes bytes = [] := by
  simp [takenOf]

/-- Bytes that are not left have been read. -/
theorem takenOf_append {r' : List Byte} (h : r ++ bytes = r' ++ left)
    (hle : left.length ≤ bytes.length) :
    takenOf bytes left ++ left = bytes ∧ r' = r ++ takenOf bytes left := by
  have hlen := congrArg List.length h
  rw [List.length_append, List.length_append] at hlen
  have hr' : r' = r ++ takenOf bytes left := by
    have htake := congrArg (List.take r'.length) h
    rw [List.take_left, List.take_append, List.take_of_length_le (show r.length ≤ r'.length by omega),
      show r'.length - r.length = bytes.length - left.length by omega] at htake
    exact htake.symm
  rw [hr', List.append_assoc, List.append_cancel_left_eq] at h
  exact ⟨h.symm, hr'⟩

/-- Between two frames a read of no bytes waits. -/
theorem iomanReadFrame_nil (bursts : List (List Byte)) (hcurr : chan.currBuff = none)
    (hoff : chan.headerOff = 0) (hnil : bursts.flatten = []) :
    ∃ bursts', bursts'.flatten = [] ∧ iomanReadFrame bo nodeId chan (dataScript bursts) =
      Except.ok (ChannelReadStatus.eagain, none, chan, dataScript bursts') := by
  obtain ⟨bursts', ⟨hrecv, hflat⟩ | ⟨bytes, hne, _, _, hflat⟩⟩ :=
    sockTryRecvN_data bursts (show 0 < channelMsgHeaderlen - chan.headerOff by rw [hoff]; decide)
  · refine ⟨bursts', hflat.symm.trans hnil, ?_⟩
    unfold iomanReadFrame channelReadHeader
    rw [if_pos (by rw [hcurr]; rfl), hrecv]
    rfl
  · rw [hnil] at hflat
    exact absurd (List.append_eq_nil_iff.1 hflat.symm).1 hne

/-- What a read does that has `r` of the pending frames and is given the bytes `bursts`: there are
none, or it takes a part of the first frame, or all of it. -/
inductive TakePending (bo : ByteOrder) (nodeId : ℤ) (chan : Channel κ) (r : List Byte)
    (bursts : List (List Byte)) : List Frame →
    Except Abort (ChannelReadStatus × Option MsgBuff × Channel κ × List RecvEvent) → Prop
  | none {bursts' : List (List Byte)} (hcurr : chan.currBuff = none) (hoff : chan.headerOff = 0)
      (hr : r = []) (hnil : bursts.flatten = []) (hnil' : bursts'.flatten = []) :
      TakePending bo nodeId chan r bursts []
        (Except.ok (ChannelReadStatus.eagain, Option.none, chan, dataScript bursts'))
  | first {f : Frame} {fs : List Frame}
      {res : Except Abort (ChannelReadStatus × Option MsgBuff × Channel κ × List RecvEvent)}
      (hreading : Reading bo nodeId chan f r) (h : TakeFrame bo nodeId chan f r bursts res) :
      TakePending bo nodeId chan r bursts (f :: fs) res

/-- **A read of the pending frames takes a part of the first one, or all of it.** -/
theorem Reader.takePending (h : Reader bo nodeId chan pending r) (bursts : List (List Byte))
    (hstate : chan.state ≠ ChannelStatus.blocking) (hok : ∀ f ∈ pending, f.Ok)
    {more : List Byte} (hbytes : r ++ bursts.flatten ++ more = encodeAll bo pending) :
    TakePending bo nodeId chan r bursts pending
      (iomanReadFrame bo nodeId chan (dataScript bursts)) := by
  cases pending with
  | nil =>
      rw [encodeAll_nil, List.append_eq_nil_iff, List.append_eq_nil_iff] at hbytes
      cases h with
      | idle _ hcurr hoff =>
          obtain ⟨bursts', hnil', hread⟩ := @iomanReadFrame_nil κ bo nodeId chan bursts hcurr hoff
            hbytes.1.2
          rw [hread]
          exact TakePending.none hcurr hoff rfl hbytes.1.2 hnil'
      | held hblocking _ => exact absurd hblocking hstate
  | cons f fs =>
      have hreading := h.reading_of_active hstate
      exact TakePending.first hreading (iomanReadFrame_data (hok f List.mem_cons_self) bursts
        hreading hbytes)

end Stream

/-! ### The two ends of a channel -/

section Run

variable {κ : Type} [DecidableEq κ] {bo : ByteOrder} {c d : κ} {nodeId : ℤ} {f : Frame}

/-- A sender and a receiver.  `wire` are the bytes in the socket; `sent` and `taken` are all bytes
that went into it and came out of it, `queued` the frames that were queued, and `handled` the
messages that were handed on. -/
structure FramingState (κ : Type) where
  sender : Ioman κ
  receiver : CommNode κ
  wire : List Byte
  sent : List Byte
  taken : List Byte
  queued : List Frame
  handled : List (MsgInfo × MsgBuff)

/-- What happens to a channel while it is not read: its reader stands where it stood, or a chunk
that it held has been moved. -/
inductive ReaderStep (chan chan' : Channel κ) : Prop
  | keep (hstate : chan'.state = ChannelStatus.blocking ↔ chan.state = ChannelStatus.blocking)
      (hcurr : chan'.currBuff = chan.currBuff) (hoff : chan'.headerOff = chan.headerOff)
      (hbuff : chan'.headerBuff = chan.headerBuff) (hinfo : chan'.msgInfo = chan.msgInfo)
  | release (hstate : chan.state = ChannelStatus.blocking)
      (hactive : chan'.state = ChannelStatus.active) (hcurr : chan'.currBuff = none)
      (hoff : chan'.headerOff = chan.headerOff)

/-- One step of the sender on its channel `c`, of the receiver on its channel `d`, or of either on
something else.  A message is queued by `channel_send_msg` and a chunk by `channel_pipeline_chunk`;
a write also queues the chunks `fs` of the channels that it releases. -/
inductive FramingStep (bo : ByteOrder) (c d : κ) (st : FramingState κ) : FramingState κ → Prop
  | sendMsg {f : Frame} (hok : f.Ok) :
      FramingStep bo c d st { st with
        sender := st.sender.modify c (channelSendMsg bo f.info f.body)
        queued := st.queued ++ [f] }
  | pipeline {f : Frame} {buff : MsgBuff} (hok : f.Ok) (hbuff : buff.unsent = f.encode bo) :
      FramingStep bo c d st { st with
        sender := st.sender.modify c (Channel.appendBuff buff)
        queued := st.queued ++ [f] }
  | write {script : List SendEvent} {r : ChannelWrite κ} {fs : List Frame}
      (hnodup : (st.sender.waitQueue c).Nodup)
      (hheld : List.Forall₂ (Holding bo st.sender) (st.sender.waitQueue c) fs)
      (hwrite : channelWrite st.sender c script = Except.ok r) :
      FramingStep bo c d st { st with
        sender := r.man
        wire := st.wire ++ r.sent
        sent := st.sent ++ r.sent
        queued := st.queued ++ fs.take (fs.length - (r.man.waitQueue c).length) }
  | read {chan : Channel κ} {now : ℚ} {bursts : List (List Byte)} {rest : List Byte} {alive : Bool}
      {node' : CommNode κ} {script : List RecvEvent} (hchan : st.receiver.man.heap d = some chan)
      (hready : channelIsReadable chan) (hwire : st.wire = bursts.flatten ++ rest)
      (hread : iomanProcessChannelRead bo now st.receiver d (dataScript bursts) =
        Except.ok (alive, node', script)) :
      FramingStep bo c d st { st with
        receiver := node'
        wire := recvBytes script ++ rest
        taken := st.taken ++ takenOf bursts.flatten (recvBytes script)
        handled := st.handled ++ (iomanMessage bo st.receiver d (dataScript bursts)).toList }
  | sender {man : Ioman κ}
      (hqueue : man.view Channel.buffQueue c = st.sender.view Channel.buffQueue c) :
      FramingStep bo c d st { st with sender := man }
  | receiver {node' : CommNode κ} (hid : node'.nodeId = st.receiver.nodeId)
      (hchan : ∀ chan, st.receiver.man.heap d = some chan →
        ∃ chan', node'.man.heap d = some chan' ∧ ReaderStep chan chan') :
      FramingStep bo c d st { st with receiver := node' }

/-- Nothing has been queued, and the reader waits for a header. -/
structure FramingStart (c d : κ) (st : FramingState κ) : Prop where
  sender : st.sender.view Channel.buffQueue c = some []
  receiver : ∃ chan, st.receiver.man.heap d = some chan ∧ chan.state ≠ ChannelStatus.blocking ∧
    chan.currBuff = none ∧ chan.headerOff = 0
  bytes : st.wire = [] ∧ st.sent = [] ∧ st.taken = []
  frames : st.queued = [] ∧ st.handled = []

/-- What is handed on for a frame: its kind, its addresses and its lengths, and its body, or all of
its bytes when the node passes it on. -/
structure Received (bo : ByteOrder) (nodeId : ℤ) (f : Frame) (m : MsgInfo × MsgBuff) : Prop where
  kind : m.1.kind = f.info.kind
  dstId : m.1.dstId = f.info.dstId
  srcId : m.1.srcId = f.info.srcId
  len : m.1.len = f.info.len
  totLen : m.1.totLen = f.info.totLen
  seq : m.1.seq = f.info.seq
  remain : m.1.remain = 0
  bytes : m.2.unsent =
    if f.info.kind = MsgKind.data.toInt ∧ f.info.dstId ≠ nodeId then f.encode bo else f.body

theorem Frame.unsent_buff : (f.buff bo nodeId f.body).unsent =
    if f.info.kind = MsgKind.data.toInt ∧ f.info.dstId ≠ nodeId then f.encode bo else f.body := by
  by_cases hpass : f.info.kind = MsgKind.data.toInt ∧ f.info.dstId ≠ nodeId
  · rw [if_pos hpass, Frame.unsent_buff_of_pass hpass.1 hpass.2]
  · rw [if_neg hpass]
    simp [MsgBuff.unsent, Frame.buff, Frame.start, hpass]

omit [DecidableEq κ] in
/-- **A frame that has been read is handed on as it was sent.** -/
theorem Frame.Done.received {chan : Channel κ} (h : f.Done bo nodeId chan) (hok : f.Ok) :
    Received bo nodeId f (chan.msgInfo, f.buff bo nodeId f.body) := by
  have hinfo := h.msgInfo
  refine ⟨?_, ?_, ?_, ?_, ?_, ?_, ?_, Frame.unsent_buff⟩
  all_goals dsimp only; rw [hinfo]
  · rfl
  · rfl
  · rfl
  · rfl
  · rfl
  · rfl
  · simp [Frame.seen, hok.len]

/-- The invariant: the socket holds the bytes that were sent and not taken, the queue those that are
still to be sent, and the receiver has handed on the first frames and read `r` of the others. -/
structure FramingInv (bo : ByteOrder) (c d : κ) (st : FramingState κ) : Prop where
  ok : ∀ f ∈ st.queued, f.Ok
  socket : st.taken ++ st.wire = st.sent
  sender : ∃ queue, st.sender.view Channel.buffQueue c = some queue ∧
    st.sent ++ queuedBytes queue = encodeAll bo st.queued
  receiver : ∃ chan done pending r, st.receiver.man.heap d = some chan ∧
    st.queued = done ++ pending ∧
    List.Forall₂ (Received bo st.receiver.nodeId) done st.handled ∧
    Reader bo st.receiver.nodeId chan pending r ∧ st.taken = encodeAll bo done ++ r

/-! ### What a step keeps -/

variable {st st' st₀ : FramingState κ}

omit [DecidableEq κ] in
/-- Frames may be queued behind those that the reader is at. -/
theorem Reader.append {chan : Channel κ} {pending : List Frame} {r : List Byte}
    (h : Reader bo nodeId chan pending r) (fs : List Frame) :
    Reader bo nodeId chan (pending ++ fs) r := by
  cases h with
  | idle hstate hcurr hoff => exact Reader.idle hstate hcurr hoff
  | reading hstate h => exact Reader.reading hstate h
  | held hstate hoff => exact Reader.held hstate hoff

omit [DecidableEq κ] in
/-- The reader goes on where it stood. -/
theorem Reader.step {chan chan' : Channel κ} {pending : List Frame} {r : List Byte}
    (h : Reader bo nodeId chan pending r) (hstep : ReaderStep chan chan') :
    Reader bo nodeId chan' pending r := by
  cases hstep with
  | keep hstate hcurr hoff hbuff hinfo => exact h.congr hstate hcurr hoff hbuff hinfo
  | release hstate hactive hcurr hoff =>
      have hne : chan'.state ≠ ChannelStatus.blocking := by
        rw [hactive]
        nofun
      cases h with
      | idle hs _ _ => exact absurd hstate hs
      | reading hs _ => exact absurd hstate hs
      | held _ ho => exact Reader.idle hne hcurr (hoff.trans ho)

namespace FramingInv

omit [DecidableEq κ] in
/-- Frames are queued, and bytes are sent. -/
theorem queue (h : FramingInv bo c d st) {man : Ioman κ} {queue queue' : List MsgBuff}
    {bytes : List Byte} {fs : List Frame} (hqueue : st.sender.view Channel.buffQueue c = some queue)
    (hqueue' : man.view Channel.buffQueue c = some queue') (hok : ∀ f ∈ fs, f.Ok)
    (hstream : bytes ++ queuedBytes queue' = queuedBytes queue ++ encodeAll bo fs) :
    FramingInv bo c d { st with
      sender := man
      wire := st.wire ++ bytes
      sent := st.sent ++ bytes
      queued := st.queued ++ fs } := by
  obtain ⟨queue₁, hqueue₁, hsent⟩ := h.sender
  obtain rfl : queue₁ = queue := Option.some.inj (hqueue₁.symm.trans hqueue)
  obtain ⟨chan, done, pending, r, hchan, hqueued, hreceived, hreader, htaken⟩ := h.receiver
  refine ⟨fun f hf => ?_, ?_, ⟨queue', hqueue', ?_⟩, ⟨chan, done, pending ++ fs, r, hchan, ?_,
    hreceived, hreader.append fs, htaken⟩⟩
  · exact (List.mem_append.1 hf).elim (h.ok f) (hok f)
  · dsimp only
    rw [← List.append_assoc, h.socket]
  · dsimp only
    rw [List.append_assoc, hstream, ← List.append_assoc, hsent, encodeAll_append]
  · dsimp only
    rw [hqueued, List.append_assoc]

/-- A buffer with the bytes of a frame is queued. -/
theorem append (h : FramingInv bo c d st) {buff : MsgBuff} (hok : f.Ok)
    (hbuff : buff.unsent = f.encode bo) :
    FramingInv bo c d { st with
      sender := st.sender.modify c (Channel.appendBuff buff)
      queued := st.queued ++ [f] } := by
  obtain ⟨queue, hqueue, _⟩ := h.sender
  have hqueue' : (st.sender.modify c (Channel.appendBuff buff)).view Channel.buffQueue c =
      some (queue ++ [buff]) := by
    obtain ⟨chan, hchan, rfl⟩ := Option.map_eq_some_iff.1 hqueue
    exact Ioman.view_eq (Ioman.heap_modify_eq hchan)
  have := @FramingInv.queue κ bo c d st h _ queue (queue ++ [buff]) [] [f] hqueue hqueue'
    (fun g hg => by rw [List.mem_singleton.1 hg]; exact hok) (by simp [queuedBytes, hbuff])
  rwa [List.append_nil, List.append_nil] at this

omit [DecidableEq κ] in
/-- The bytes of the pending frames are with the reader, in the socket and in the queue. -/
theorem pendingBytes (h : FramingInv bo c d st) : ∃ chan done pending r queue,
    st.receiver.man.heap d = some chan ∧ st.queued = done ++ pending ∧
    List.Forall₂ (Received bo st.receiver.nodeId) done st.handled ∧
    Reader bo st.receiver.nodeId chan pending r ∧ st.taken = encodeAll bo done ++ r ∧
    (∀ f ∈ pending, f.Ok) ∧ r ++ st.wire ++ queuedBytes queue = encodeAll bo pending := by
  obtain ⟨queue, _, hsent⟩ := h.sender
  obtain ⟨chan, done, pending, r, hchan, hqueued, hreceived, hreader, htaken⟩ := h.receiver
  refine ⟨chan, done, pending, r, queue, hchan, hqueued, hreceived, hreader, htaken, ?_, ?_⟩
  · intro f hf
    exact h.ok f (by rw [hqueued]; exact List.mem_append_right _ hf)
  · rw [← h.socket, htaken, hqueued, encodeAll_append, List.append_assoc, List.append_assoc,
      List.append_cancel_left_eq] at hsent
    rw [List.append_assoc, hsent]

/-- **A read takes bytes and keeps the stream.** -/
theorem read (h : FramingInv bo c d st) {chan : Channel κ} {now : ℚ} {bursts : List (List Byte)}
    {rest : List Byte} {alive : Bool} {node' : CommNode κ} {script : List RecvEvent}
    (hchan : st.receiver.man.heap d = some chan) (hready : channelIsReadable chan)
    (hwire : st.wire = bursts.flatten ++ rest)
    (hread : iomanProcessChannelRead bo now st.receiver d (dataScript bursts) =
      Except.ok (alive, node', script)) :
    FramingInv bo c d { st with
      receiver := node'
      wire := recvBytes script ++ rest
      taken := st.taken ++ takenOf bursts.flatten (recvBytes script)
      handled := st.handled ++ (iomanMessage bo st.receiver d (dataScript bursts)).toList } := by
  obtain ⟨chan₁, done, pending, r, queue, hchan₁, hqueued, hreceived, hreader, htaken, hok, hbytes⟩ :=
    h.pendingBytes
  obtain rfl : chan₁ = chan := Option.some.inj (hchan₁.symm.trans hchan)
  have hstate : chan₁.state ≠ ChannelStatus.blocking := by
    rw [show chan₁.state = ChannelStatus.active from of_decide_eq_true hready]
    nofun
  have hframe : r ++ bursts.flatten ++ (rest ++ queuedBytes queue) = encodeAll bo pending := by
    rw [← hbytes, hwire]
    simp only [List.append_assoc]
  have htake : TakePending bo st.receiver.nodeId chan₁ r bursts pending
      (iomanReadFrame bo st.receiver.nodeId chan₁ (dataScript bursts)) :=
    hreader.takePending bursts hstate hok hframe
  have hmain : takenOf bursts.flatten (recvBytes script) ++ recvBytes script = bursts.flatten ∧
      ∃ chan done' pending' r', node'.man.heap d = some chan ∧ st.queued = done' ++ pending' ∧
        List.Forall₂ (Received bo node'.nodeId) done'
          (st.handled ++ (iomanMessage bo st.receiver d (dataScript bursts)).toList) ∧
        Reader bo node'.nodeId chan pending' r' ∧
        st.taken ++ takenOf bursts.flatten (recvBytes script) = encodeAll bo done' ++ r' := by
    rw [iomanProcessChannelRead_eq (dataScript bursts) hchan] at hread
    unfold iomanMessage
    simp only [hchan]
    generalize hres : iomanReadFrame bo st.receiver.nodeId chan₁ (dataScript bursts) = res
      at htake hread ⊢
    have hput : ∀ chan' : Channel κ, (st.receiver.setMan (st.receiver.man.put d chan')).man.heap d =
        some chan' := by
      intro chan'
      simp [CommNode.setMan, Ioman.put]
    cases htake with
    | none hcurr hoff hr hnil hnil' =>
        cases hread
        rw [recvBytes_dataScript, hnil, hnil', takenOf_self]
        refine ⟨rfl, chan₁, done, [], r, hput _, hqueued, ?_, hreader, ?_⟩
        · rw [Option.toList_none, List.append_nil]
          exact hreceived
        · rw [List.append_nil, htaken]
    | @first f fs _ hreading hf =>
        have hle : ∀ {stat : ChannelReadStatus} {msg : Option MsgBuff} {chan' : Channel κ}
            {bursts' : List (List Byte)}, res = Except.ok (stat, msg, chan', dataScript bursts') →
            bursts'.flatten.length ≤ bursts.flatten.length := by
          intro stat msg chan' bursts' he
          have := iomanReadFrame_le (hres.trans he)
          rwa [recvBytes_dataScript, recvBytes_dataScript] at this
        cases hf with
        | @part stat chan' r' bursts' hstat hreads hreading' hb =>
            cases hread
            obtain ⟨hsplit, hr'⟩ := takenOf_append hb (hle rfl)
            rw [recvBytes_dataScript]
            refine ⟨hsplit, chan', done, f :: fs, r', hput _, hqueued, ?_, ?_, ?_⟩
            · rw [Option.toList_none, List.append_nil]
              exact hreceived
            · exact Reader.reading (by rw [hreads.state]; exact hstate) hreading'
            · rw [htaken, hr', List.append_assoc]
        | @full stat chan' bursts' _ hreads hdone hb =>
            rw [ok_bind, iomanHandleRead] at hread
            obtain ⟨node₁, hhandle, hread⟩ := bind_eq_ok.1 hread
            cases hread
            obtain ⟨hsplit, hencode⟩ := takenOf_append hb (hle rfl)
            obtain ⟨hid, chan'', hchan'', hoff, hcurr⟩ :=
              iomanReadDone_reader (hput chan') hdone hhandle
            have hid : node'.nodeId = st.receiver.nodeId := hid
            have hf := hok f List.mem_cons_self
            rw [recvBytes_dataScript]
            refine ⟨hsplit, chan'', done ++ [f], fs, [], hchan'', ?_, ?_, ?_, ?_⟩
            · rw [hqueued, List.append_assoc]
              rfl
            · rw [hid]
              exact List.rel_append hreceived (List.Forall₂.cons (hdone.received hf)
                List.Forall₂.nil)
            · by_cases hblock : chan''.state = ChannelStatus.blocking
              · exact Reader.held hblock hoff
              · exact Reader.idle hblock (hcurr hblock) hoff
            · rw [htaken, encodeAll_append, encodeAll_cons, hencode]
              simp only [encodeAll_nil, List.append_nil, List.append_assoc]
  obtain ⟨hsplit, hreceiver⟩ := hmain
  refine ⟨h.ok, ?_, h.sender, hreceiver⟩
  dsimp only
  rw [List.append_assoc, ← List.append_assoc _ _ rest, hsplit, ← hwire, h.socket]

end FramingInv

/-- **A step keeps the invariant.** -/
theorem FramingStep.inv (h : FramingStep bo c d st st') (hinv : FramingInv bo c d st) :
    FramingInv bo c d st' := by
  cases h with
  | @sendMsg f hok => exact hinv.append hok (unsent_channelPackBuff bo f.info f.body)
  | pipeline hok hbuff => exact hinv.append hok hbuff
  | @write script r fs hnodup hheld hwrite =>
      obtain ⟨queue, hqueue, _⟩ := hinv.sender
      obtain ⟨chan, hchan, rfl⟩ := Option.map_eq_some_iff.1 hqueue
      obtain ⟨chan', k, hchan', hk, hlen, hstream⟩ :=
        (channelWrite_run hwrite).stream hchan hnodup hheld
      have hfs : ∀ f ∈ fs.take k, f.Ok := by
        intro f hf
        obtain ⟨i, hi, rfl⟩ := List.getElem_of_mem (List.mem_of_mem_take hf)
        exact (hheld.get (hheld.length_eq.symm ▸ hi) hi).1
      rw [hlen, Nat.sub_sub_self hk]
      exact hinv.queue (Ioman.view_eq hchan) (Ioman.view_eq hchan') hfs hstream
  | read hchan hready hwire hread => exact hinv.read hchan hready hwire hread
  | sender hqueue =>
      obtain ⟨queue, hold, hsent⟩ := hinv.sender
      exact ⟨hinv.ok, hinv.socket, ⟨queue, hqueue.trans hold, hsent⟩, hinv.receiver⟩
  | receiver hid hkept =>
      obtain ⟨chan, done, pending, r, hchan, hqueued, hreceived, hreader, htaken⟩ := hinv.receiver
      obtain ⟨chan', hchan', hstep⟩ := hkept chan hchan
      refine ⟨hinv.ok, hinv.socket, hinv.sender, chan', done, pending, r, hchan', hqueued, ?_, ?_,
        htaken⟩
      · rw [hid]
        exact hreceived
      · rw [hid]
        exact hreader.step hstep

omit [DecidableEq κ] in
theorem FramingStart.inv (h : FramingStart c d st) : FramingInv bo c d st := by
  obtain ⟨hwire, hsent, htaken⟩ := h.bytes
  obtain ⟨hqueued, hhandled⟩ := h.frames
  obtain ⟨chan, hchan, hstate, hcurr, hoff⟩ := h.receiver
  refine ⟨?_, ?_, ⟨[], h.sender, ?_⟩, ⟨chan, [], [], [], hchan, hqueued, ?_, ?_, htaken⟩⟩
  · rw [hqueued]
    nofun
  · rw [hwire, htaken, hsent]
    rfl
  · rw [hsent, hqueued]
    rfl
  · rw [hhandled]
    exact List.Forall₂.nil
  · exact Reader.idle hstate hcurr hoff

/-! ### What holds of every run -/

omit [DecidableEq κ] in
/-- A reader has less than the bytes of the next frame. -/
theorem Reader.short {chan : Channel κ} {pending : List Frame} {r : List Byte}
    (h : Reader bo nodeId chan pending r) :
    r = [] ∨ ∃ f fs, pending = f :: fs ∧ r.length < (f.encode bo).length := by
  cases h with
  | idle _ _ _ => exact Or.inl rfl
  | @reading f fs _ _ h => exact Or.inr ⟨f, fs, rfl, h.ne_encode⟩
  | held _ _ => exact Or.inl rfl

/-- What the two ends of a channel have done with the bytes and the frames: the receiver takes the
bytes in the order in which they were sent, these are the bytes of the queued frames, and every
frame all of whose bytes were taken has been handed on as it was queued.  A readable channel reads
on, and a chunk for another node is passed on with all its bytes. -/
structure Framed (bo : ByteOrder) (c d : κ) (st : FramingState κ) : Prop where
  stream : st.taken ++ st.wire = st.sent
  queue : ∃ queue, st.sender.view Channel.buffQueue c = some queue ∧
    st.sent ++ queuedBytes queue = encodeAll bo st.queued
  messages : ∃ done pending r, st.queued = done ++ pending ∧
    List.Forall₂ (Received bo st.receiver.nodeId) done st.handled ∧
    st.taken = encodeAll bo done ++ r ∧
    (r = [] ∨ ∃ f fs, pending = f :: fs ∧ r.length < (f.encode bo).length)
  complete : st.taken = encodeAll bo st.queued →
    List.Forall₂ (Received bo st.receiver.nodeId) st.queued st.handled
  reads : ∀ (chan : Channel κ) (bursts : List (List Byte)) (rest : List Byte),
    st.receiver.man.heap d = some chan → channelIsReadable chan → st.wire = bursts.flatten ++ rest →
    ∃ stat msg chan' script, iomanReadFrame bo st.receiver.nodeId chan (dataScript bursts) =
        Except.ok (stat, msg, chan', script) ∧ stat ≠ ChannelReadStatus.err ∧
      takenOf bursts.flatten (recvBytes script) ++ recvBytes script = bursts.flatten ∧
      (Fed (dataScript bursts) → takenOf bursts.flatten (recvBytes script) ≠ [])
  forwards : ∀ (chan : Channel κ) (now : ℚ) (bursts : List (List Byte)) (rest : List Byte)
    (alive : Bool) (node' : CommNode κ) (script : List RecvEvent) (m : MsgInfo × MsgBuff),
    st.receiver.man.heap d = some chan → channelIsReadable chan → st.wire = bursts.flatten ++ rest →
    iomanProcessChannelRead bo now st.receiver d (dataScript bursts) =
      Except.ok (alive, node', script) →
    iomanMessage bo st.receiver d (dataScript bursts) = some m →
    m.1.kind = MsgKind.data.toInt → m.1.dstId ≠ st.receiver.nodeId →
    ∃ f ∈ st.queued, m.2.unsent = f.encode bo ∧
      ∃ chan', PassedOn (st.receiver.man.put d chan') node'.man d m.2

namespace FramingInv

omit [DecidableEq κ] in
/-- A read of a readable channel that is given bytes of the socket. -/
theorem takePending (h : FramingInv bo c d st) {chan : Channel κ} {bursts : List (List Byte)}
    {rest : List Byte} (hchan : st.receiver.man.heap d = some chan) (hready : channelIsReadable chan)
    (hwire : st.wire = bursts.flatten ++ rest) : ∃ r pending, (∀ f ∈ pending, f ∈ st.queued) ∧
      TakePending bo st.receiver.nodeId chan r bursts pending
        (iomanReadFrame bo st.receiver.nodeId chan (dataScript bursts)) := by
  obtain ⟨chan₁, done, pending, r, queue, hchan₁, hqueued, _, hreader, _, hok, hbytes⟩ :=
    h.pendingBytes
  obtain rfl : chan₁ = chan := Option.some.inj (hchan₁.symm.trans hchan)
  refine ⟨r, pending, fun f hf => ?_, ?_⟩
  · rw [hqueued]
    exact List.mem_append_right _ hf
  · have hframe : r ++ bursts.flatten ++ (rest ++ queuedBytes queue) = encodeAll bo pending := by
      rw [← hbytes, hwire]
      simp only [List.append_assoc]
    refine hreader.takePending bursts ?_ hok hframe
    rw [show chan₁.state = ChannelStatus.active from of_decide_eq_true hready]
    nofun

/-- **What the invariant says of a run.** -/
theorem framed (h : FramingInv bo c d st) : Framed bo c d st := by
  obtain ⟨_, done, pending, r, _, hqueued, hreceived, hreader, htaken⟩ := h.receiver
  refine ⟨h.socket, h.sender, ⟨done, pending, r, hqueued, hreceived, htaken, hreader.short⟩, ?_, ?_,
    ?_⟩
  · intro hall
    rw [htaken, hqueued, encodeAll_append, List.append_cancel_left_eq] at hall
    cases pending with
    | nil =>
        rw [hqueued, List.append_nil]
        exact hreceived
    | cons f fs =>
        -- a frame is pending, and the reader does not have all its bytes
        rw [encodeAll_cons] at hall
        have hlen := congrArg List.length hall
        have hne := List.length_pos_iff.2 (@Frame.encode_ne_nil bo f)
        rw [List.length_append] at hlen
        rcases hreader.short with rfl | ⟨g, gs, hcons, hlt⟩
        · rw [List.length_nil] at hlen
          omega
        · cases hcons
          omega
  · intro chan bursts rest hchan hready hwire
    obtain ⟨r, pending, hpending, htake⟩ := h.takePending hchan hready hwire
    generalize hres : iomanReadFrame bo st.receiver.nodeId chan (dataScript bursts) = res at htake ⊢
    cases htake with
    | none _ _ _ hnil hnil' =>
        refine ⟨_, _, _, _, rfl, nofun, ?_, ?_⟩
        · rw [recvBytes_dataScript, hnil, hnil', takenOf_self]
          rfl
        · rintro ⟨b, bs, script, hscript⟩
          have := congrArg recvBytes hscript
          rw [recvBytes_dataScript, hnil] at this
          cases this
    | @first f fs _ hreading hf =>
        have hok : f.Ok := h.ok f (hpending f List.mem_cons_self)
        have hmain : ∀ {stat : ChannelReadStatus} {msg : Option MsgBuff} {chan' : Channel κ}
            {bursts' : List (List Byte)} {x : List Byte},
            res = Except.ok (stat, msg, chan', dataScript bursts') →
            r ++ bursts.flatten = x ++ bursts'.flatten →
            takenOf bursts.flatten bursts'.flatten ++ bursts'.flatten = bursts.flatten ∧
              (Fed (dataScript bursts) → takenOf bursts.flatten bursts'.flatten ≠ []) := by
          intro stat msg chan' bursts' x he hb
          have hle := iomanReadFrame_le (hres.trans he)
          rw [recvBytes_dataScript, recvBytes_dataScript] at hle
          refine ⟨(takenOf_append hb hle).1, fun hfed hnil => ?_⟩
          have hlt := iomanReadFrame_takes hok hreading hfed (hres.trans he)
          rw [recvBytes_dataScript, recvBytes_dataScript] at hlt
          rw [← (takenOf_append hb hle).1, hnil, List.nil_append] at hlt
          omega
        cases hf with
        | part hstat _ _ hb =>
            refine ⟨_, _, _, _, rfl, hstat, ?_⟩
            rw [recvBytes_dataScript]
            exact hmain rfl hb
        | full hstat _ _ hb =>
            refine ⟨_, _, _, _, rfl, hstat, ?_⟩
            rw [recvBytes_dataScript]
            exact hmain rfl hb
  · intro chan now bursts rest alive node' script m hchan hready hwire hread hmsg hkind hdst
    obtain ⟨r, pending, hpending, htake⟩ := h.takePending hchan hready hwire
    rw [iomanProcessChannelRead_eq (dataScript bursts) hchan] at hread
    unfold iomanMessage at hmsg
    simp only [hchan] at hmsg
    generalize iomanReadFrame bo st.receiver.nodeId chan (dataScript bursts) = res
      at htake hread hmsg
    cases htake with
    | none _ _ _ _ _ => cases hmsg
    | @first f fs _ _ hf =>
        cases hf with
        | part _ _ _ _ => cases hmsg
        | @full stat chan' bursts' _ _ hdone _ =>
            cases hmsg
            dsimp only at hkind hdst ⊢
            have hkind' : f.info.kind = MsgKind.data.toInt := by
              rw [← hkind, hdone.msgInfo, Frame.seen_kind]
            have hdst' : f.info.dstId ≠ st.receiver.nodeId := by
              rw [hdone.msgInfo, Frame.seen_dstId] at hdst
              exact hdst
            have hcurr := hdone.currBuff
            rw [if_pos hkind'] at hcurr
            rw [ok_bind, iomanHandleRead] at hread
            obtain ⟨node₁, hhandle, hread⟩ := bind_eq_ok.1 hread
            cases hread
            have hput : (st.receiver.setMan (st.receiver.man.put d chan')).man.heap d =
                some chan' := by
              simp [CommNode.setMan, Ioman.put]
            have hdst₁ : chan'.msgInfo.dstId ≠
                (st.receiver.setMan (st.receiver.man.put d chan')).nodeId := hdst
            obtain ⟨man', rfl, hpassed⟩ := iomanReadDone_pass hkind hdst₁ hput hcurr hhandle
            exact ⟨f, hpending f List.mem_cons_self, Frame.unsent_buff_of_pass hkind' hdst', chan',
              hpassed⟩

end FramingInv

/-- **Framing does not depend on fragmentation**: whatever the pieces are in which the bytes are sent
and received, and whatever else the two nodes do in between, the receiver takes the bytes of the
queued frames in order and hands these frames on. -/
theorem framing_independent (hstart : FramingStart c d st₀)
    (hrun : Relation.ReflTransGen (FramingStep bo c d) st₀ st) : Framed bo c d st := by
  have hinv : FramingInv bo c d st := by
    induction hrun with
    | refl => exact hstart.inv
    | tail _ hstep ih => exact hstep.inv ih
  exact hinv.framed

end Run

/-- A chunk of two bytes from node 0 to node 1. -/
def pairFrame : Frame where
  info := { msgInfoCreate with
    kind := MsgKind.data.toInt
    dstId := 1
    srcId := 0
    len := 2
    sid := 1 <<< 20
    totLen := 2
    seq := 0 }
  body := [7, 8]

theorem pairFrame_ok : pairFrame.Ok := by
  refine ⟨?_, rfl, by decide, fun _ => ⟨by decide, by decide⟩⟩
  constructor <;> decide

/-- Two nodes that have just connected; their channels are both called 1. -/
def framingStart : FramingState ℕ where
  sender := iomanAccept (iomanCreate 0 2 0) 1
  receiver := (commNodeCreate 1 0).setMan (iomanAccept (iomanCreate 1 2 0) 1)
  wire := []
  sent := []
  taken := []
  queued := []
  handled := []

/-- A chunk that is sent in two pieces and read in two others, both cut inside its header. -/
theorem framing_independent_pieces : ∃ st₀ st : FramingState ℕ, FramingStart 1 1 st₀ ∧
    Relation.ReflTransGen (FramingStep ByteOrder.little 1 1) st₀ st ∧ st.queued = [pairFrame] ∧
    st.handled.length = 1 ∧ Framed ByteOrder.little 1 1 st := by
  have hstart : FramingStart 1 1 framingStart :=
    ⟨rfl, ⟨_, rfl, nofun, rfl, rfl⟩, ⟨rfl, rfl, rfl⟩, rfl, rfl⟩
  have h₁ : Relation.ReflTransGen (FramingStep ByteOrder.little 1 1) framingStart _ :=
    Relation.ReflTransGen.single (FramingStep.sendMsg pairFrame_ok)
  have h₂ := h₁.tail (FramingStep.write List.nodup_nil List.Forall₂.nil
    (channelWrite_part rfl rfl (show 0 < 30 by decide) (by decide)))
  -- a call of `recv` returns 7 of the 30 bytes
  have h₃ := h₂.tail (@FramingStep.read ℕ _ ByteOrder.little 1 1 _ _ 0
    [(pairFrame.encode ByteOrder.little).take 7,
      ((pairFrame.encode ByteOrder.little).take 30).drop 7] [] _ _ _ rfl rfl rfl rfl)
  have h₄ := h₃.tail (FramingStep.write List.nodup_nil List.Forall₂.nil
    (channelWrite_whole rfl rfl rfl (show _ ≠ [] by decide) (show _ ≤ 100 by decide)))
  have h₅ := h₄.tail (@FramingStep.read ℕ _ ByteOrder.little 1 1 _ _ 0
    [(pairFrame.encode ByteOrder.little).drop 7] [] _ _ _ rfl rfl rfl rfl)
  exact ⟨_, _, hstart, h₅, rfl, rfl, framing_independent hstart h₅⟩

end DLFree
