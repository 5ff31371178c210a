/-
**Frames: what travels over a socket.**

A message or a chunk travels as its packed header, filled up to 100 bytes, and its body.  The reader
gets these bytes in pieces of any size.  This module shows what a read does that is given some of
the bytes of a frame: it takes a part of them and remembers where it stands, or it completes the
frame and handles it.

Main definitions:

* `Frame`, `Frame.encode` — a header with a body, and its bytes;
* `Reading` — a channel that has read some bytes of a frame;
* `Frame.Done` — a channel that has read all bytes of a frame;
* `iomanReadFrame`, `iomanHandleRead` — the two parts of a read;
* `iomanMessage` — the message that a read completes.

Main results:

* `channelReadHeader_data`, `channelReadBody_data` — reading a header and a body in pieces;
* `iomanReadFrame_data`, `iomanProcessChannelRead_data` — **a read takes a part of a frame, or
  completes it**;
* `iomanReadFrame_takes` — a read of a frame under way takes bytes when there are some.
-/

import DLFree.CommOk

set_option relaxedAutoImplicit false
set_option autoImplicit false

namespace DLFree

/-! ### Frames -/

/-- What is sent over a channel at once: a header and a body. -/
structure Frame where
  info : MsgInfo
  body : List Byte
  deriving DecidableEq, Repr

namespace Frame

/-- The bytes of a frame. -/
def encode (bo : ByteOrder) (f : Frame) : List Byte := packHeader bo f.info ++ f.body

/-- The header announces the body, and its numbers fit; a chunk has a body and a valid `sid`. -/
structure Ok (f : Frame) : Prop where
  fits : f.info.Fits
  len : f.info.len = f.body.length
  kind : f.info.kind ≠ MsgKind.err.toInt
  chunk : f.info.kind = MsgKind.data.toInt → f.body ≠ [] ∧ wireUint64 f.info.sid ≠ -1

/-- The header as the reader has it when it has read `got` bytes of the body. -/
def seen (f : Frame) (got : ℕ) : MsgInfo := { f.info.onWire with remain := f.info.len - got }

/-- The buffer of the reader starts with the header when it is that of a chunk to be passed on. -/
def start (bo : ByteOrder) (nodeId : ℤ) (f : Frame) : List Byte :=
  if f.info.kind = MsgKind.data.toInt ∧ f.info.dstId ≠ nodeId then packHeader bo f.info else []

/-- The buffer of the reader when it has read `got` of the body. -/
def buff (bo : ByteOrder) (nodeId : ℤ) (f : Frame) (got : List Byte) : MsgBuff where
  len := (f.start bo nodeId).length + f.body.length
  data := f.start bo nodeId ++ got
  head := 0

variable {bo : ByteOrder} {nodeId : ℤ} {f : Frame}

theorem encode_length : (f.encode bo).length = channelMsgHeaderlen + f.body.length := by
  simp [encode, packHeader_length]

theorem encode_ne_nil : f.encode bo ≠ [] := by
  intro h
  have := congrArg List.length h
  rw [encode_length] at this
  simp [channelMsgHeaderlen] at this

theorem seen_zero : f.seen 0 = f.info.onWire := by
  simp [seen, MsgInfo.onWire]

@[simp] theorem seen_kind (got : ℕ) : (f.seen got).kind = f.info.kind := rfl

@[simp] theorem seen_dstId (got : ℕ) : (f.seen got).dstId = f.info.dstId := rfl

@[simp] theorem seen_srcId (got : ℕ) : (f.seen got).srcId = f.info.srcId := rfl

@[simp] theorem seen_sid (got : ℕ) : (f.seen got).sid = wireUint64 f.info.sid := rfl

theorem start_of_msg (h : f.info.kind ≠ MsgKind.data.toInt) : f.start bo nodeId = [] :=
  if_neg fun hc => h hc.1

theorem start_of_dst (h : f.info.dstId = nodeId) : f.start bo nodeId = [] :=
  if_neg fun hc => hc.2 h

theorem start_of_pass (h : f.info.kind = MsgKind.data.toInt) (hd : f.info.dstId ≠ nodeId) :
    f.start bo nodeId = packHeader bo f.info :=
  if_pos ⟨h, hd⟩

/-- A message has its body in its buffer. -/
theorem unsent_buff_of_msg (h : f.info.kind ≠ MsgKind.data.toInt) :
    (f.buff bo nodeId f.body).unsent = f.body := by
  simp [MsgBuff.unsent, buff, start_of_msg h]

/-- A chunk that is passed on has all its bytes in its buffer. -/
theorem unsent_buff_of_pass (h : f.info.kind = MsgKind.data.toInt) (hd : f.info.dstId ≠ nodeId) :
    (f.buff bo nodeId f.body).unsent = f.encode bo := by
  simp [MsgBuff.unsent, buff, start_of_pass h hd, encode]

end Frame

section Channels

variable {κ : Type}

/-- The channel has read the bytes `r` of the frame `f`: a part of its header, or its header and a
part of its body. -/
inductive Reading (bo : ByteOrder) (nodeId : ℤ) (chan : Channel κ) (f : Frame) : List Byte → Prop
  | header {r : List Byte} (hcurr : chan.currBuff = none) (hoff : chan.headerOff = r.length)
      (hlt : r.length < channelMsgHeaderlen) (htake : chan.headerBuff.take r.length = r) :
      Reading bo nodeId chan f r
  | body {got : List Byte} (hcurr : chan.currBuff = some (f.buff bo nodeId got))
      (hoff : chan.headerOff = 0) (hinfo : chan.msgInfo = f.seen got.length)
      (hlt : got.length < f.body.length) :
      Reading bo nodeId chan f (packHeader bo f.info ++ got)

/-- The channel has read all bytes of the frame `f`; a chunk stays in its buffer. -/
structure Frame.Done (bo : ByteOrder) (nodeId : ℤ) (f : Frame) (chan : Channel κ) : Prop where
  headerOff : chan.headerOff = 0
  msgInfo : chan.msgInfo = f.seen f.body.length
  currBuff : chan.currBuff = if f.info.kind = MsgKind.data.toInt then
    some (f.buff bo nodeId f.body) else none

variable {bo : ByteOrder} {nodeId : ℤ} {chan : Channel κ} {f : Frame} {r more tail : List Byte}

/-! ### Receiving from a socket -/

/-- The script of a socket that delivers these bursts. -/
def dataScript (bursts : List (List Byte)) : List RecvEvent := bursts.map RecvEvent.data

theorem sockTryRecvN_data (bursts : List (List Byte)) {n : ℕ} (hn : 0 < n) :
    ∃ bursts', (sockTryRecvN (dataScript bursts) n = (RecvStatus.eagain, dataScript bursts') ∧
        bursts.flatten = bursts'.flatten) ∨
      ∃ bytes, bytes ≠ [] ∧ bytes.length ≤ n ∧
        sockTryRecvN (dataScript bursts) n = (RecvStatus.ok bytes, dataScript bursts') ∧
        bursts.flatten = bytes ++ bursts'.flatten := by
  cases bursts with
  | nil => exact ⟨[], Or.inl ⟨rfl, rfl⟩⟩
  | cons burst bursts =>
      cases burst with
      | nil => exact ⟨bursts, Or.inl ⟨rfl, rfl⟩⟩
      | cons b bs =>
          by_cases hlen : (b :: bs).length ≤ n
          · refine ⟨bursts, Or.inr ⟨b :: bs, List.cons_ne_nil _ _, hlen, ?_, rfl⟩⟩
            simp only [dataScript, List.map_cons, sockTryRecvN, if_pos hlen]
          · refine ⟨(b :: bs).drop n :: bursts, Or.inr ⟨(b :: bs).take n, ?_, ?_, ?_, ?_⟩⟩
            · simp [Nat.pos_iff_ne_zero.1 hn]
            · exact List.length_take_le _ _
            · simp only [dataScript, List.map_cons, sockTryRecvN, if_neg hlen]
            · rw [List.flatten_cons, List.flatten_cons, ← List.append_assoc, List.take_append_drop]

theorem channelReadToBuff_data (bursts : List (List Byte)) :
    ∀ (buff : MsgBuff) (remain : ℤ) (len : ℕ), (len : ℤ) ≤ remain →
      ∃ got bursts', bursts.flatten = got ++ bursts'.flatten ∧ got.length ≤ len ∧
        channelReadToBuff buff remain len (dataScript bursts) = Except.ok
          ⟨ChannelReadStatus.ok, { buff with data := buff.data ++ got }, remain - got.length,
            len - got.length, dataScript bursts'⟩ := by
  induction bursts with
  | nil =>
      intro buff remain len _
      refine ⟨[], [], rfl, Nat.zero_le _, ?_⟩
      cases len <;> simp [channelReadToBuff, dataScript]
  | cons burst bursts ih =>
      intro buff remain len hlen
      cases len with
      | zero =>
          refine ⟨[], burst :: bursts, rfl, le_rfl, ?_⟩
          simp [channelReadToBuff]
      | succ len =>
          cases burst with
          | nil =>
              refine ⟨[], bursts, rfl, Nat.zero_le _, ?_⟩
              simp [channelReadToBuff, dataScript]
          | cons b bs =>
              by_cases hfit : (b :: bs).length ≤ len + 1
              · obtain ⟨got, bursts', hbytes, hgot, hread⟩ := ih
                  { buff with data := buff.data ++ (b :: bs) } (remain - (b :: bs).length)
                  (len + 1 - (b :: bs).length) (by omega)
                have hassert : (0 : ℤ) ≤ remain - (b :: bs).length := by omega
                refine ⟨b :: bs ++ got, bursts', ?_, ?_, ?_⟩
                · rw [List.flatten_cons, hbytes, List.append_assoc]
                · rw [List.length_append]
                  omega
                · rw [dataScript, List.map_cons, channelReadToBuff, if_pos hfit,
                    cAssert_of hassert, ok_bind]
                  · refine hread.trans ?_
                    rw [List.length_append, Nat.cast_add, List.append_assoc, sub_sub, Nat.sub_sub]
                  · nofun
                  · nofun
              · have hassert : (0 : ℤ) ≤ remain - (len + 1 : ℕ) := by omega
                have htake : ((b :: bs).take (len + 1)).length = len + 1 := by
                  rw [List.length_take]
                  omega
                refine ⟨(b :: bs).take (len + 1), (b :: bs).drop (len + 1) :: bursts, ?_, ?_, ?_⟩
                · rw [List.flatten_cons, List.flatten_cons, ← List.append_assoc,
                    List.take_append_drop]
                · exact htake.le
                · rw [dataScript, List.map_cons, channelReadToBuff, if_neg hfit,
                    cAssert_of hassert, ok_bind, htake, Nat.sub_self]
                  · rfl
                  · nofun
                  · nofun

/-! ### Reading a header -/

/-- **Reading a header in pieces**: a part of it, or all of it. -/
theorem channelReadHeader_data (bursts : List (List Byte)) {info : MsgInfo} (hfits : info.Fits)
    (hkind : info.kind ≠ MsgKind.err.toInt) (hoff : chan.headerOff = r.length)
    (hlt : r.length < channelMsgHeaderlen) (htake : chan.headerBuff.take r.length = r)
    (hbytes : r ++ bursts.flatten ++ more = packHeader bo info ++ tail) :
    ∃ bursts', (∃ headerBuff r', channelReadHeader bo chan (dataScript bursts) = Except.ok
          (ChannelReadStatus.eagain, { chan with headerBuff := headerBuff, headerOff := r'.length },
            dataScript bursts') ∧
          headerBuff.take r'.length = r' ∧ r'.length < channelMsgHeaderlen ∧
          r ++ bursts.flatten = r' ++ bursts'.flatten) ∨
      (channelReadHeader bo chan (dataScript bursts) = Except.ok (ChannelReadStatus.ok,
          { chan with headerBuff := packHeader bo info, headerOff := 0, msgInfo := info.onWire },
          dataScript bursts') ∧
        r ++ bursts.flatten = packHeader bo info ++ bursts'.flatten) := by
  obtain ⟨bursts', ⟨hrecv, hflat⟩ | ⟨bytes, _, hlen, hrecv, hflat⟩⟩ :=
    sockTryRecvN_data bursts (show 0 < channelMsgHeaderlen - chan.headerOff by omega)
  · refine ⟨bursts', Or.inl ⟨chan.headerBuff, r, ?_, htake, hlt, by rw [hflat]⟩⟩
    unfold channelReadHeader
    rw [hrecv, ← hoff]
  · refine ⟨bursts', ?_⟩
    by_cases hfull : chan.headerOff + bytes.length = channelMsgHeaderlen
    · -- the header is complete, and these are its bytes
      have hheader : r ++ bytes = packHeader bo info := by
        rw [hflat, ← List.append_assoc, List.append_assoc] at hbytes
        refine List.append_inj_left hbytes ?_
        rw [packHeader_length, List.length_append, ← hoff]
        exact hfull
      obtain ⟨rest, hunpack⟩ := msgInfoUnpack_packHeader bo hfits []
      rw [List.append_nil] at hunpack
      refine Or.inr ⟨?_, by rw [hflat, ← List.append_assoc, hheader]⟩
      unfold channelReadHeader
      rw [hrecv]
      simp only [hoff, htake, hheader, hunpack]
      rw [if_pos (hoff ▸ hfull), cAssert_of (show info.onWire.kind ≠ _ from hkind), ok_bind]
    · refine Or.inl ⟨r ++ bytes, r ++ bytes, ?_, List.take_length, ?_, ?_⟩
      · unfold channelReadHeader
        rw [hrecv]
        simp only [hoff, htake]
        rw [if_neg (hoff ▸ hfull), List.length_append]
      · rw [List.length_append]
        omega
      · rw [hflat, List.append_assoc]

/-! ### Reading a body -/

theorem channelSetupBuff_eq {size : ℕ} {data : List Byte} (hcurr : chan.currBuff = none) :
    channelSetupBuff chan size data = Except.ok (chan.setCurrBuff (some ⟨size, data, 0⟩)) := by
  unfold channelSetupBuff
  rw [hcurr]
  simp [ok_bind, msgBuffCreate, Channel.setCurrBuff, show ¬ ((size : ℤ) < 0) by omega]

/-- After a header comes a buffer for the body. -/
theorem iomanSetupRead_eq (hok : f.Ok) (hinfo : chan.msgInfo = f.info.onWire)
    (hbuff : chan.headerBuff = packHeader bo f.info) (hcurr : chan.currBuff = none) :
    iomanSetupRead nodeId chan = Except.ok (chan.setCurrBuff (some (f.buff bo nodeId []))) := by
  have hlen : chan.msgInfo.len = (f.body.length : ℕ) := by
    rw [hinfo]
    exact hok.len
  unfold iomanSetupRead
  by_cases hkind : f.info.kind = MsgKind.data.toInt
  · obtain ⟨hbody, hsid⟩ := hok.chunk hkind
    have hpos : 0 < chan.msgInfo.len := by
      rw [hlen]
      exact_mod_cast List.length_pos_iff.2 hbody
    have hsid : chan.msgInfo.sid ≠ -1 := by
      rw [hinfo]
      exact hsid
    rw [if_pos (show chan.msgInfo.kind = _ by rw [hinfo]; exact hkind)]
    by_cases hdst : f.info.dstId = nodeId
    · rw [if_pos (show chan.msgInfo.dstId = nodeId by rw [hinfo]; exact hdst)]
      unfold commNodeSetupChunk channelSetupChunkWithBuff
      rw [cAssert_of hsid, ok_bind, cAssert_of hpos, ok_bind, hlen, channelSetupBuff_eq hcurr]
      simp [Frame.buff, Frame.start_of_dst hdst]
    · rw [if_neg (show ¬ chan.msgInfo.dstId = nodeId by rw [hinfo]; exact hdst)]
      unfold channelSetupChunk
      rw [cAssert_of hpos, ok_bind, hlen, hbuff, ← Nat.cast_add, channelSetupBuff_eq hcurr]
      simp [Frame.buff, Frame.start_of_pass hkind hdst, packHeader_length, Nat.add_comm]
  · rw [if_neg (show ¬ chan.msgInfo.kind = _ by rw [hinfo]; exact hkind)]
    unfold channelSetupMsg
    rw [hlen, channelSetupBuff_eq hcurr]
    simp [Frame.buff, Frame.start_of_msg hkind]

/-- **Reading a body in pieces**: `got` has been read before, and `got'` is read now. -/
theorem channelReadBody_data (bursts : List (List Byte)) (hlen : f.info.len = f.body.length)
    {got : List Byte} (hcurr : chan.currBuff = some (f.buff bo nodeId got))
    (hinfo : chan.msgInfo = f.seen got.length) (hgot : got.length ≤ f.body.length) :
    ∃ got' bursts' stat, bursts.flatten = got' ++ bursts'.flatten ∧
      (got ++ got').length ≤ f.body.length ∧ stat ≠ ChannelReadStatus.err ∧
      channelReadBody chan (dataScript bursts) = Except.ok (stat,
        if (got ++ got').length = f.body.length then some (f.buff bo nodeId (got ++ got')) else none,
        { chan with
          msgInfo := f.seen (got ++ got').length
          currBuff := if (got ++ got').length = f.body.length ∧
            f.info.kind ≠ MsgKind.data.toInt then none else some (f.buff bo nodeId (got ++ got')) },
        dataScript bursts') := by
  have hremain : chan.msgInfo.remain = (f.body.length - got.length : ℕ) := by
    rw [hinfo]
    simp [Frame.seen, hlen, Nat.cast_sub hgot]
  obtain ⟨got', bursts', hflat, hgot', hread⟩ := channelReadToBuff_data bursts
    (f.buff bo nodeId got) chan.msgInfo.remain (f.body.length - got.length) hremain.ge
  have hseen : ({ chan.msgInfo with remain := chan.msgInfo.remain - got'.length } : MsgInfo) =
      f.seen (got ++ got').length := by
    rw [hinfo]
    simp [Frame.seen, sub_sub]
  have hbuff : ({ f.buff bo nodeId got with data := (f.buff bo nodeId got).data ++ got' } :
      MsgBuff) = f.buff bo nodeId (got ++ got') := by
    simp [Frame.buff]
  rw [hbuff] at hread
  have hfull : f.body.length - got.length - got'.length = 0 ↔
      (got ++ got').length = f.body.length := by
    rw [List.length_append]
    omega
  refine ⟨got', bursts', if (got ++ got').length = f.body.length then ChannelReadStatus.done
    else ChannelReadStatus.ok, hflat, by rw [List.length_append]; omega, by split <;> nofun, ?_⟩
  unfold channelReadBody
  by_cases hkind : f.info.kind = MsgKind.data.toInt
  · have hrecv : msgBuffRecvLen (f.buff bo nodeId got) = f.body.length - got.length := by
      simp [msgBuffRecvLen, Frame.buff, Nat.add_sub_add_left]
    rw [if_pos (show chan.msgInfo.kind = _ by rw [hinfo]; exact hkind)]
    unfold channelReadChunk
    rw [hcurr]
    dsimp only
    rw [hrecv, cAssert_of hremain.ge, ok_bind, hread, ok_bind]
    dsimp only
    rw [hseen]
    by_cases hdone : (got ++ got').length = f.body.length
    · simp [hfull.2 hdone, hdone, hkind]
    · rw [if_neg (mt hfull.1 hdone), if_neg hdone, if_neg hdone, if_neg fun h => hdone h.1]
  · rw [if_neg (show ¬ chan.msgInfo.kind = _ by rw [hinfo]; exact hkind)]
    unfold channelReadMsg
    rw [hcurr]
    dsimp only
    rw [show chan.msgInfo.remain.toNat = f.body.length - got.length by omega, hread, ok_bind]
    dsimp only
    rw [hseen]
    by_cases hdone : (got ++ got').length = f.body.length
    · simp [hfull.2 hdone, hdone, hkind]
    · rw [if_neg (mt hfull.1 hdone), if_neg hdone, if_neg hdone, if_neg fun h => hdone h.1]

/-! ### Reading a frame -/

/-- The part of `ioman_process_channel_read` that reads, up to where a message is complete. -/
def iomanReadFrame (bo : ByteOrder) (nodeId : ℤ) (chan : Channel κ) (script : List RecvEvent) :
    Except Abort (ChannelReadStatus × Option MsgBuff × Channel κ × List RecvEvent) :=
  if chan.currBuff.isNone then do
    let (stat, chan, script) ← channelReadHeader bo chan script
    if stat = ChannelReadStatus.ok then do
      let chan ← iomanSetupRead nodeId chan
      channelReadBody chan script
    else Except.ok (stat, none, chan, script)
  else channelReadBody chan script

theorem iomanReadFrame_reads {chan' : Channel κ} {stat : ChannelReadStatus} {msg : Option MsgBuff}
    {script script' : List RecvEvent}
    (h : iomanReadFrame bo nodeId chan script = Except.ok (stat, msg, chan', script')) :
    Reads chan chan' := by
  unfold iomanReadFrame at h
  split at h
  · obtain ⟨⟨stat₁, chan₁, script₁⟩, hread, h⟩ := bind_eq_ok.1 h
    have hreads := channelReadHeader_reads hread
    dsimp only at h
    split at h
    · obtain ⟨chan₂, hsetup, hbody⟩ := bind_eq_ok.1 h
      exact (hreads.trans (iomanSetupRead_reads hsetup)).trans (channelReadBody_reads hbody)
    · cases h
      exact hreads
  · exact channelReadBody_reads h

/-- What this part does that has read `r` of the frame `f` and is given the bytes `bursts`: it takes a
part of the frame, or all of it. -/
inductive TakeFrame (bo : ByteOrder) (nodeId : ℤ) (chan : Channel κ) (f : Frame) (r : List Byte)
    (bursts : List (List Byte)) :
    Except Abort (ChannelReadStatus × Option MsgBuff × Channel κ × List RecvEvent) → Prop
  | part {stat : ChannelReadStatus} {chan' : Channel κ} {r' : List Byte}
      {bursts' : List (List Byte)} (hstat : stat ≠ ChannelReadStatus.err) (hreads : Reads chan chan')
      (hreading : Reading bo nodeId chan' f r')
      (hbytes : r ++ bursts.flatten = r' ++ bursts'.flatten) :
      TakeFrame bo nodeId chan f r bursts (Except.ok (stat, none, chan', dataScript bursts'))
  | full {stat : ChannelReadStatus} {chan' : Channel κ} {bursts' : List (List Byte)}
      (hstat : stat ≠ ChannelReadStatus.err) (hreads : Reads chan chan')
      (hdone : f.Done bo nodeId chan')
      (hbytes : r ++ bursts.flatten = f.encode bo ++ bursts'.flatten) :
      TakeFrame bo nodeId chan f r bursts
        (Except.ok (stat, some (f.buff bo nodeId f.body), chan', dataScript bursts'))

theorem TakeFrame.of_reads {chan₀ : Channel κ} {r₀ : List Byte} {bursts₀ bursts : List (List Byte)}
    {res : Except Abort (ChannelReadStatus × Option MsgBuff × Channel κ × List RecvEvent)}
    (h : TakeFrame bo nodeId chan f r bursts res) (hreads : Reads chan₀ chan)
    (hbytes : r₀ ++ bursts₀.flatten = r ++ bursts.flatten) :
    TakeFrame bo nodeId chan₀ f r₀ bursts₀ res := by
  cases h with
  | part hs h hreading hb => exact TakeFrame.part hs (hreads.trans h) hreading (hbytes.trans hb)
  | full hs h hdone hb => exact TakeFrame.full hs (hreads.trans h) hdone (hbytes.trans hb)

theorem channelReadBody_frame (hok : f.Ok) (bursts : List (List Byte)) {got : List Byte}
    (hcurr : chan.currBuff = some (f.buff bo nodeId got)) (hoff : chan.headerOff = 0)
    (hinfo : chan.msgInfo = f.seen got.length) (hgot : got.length ≤ f.body.length)
    (hbytes : packHeader bo f.info ++ got ++ bursts.flatten ++ more = f.encode bo ++ tail) :
    TakeFrame bo nodeId chan f (packHeader bo f.info ++ got) bursts
      (channelReadBody chan (dataScript bursts)) := by
  obtain ⟨got', bursts', stat, hflat, hlen, hstat, hread⟩ :=
    channelReadBody_data bursts hok.len hcurr hinfo hgot
  have hreads := fun minfo curr => (⟨rfl, rfl, rfl, rfl, rfl, rfl⟩ :
    Reads chan { chan with msgInfo := minfo, currBuff := curr })
  rw [hread]
  by_cases hdone : (got ++ got').length = f.body.length
  · -- the body is complete
    have hbody : got ++ got' = f.body := by
      unfold Frame.encode at hbytes
      rw [List.append_assoc, List.append_assoc, List.append_assoc,
        List.append_cancel_left_eq, hflat, List.append_assoc, ← List.append_assoc] at hbytes
      exact List.append_inj_left hbytes hdone
    simp only [hbody]
    refine TakeFrame.full hstat (hreads _ _) ⟨hoff, rfl, ?_⟩ ?_
    · by_cases hkind : f.info.kind = MsgKind.data.toInt <;> simp [hkind]
    · rw [hflat, List.append_assoc, ← List.append_assoc got, hbody, Frame.encode, List.append_assoc]
  · simp only [if_neg hdone, if_neg (show ¬ (_ ∧ _) from fun h => hdone h.1)]
    refine TakeFrame.part hstat (hreads _ _) (Reading.body rfl hoff rfl (by omega)) ?_
    rw [hflat]
    simp only [List.append_assoc]

/-- **Reading takes a part of the frame, or all of it.** -/
theorem iomanReadFrame_data (hok : f.Ok) (bursts : List (List Byte))
    (hreading : Reading bo nodeId chan f r)
    (hbytes : r ++ bursts.flatten ++ more = f.encode bo ++ tail) :
    TakeFrame bo nodeId chan f r bursts (iomanReadFrame bo nodeId chan (dataScript bursts)) := by
  unfold iomanReadFrame
  cases hreading with
  | header hcurr hoff hlt htake =>
      rw [if_pos (by rw [hcurr]; rfl)]
      have hheader : r ++ bursts.flatten ++ more = packHeader bo f.info ++ (f.body ++ tail) := by
        rw [hbytes, Frame.encode, List.append_assoc]
      obtain ⟨bursts', ⟨headerBuff, r', hread, htake', hlt', hflat⟩ | ⟨hread, hflat⟩⟩ :=
        channelReadHeader_data bursts hok.fits hok.kind hoff hlt htake hheader
      · rw [hread, ok_bind]
        exact TakeFrame.part nofun ⟨rfl, rfl, rfl, rfl, rfl, rfl⟩
          (Reading.header hcurr rfl hlt' htake') hflat
      · generalize hnew : ({ chan with
          headerBuff := packHeader bo f.info, headerOff := 0, msgInfo := f.info.onWire } :
          Channel κ) = chan₁ at hread
        have hreads : Reads chan chan₁ := hnew ▸ ⟨rfl, rfl, rfl, rfl, rfl, rfl⟩
        have hcurr₁ : chan₁.currBuff = none := hnew ▸ hcurr
        have hoff₁ : chan₁.headerOff = 0 := hnew ▸ rfl
        have hinfo₁ : chan₁.msgInfo = f.info.onWire := hnew ▸ rfl
        have hbuff₁ : chan₁.headerBuff = packHeader bo f.info := hnew ▸ rfl
        rw [hread, ok_bind]
        dsimp only
        rw [if_pos rfl, iomanSetupRead_eq hok hinfo₁ hbuff₁ hcurr₁, ok_bind]
        have hbody : packHeader bo f.info ++ [] ++ bursts'.flatten ++ more = f.encode bo ++ tail := by
          rw [List.append_nil, ← hflat]
          exact hbytes
        refine (channelReadBody_frame hok bursts'
          (show (chan₁.setCurrBuff (some (f.buff bo nodeId []))).currBuff = _ from rfl) hoff₁ ?_
          (Nat.zero_le _) hbody).of_reads
          (hreads.trans ⟨rfl, rfl, rfl, rfl, rfl, rfl⟩) ?_
        · exact hinfo₁.trans Frame.seen_zero.symm
        · rw [List.append_nil]
          exact hflat
  | body hcurr hoff hinfo hlt =>
      rw [if_neg (by rw [hcurr]; nofun)]
      exact channelReadBody_frame hok bursts hcurr hoff hinfo hlt.le hbytes

end Channels

/-! ### Reading a channel -/

section Read

variable {κ : Type} [DecidableEq κ] {bo : ByteOrder} {now : ℚ} {node : CommNode κ} {c : κ}
  {chan : Channel κ} {f : Frame} {r more tail : List Byte}

/-- What a read of the bytes `bursts` does that has read `r` of the frame `f`: it takes a part of
the frame, or completes it. -/
inductive ReadFrame (bo : ByteOrder) (now : ℚ) (node : CommNode κ) (c : κ) (chan : Channel κ)
    (f : Frame) (r : List Byte) (bursts : List (List Byte)) :
    Except Abort (Bool × CommNode κ × List RecvEvent) → Prop
  | part {chan' : Channel κ} {r' : List Byte} {bursts' : List (List Byte)}
      (hreads : Reads chan chan') (hreading : Reading bo node.nodeId chan' f r')
      (hbytes : r ++ bursts.flatten = r' ++ bursts'.flatten) :
      ReadFrame bo now node c chan f r bursts
        (Except.ok (true, node.setMan (node.man.put c chan'), dataScript bursts'))
  | full {chan' : Channel κ} {bursts' : List (List Byte)} (hreads : Reads chan chan')
      (hdone : f.Done bo node.nodeId chan')
      (hbytes : r ++ bursts.flatten = f.encode bo ++ bursts'.flatten) :
      ReadFrame bo now node c chan f r bursts
        (iomanReadDone bo now (node.setMan (node.man.put c chan')) c chan'
          (f.buff bo node.nodeId f.body) >>= fun node' =>
            Except.ok (true, node', dataScript bursts'))

/-- The part of `ioman_process_channel_read` after a channel has been read: a message that is
complete is handled. -/
def iomanHandleRead (bo : ByteOrder) (now : ℚ) (node : CommNode κ) (c : κ)
    (r : ChannelReadStatus × Option MsgBuff × Channel κ × List RecvEvent) :
    Except Abort (Bool × CommNode κ × List RecvEvent) :=
  let (stat, msg, chan, script) := r
  let node := node.setMan (node.man.put c chan)
  match msg with
  | none => Except.ok (stat ≠ ChannelReadStatus.err, node, script)
  | some msg => do
      let node ← iomanReadDone bo now node c chan msg
      Except.ok (true, node, script)

/-- The message that a read completes, as it is handed on: its header and its buffer. -/
def iomanMessage (bo : ByteOrder) (node : CommNode κ) (d : κ) (script : List RecvEvent) :
    Option (MsgInfo × MsgBuff) :=
  match node.man.heap d with
  | none => none
  | some chan =>
      match iomanReadFrame bo node.nodeId chan script with
      | Except.ok (_, some msg, chan, _) => some (chan.msgInfo, msg)
      | _ => none

/-- **A read is reading a frame and handling it.** -/
theorem iomanProcessChannelRead_eq (script : List RecvEvent)
    (hchan : node.man.heap c = some chan) :
    iomanProcessChannelRead bo now node c script =
      iomanReadFrame bo node.nodeId chan script >>= iomanHandleRead bo now node c := by
  have hget := Ioman.get_eq_ok.2 hchan
  unfold iomanProcessChannelRead iomanReadFrame
  rw [hget, ok_bind]
  split
  · cases hread : channelReadHeader bo chan script with
    | error e => rfl
    | ok res =>
        obtain ⟨stat, chan', script'⟩ := res
        rw [ok_bind, ok_bind]
        dsimp only
        split
        · cases hsetup : iomanSetupRead node.nodeId chan' with
          | error e => rfl
          | ok chan'' => rfl
        · rfl
  · rfl

/-- **A read takes a part of the frame, or completes it.** -/
theorem iomanProcessChannelRead_data (hok : f.Ok) (bursts : List (List Byte))
    (hchan : node.man.heap c = some chan) (hreading : Reading bo node.nodeId chan f r)
    (hbytes : r ++ bursts.flatten ++ more = f.encode bo ++ tail) :
    ReadFrame bo now node c chan f r bursts
      (iomanProcessChannelRead bo now node c (dataScript bursts)) := by
  have htake : TakeFrame bo node.nodeId chan f r bursts
      (iomanReadFrame bo node.nodeId chan (dataScript bursts)) :=
    iomanReadFrame_data hok bursts hreading hbytes
  rw [iomanProcessChannelRead_eq (dataScript bursts) hchan]
  generalize iomanReadFrame bo node.nodeId chan (dataScript bursts) = res at htake ⊢
  cases htake with
  | part hstat hreads hreading' hb =>
      rw [ok_bind, iomanHandleRead, decide_eq_true hstat]
      exact ReadFrame.part hreads hreading' hb
  | full _ hreads hdone hb => exact ReadFrame.full hreads hdone hb

end Read

/-! ### A read that can take bytes takes some -/

/-- The bytes that are left of a script without errors. -/
def recvBytes : List RecvEvent → List Byte
  | [] => []
  | RecvEvent.data bytes :: script => bytes ++ recvBytes script
  | _ :: script => recvBytes script

@[simp] theorem recvBytes_dataScript (bursts : List (List Byte)) :
    recvBytes (dataScript bursts) = bursts.flatten := by
  induction bursts with
  | nil => rfl
  | cons burst bursts ih =>
      show burst ++ recvBytes (dataScript bursts) = _
      rw [ih, List.flatten_cons]

/-- The next call of `recv` delivers bytes. -/
def Fed (script : List RecvEvent) : Prop := ∃ b bs rest, script = RecvEvent.data (b :: bs) :: rest

theorem sockTryRecvN_le (script : List RecvEvent) (n : ℕ) :
    (recvBytes (sockTryRecvN script n).2).length ≤ (recvBytes script).length := by
  cases script with
  | nil => exact le_rfl
  | cons event script =>
      cases event with
      | eof | err => exact le_rfl
      | data bytes =>
          cases bytes with
          | nil => simp [sockTryRecvN, recvBytes]
          | cons b bs =>
              simp only [sockTryRecvN]
              split
              · simp only [recvBytes, List.length_append]
                omega
              · simp only [recvBytes, List.length_append, List.length_drop]
                omega

theorem sockTryRecvN_takes {script : List RecvEvent} (h : Fed script) {n : ℕ} (hn : 0 < n) :
    (recvBytes (sockTryRecvN script n).2).length < (recvBytes script).length := by
  obtain ⟨b, bs, rest, rfl⟩ := h
  simp only [sockTryRecvN]
  split
  · simp only [recvBytes, List.length_append, List.length_cons]
    omega
  · simp only [recvBytes, List.length_append, List.length_drop, List.length_cons]
    omega

theorem channelReadToBuff_le (script : List RecvEvent) :
    ∀ (buff : MsgBuff) (remain : ℤ) (len : ℕ) (r : ReadToBuff),
      channelReadToBuff buff remain len script = Except.ok r →
        (recvBytes r.script).length ≤ (recvBytes script).length := by
  induction script with
  | nil =>
      intro buff remain len r h
      cases len <;> simp only [channelReadToBuff, Except.ok.injEq] at h <;> subst h <;> exact le_rfl
  | cons event script ih =>
      intro buff remain len r h
      cases len with
      | zero =>
          simp only [channelReadToBuff, Except.ok.injEq] at h
          subst h
          exact le_rfl
      | succ len =>
          cases event with
          | eof | err =>
              simp only [channelReadToBuff, Except.ok.injEq] at h
              subst h
              exact le_rfl
          | data bytes =>
              cases bytes with
              | nil =>
                  simp only [channelReadToBuff, Except.ok.injEq] at h
                  subst h
                  simp [recvBytes]
              | cons b bs =>
                  simp only [channelReadToBuff] at h
                  split at h
                  · obtain ⟨_, _, h⟩ := bind_eq_ok.1 h
                    have hle := ih _ _ _ _ h
                    simp only [recvBytes, List.length_append]
                    omega
                  · obtain ⟨_, _, h⟩ := bind_eq_ok.1 h
                    cases h
                    simp only [recvBytes, List.length_append, List.length_drop]
                    omega

theorem channelReadToBuff_takes {script : List RecvEvent} (hfed : Fed script) {buff : MsgBuff}
    {remain : ℤ} {len : ℕ} (hlen : 0 < len) {r : ReadToBuff}
    (h : channelReadToBuff buff remain len script = Except.ok r) :
    (recvBytes r.script).length < (recvBytes script).length := by
  obtain ⟨b, bs, rest, rfl⟩ := hfed
  obtain ⟨len, rfl⟩ := Nat.exists_eq_succ_of_ne_zero hlen.ne'
  simp only [channelReadToBuff] at h
  split at h
  · obtain ⟨_, _, h⟩ := bind_eq_ok.1 h
    have hle := channelReadToBuff_le rest _ _ _ _ h
    simp only [recvBytes, List.length_append, List.length_cons]
    omega
  · obtain ⟨_, _, h⟩ := bind_eq_ok.1 h
    cases h
    simp only [recvBytes, List.length_append, List.length_drop, List.length_cons]
    omega

section Takes

variable {κ : Type} [DecidableEq κ] {bo : ByteOrder} {now : ℚ} {node node' : CommNode κ} {c : κ}
  {chan chan' : Channel κ} {f : Frame} {script script' : List RecvEvent} {alive : Bool}
  {stat : ChannelReadStatus} {msg : Option MsgBuff} {nodeId : ℤ}

section

omit [DecidableEq κ]

theorem channelReadHeader_script
    (h : channelReadHeader bo chan script = Except.ok (stat, chan', script')) :
    script' = (sockTryRecvN script (channelMsgHeaderlen - chan.headerOff)).2 := by
  unfold channelReadHeader at h
  cases hrecv : sockTryRecvN script (channelMsgHeaderlen - chan.headerOff) with
  | mk status rest =>
      rw [hrecv] at h
      cases status with
      | err | eof | eagain =>
          cases h
          rfl
      | ok bytes =>
          dsimp only at h
          split at h
          · split at h
            · cases h
            · obtain ⟨_, _, h⟩ := bind_eq_ok.1 h
              cases h
              rfl
          · cases h
            rfl

/-- A body is read into the buffer of its channel. -/
theorem channelReadBody_script
    (h : channelReadBody chan script = Except.ok (stat, msg, chan', script')) :
    ∃ buff r, chan.currBuff = some buff ∧ r.script = script' ∧
      channelReadToBuff buff chan.msgInfo.remain
        (if chan.msgInfo.kind = MsgKind.data.toInt then msgBuffRecvLen buff
          else chan.msgInfo.remain.toNat) script = Except.ok r := by
  unfold channelReadBody at h
  by_cases hkind : chan.msgInfo.kind = MsgKind.data.toInt
  · rw [if_pos hkind] at h
    unfold channelReadChunk at h
    cases hcurr : chan.currBuff with
    | none =>
        rw [hcurr] at h
        cases h
    | some buff =>
        rw [hcurr] at h
        obtain ⟨_, _, h⟩ := bind_eq_ok.1 h
        obtain ⟨r, hread, h⟩ := bind_eq_ok.1 h
        refine ⟨buff, r, rfl, ?_, by rw [if_pos hkind]; exact hread⟩
        split at h <;> cases h <;> rfl
  · rw [if_neg hkind] at h
    unfold channelReadMsg at h
    cases hcurr : chan.currBuff with
    | none =>
        rw [hcurr] at h
        cases h
    | some buff =>
        rw [hcurr] at h
        obtain ⟨r, hread, h⟩ := bind_eq_ok.1 h
        refine ⟨buff, r, rfl, ?_, by rw [if_neg hkind]; exact hread⟩
        split at h <;> cases h <;> rfl

/-- A read leaves a part of what the socket has. -/
theorem iomanReadFrame_le
    (h : iomanReadFrame bo nodeId chan script = Except.ok (stat, msg, chan', script')) :
    (recvBytes script').length ≤ (recvBytes script).length := by
  unfold iomanReadFrame at h
  split at h
  · obtain ⟨⟨stat₁, chan₁, script₁⟩, hread, h⟩ := bind_eq_ok.1 h
    have hle : (recvBytes script₁).length ≤ (recvBytes script).length := by
      rw [channelReadHeader_script hread]
      exact sockTryRecvN_le _ _
    dsimp only at h
    split at h
    · obtain ⟨chan₂, _, hbody⟩ := bind_eq_ok.1 h
      obtain ⟨_, res, _, rfl, hbuff⟩ := channelReadBody_script hbody
      exact le_trans (channelReadToBuff_le _ _ _ _ _ hbuff) hle
    · cases h
      exact hle
  · obtain ⟨_, res, _, rfl, hbuff⟩ := channelReadBody_script h
    exact channelReadToBuff_le _ _ _ _ _ hbuff

/-- **A read of a frame that is under way takes bytes when there are some.** -/
theorem iomanReadFrame_takes {r : List Byte} (hok : f.Ok) (hreading : Reading bo nodeId chan f r)
    (hfed : Fed script)
    (h : iomanReadFrame bo nodeId chan script = Except.ok (stat, msg, chan', script')) :
    (recvBytes script').length < (recvBytes script).length := by
  unfold iomanReadFrame at h
  cases hreading with
  | header hcurr hoff hlt _ =>
      rw [if_pos (by rw [hcurr]; rfl)] at h
      obtain ⟨⟨stat₁, chan₁, script₁⟩, hread, h⟩ := bind_eq_ok.1 h
      have htakes : (recvBytes script₁).length < (recvBytes script).length := by
        rw [channelReadHeader_script hread]
        exact sockTryRecvN_takes hfed (by omega)
      dsimp only at h
      split at h
      · obtain ⟨chan₂, _, hbody⟩ := bind_eq_ok.1 h
        obtain ⟨_, res, _, rfl, hbuff⟩ := channelReadBody_script hbody
        exact lt_of_le_of_lt (channelReadToBuff_le _ _ _ _ _ hbuff) htakes
      · cases h
        exact htakes
  | @body got hcurr _ hinfo hlt =>
      rw [if_neg (by rw [hcurr]; nofun)] at h
      obtain ⟨buff, res, hbuff, rfl, hread⟩ := channelReadBody_script h
      refine channelReadToBuff_takes hfed ?_ hread
      obtain rfl : buff = f.buff bo nodeId got := Option.some.inj (hbuff.symm.trans hcurr)
      split
      · simp only [msgBuffRecvLen, Frame.buff, List.length_append]
        omega
      · rw [hinfo]
        simp only [Frame.seen, hok.len]
        omega

end

/-- What a read leaves of the script is what its first part leaves. -/
theorem iomanProcessChannelRead_script (hchan : node.man.heap c = some chan)
    (h : iomanProcessChannelRead bo now node c script = Except.ok (alive, node', script')) :
    ∃ stat msg chan', iomanReadFrame bo node.nodeId chan script =
      Except.ok (stat, msg, chan', script') := by
  rw [iomanProcessChannelRead_eq script hchan] at h
  obtain ⟨⟨stat, msg, chan', script₁⟩, hframe, h⟩ := bind_eq_ok.1 h
  refine ⟨stat, msg, chan', ?_⟩
  unfold iomanHandleRead at h
  cases msg with
  | none =>
      cases h
      exact hframe
  | some msg =>
      obtain ⟨_, _, h⟩ := bind_eq_ok.1 h
      cases h
      exact hframe

end Takes

end DLFree
