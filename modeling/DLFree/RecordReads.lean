/-
**Reads with records that are not of the next chunk of a message, and queues that are being emptied.**

A node that keeps the records of messages also reads chunks that it passes on.  These concern no
record: the channel forgets the buffer that it had in a record before.  And its user threads take
messages from the queues while its I/O thread puts others in; a read does the same to the records
whatever the queues hold.

Main definitions:

* `DataStore.withQueues` — the same records with other queues;
* `PushClosed` — a relation between queues that a delivery keeps.

Main results:

* `DataStore.iomanProcessChannelRead_rel` — **a read delivers the same messages into related queues**;
* `DataStore.iomanProcessChannelRead_pass` — **a chunk for another node concerns no record**;
* `DataStore.iomanProcessChannelRead_extBuff` — a read leaves the buffers of the other channels.
-/

import DLFree.Reassembly

set_option relaxedAutoImplicit false
set_option autoImplicit false

namespace DLFree

/-- A relation between queues is kept when both are given the same message of a peer. -/
def PushClosed (R : DataQueues → DataQueues → Prop) : Prop :=
  ∀ queues queues' (msg : DataMsg), 0 ≤ msg.srcId ∧ msg.srcId < commMaxPeer → R queues queues' →
    R (queues.push msg) (queues'.push msg)

namespace DataStore

variable {κ : Type} [DecidableEq κ]

/-- The same records with other queues. -/
def withQueues (store : DataStore κ) (queues : DataQueues) : DataStore κ := { store with queues }

variable {R : DataQueues → DataQueues → Prop} {bo : ByteOrder} {now : ℚ} {node node' : CommNode κ}
  {store store' : DataStore κ} {queues : DataQueues} {c : κ} {chan chan' : Channel κ}
  {script script' : List RecvEvent} {alive : Bool} {nodeId : ℤ}

/-! ### Queues in a read -/

omit [DecidableEq κ] in
theorem findOrCreate_withQueues (header : MsgInfo) :
    (store.withQueues queues).findOrCreate header =
      ((store.findOrCreate header).1, (store.findOrCreate header).2.withQueues queues) := by
  unfold findOrCreate withQueues
  cases store.dataMsgMap header.sid <;> rfl

omit [DecidableEq κ] in
theorem findOrCreate_queues (header : MsgInfo) :
    (store.findOrCreate header).2.queues = store.queues := by
  unfold findOrCreate
  cases store.dataMsgMap header.sid <;> rfl

/-- Setting up the buffer for a body does not look at the queues. -/
theorem iomanSetupRead_withQueues (queues : DataQueues)
    (h : store.iomanSetupRead nodeId c chan = Except.ok (store', chan')) :
    (store.withQueues queues).iomanSetupRead nodeId c chan =
        Except.ok (store'.withQueues queues, chan') ∧ store'.queues = store.queues := by
  unfold iomanSetupRead at h ⊢
  split at h
  · rename_i hown
    rw [if_pos hown]
    obtain ⟨_, hsid, h⟩ := bind_eq_ok.1 h
    obtain ⟨msg, hmsg, h⟩ := bind_eq_ok.1 h
    obtain ⟨chan₁, hsetup, h⟩ := bind_eq_ok.1 h
    simp only [Except.ok.injEq, Prod.mk.injEq] at h
    obtain ⟨rfl, rfl⟩ := h
    refine ⟨?_, findOrCreate_queues _⟩
    unfold commNodeSetupChunk
    rw [hsid, ok_bind, findOrCreate_withQueues]
    dsimp only
    have hget : ((store.findOrCreate chan.msgInfo).2.withQueues queues).getRecord
        (store.findOrCreate chan.msgInfo).1 = Except.ok msg := hmsg
    rw [hget, ok_bind, hsetup]
    rfl
  · rename_i hother
    rw [if_neg hother]
    obtain ⟨chan₁, hsetup, h⟩ := bind_eq_ok.1 h
    simp only [Except.ok.injEq, Prod.mk.injEq] at h
    obtain ⟨rfl, rfl⟩ := h
    rw [hsetup]
    exact ⟨rfl, rfl⟩

omit [DecidableEq κ] in
/-- Writing into a record does not look at the queues. -/
theorem recvInto_withQueues (queues : DataQueues) {n : ℕ} {got : List Byte}
    (h : store.recvInto c n got = Except.ok store') :
    (store.withQueues queues).recvInto c n got = Except.ok (store'.withQueues queues) ∧
      store'.queues = store.queues := by
  have hext : (store.withQueues queues).extBuff c = store.extBuff c := rfl
  unfold recvInto at h ⊢
  rw [hext]
  cases hbuff : store.extBuff c with
  | none =>
      rw [hbuff] at h
      cases h
      exact ⟨rfl, rfl⟩
  | some ext =>
      rw [hbuff] at h
      cases got with
      | nil =>
          cases h
          exact ⟨rfl, rfl⟩
      | cons b bs =>
          obtain ⟨msg, hmsg, h⟩ := bind_eq_ok.1 h
          obtain ⟨data, hdata, h⟩ := bind_eq_ok.1 h
          cases h
          have hget : (store.withQueues queues).getRecord ext.1 = Except.ok msg := hmsg
          dsimp only
          rw [hget, ok_bind, hdata]
          exact ⟨rfl, rfl⟩

omit [DecidableEq κ] in
/-- **A chunk that is complete** is counted whatever the queues hold, and its message is delivered
into them. -/
theorem commNodeHandleChunk_rel (hR : PushClosed R) {header : MsgInfo} {chunk : MsgBuff}
    (h : store.commNodeHandleChunk header chunk = Except.ok store') (hq : R store.queues queues) :
    ∃ queues', R store'.queues queues' ∧ (store.withQueues queues).commNodeHandleChunk header chunk =
      Except.ok (store'.withQueues queues') := by
  have hmap : (store.withQueues queues).dataMsgMap = store.dataMsgMap := rfl
  unfold commNodeHandleChunk at h ⊢
  obtain ⟨_, hsid, h⟩ := bind_eq_ok.1 h
  rw [hsid, ok_bind, hmap]
  cases href : store.dataMsgMap header.sid with
  | none =>
      rw [href] at h
      cases h
  | some ref =>
      rw [href] at h
      obtain ⟨msg, hmsg, h⟩ := bind_eq_ok.1 h
      obtain ⟨⟨full, msg'⟩, hpush, h⟩ := bind_eq_ok.1 h
      have hget : (store.withQueues queues).getRecord ref = Except.ok msg := hmsg
      dsimp only at h ⊢
      rw [hget, ok_bind, hpush, ok_bind]
      dsimp only
      cases full with
      | false =>
          cases h
          exact ⟨queues, hq, rfl⟩
      | true =>
          obtain ⟨queues₁, hdeliver, h⟩ := bind_eq_ok.1 h
          cases h
          obtain ⟨_, hid, hdeliver⟩ := bind_eq_ok.1 hdeliver
          cases hdeliver
          have hrange : 0 ≤ msg'.srcId ∧ msg'.srcId < commMaxPeer := by
            unfold checkPeerId at hid
            split at hid
            · assumption
            · cases hid
          refine ⟨queues.push msg', hR _ _ _ hrange hq, ?_⟩
          have hdeliver' : commNodeDeliverChunk (store.withQueues queues).queues msg' =
              Except.ok (queues.push msg') := by
            unfold commNodeDeliverChunk
            rw [hid]
            rfl
          rw [if_pos rfl, hdeliver']
          rfl

/-- A chunk or message that is complete is handled whatever the queues hold. -/
theorem iomanReadDone_rel (hR : PushClosed R) {msg : MsgBuff}
    (h : store.iomanReadDone bo now node c chan msg = Except.ok (node', store'))
    (hq : R store.queues queues) :
    ∃ queues', R store'.queues queues' ∧ (store.withQueues queues).iomanReadDone bo now node c chan
      msg = Except.ok (node', store'.withQueues queues') := by
  unfold iomanReadDone at h ⊢
  obtain ⟨store₁, hupcall, h⟩ := bind_eq_ok.1 h
  obtain ⟨node₁, hnode, h⟩ := bind_eq_ok.1 h
  cases h
  split at hupcall
  · rename_i hown
    obtain ⟨queues', hq', hhandle⟩ := commNodeHandleChunk_rel hR hupcall hq
    refine ⟨queues', hq', ?_⟩
    rw [if_pos hown, hhandle, ok_bind, hnode]
    rfl
  · rename_i hother
    cases hupcall
    refine ⟨queues, hq, ?_⟩
    rw [if_neg hother, ok_bind, hnode]
    rfl

/-- A body is read whatever the queues hold. -/
theorem iomanReadBody_rel (hR : PushClosed R)
    (h : store.iomanReadBody bo now node c chan script = Except.ok (alive, node', store', script'))
    (hq : R store.queues queues) :
    ∃ queues', R store'.queues queues' ∧ (store.withQueues queues).iomanReadBody bo now node c chan
      script = Except.ok (alive, node', store'.withQueues queues', script') := by
  unfold iomanReadBody at h ⊢
  dsimp only at h ⊢
  obtain ⟨⟨stat, msg, chan₁, script₁⟩, hread, h⟩ := bind_eq_ok.1 h
  obtain ⟨store₁, hrecv, h⟩ := bind_eq_ok.1 h
  obtain ⟨hrecv', hqueues⟩ := recvInto_withQueues queues hrecv
  rw [hread, ok_bind]
  dsimp only
  rw [hrecv', ok_bind]
  cases msg with
  | none =>
      cases h
      exact ⟨queues, by rw [hqueues]; exact hq, rfl⟩
  | some msg =>
      obtain ⟨⟨node₂, store₂⟩, hdone, h⟩ := bind_eq_ok.1 h
      cases h
      obtain ⟨queues', hq', hdone'⟩ := iomanReadDone_rel hR hdone (by rw [hqueues]; exact hq)
      refine ⟨queues', hq', ?_⟩
      dsimp only
      rw [hdone', ok_bind]

/-- **A read delivers the same messages into related queues.** -/
theorem iomanProcessChannelRead_rel (hR : PushClosed R)
    (h : store.iomanProcessChannelRead bo now node c script =
      Except.ok (alive, node', store', script')) (hq : R store.queues queues) :
    ∃ queues', R store'.queues queues' ∧
      (store.withQueues queues).iomanProcessChannelRead bo now node c script =
        Except.ok (alive, node', store'.withQueues queues', script') := by
  unfold iomanProcessChannelRead at h ⊢
  obtain ⟨chan₁, hchan, h⟩ := bind_eq_ok.1 h
  rw [hchan, ok_bind]
  split at h
  · rename_i hidle
    rw [if_pos hidle]
    obtain ⟨⟨stat, chan₂, script₁⟩, hread, h⟩ := bind_eq_ok.1 h
    rw [hread, ok_bind]
    dsimp only at h ⊢
    split at h
    · rename_i hstat
      rw [if_pos hstat]
      obtain ⟨⟨store₁, chan₃⟩, hsetup, h⟩ := bind_eq_ok.1 h
      obtain ⟨hsetup', hqueues⟩ := iomanSetupRead_withQueues queues hsetup
      rw [hsetup', ok_bind]
      exact iomanReadBody_rel hR h (by rw [hqueues]; exact hq)
    · rename_i hstat
      rw [if_neg hstat]
      cases h
      exact ⟨queues, hq, rfl⟩
  · rename_i hbusy
    rw [if_neg hbusy]
    exact iomanReadBody_rel hR h hq

/-! ### A chunk for another node -/

omit [DecidableEq κ] in
/-- The destination of a chunk does not change while its body is read. -/
theorem channelReadBody_dstId {stat : ChannelReadStatus} {msg : Option MsgBuff}
    (h : channelReadBody chan script = Except.ok (stat, msg, chan', script')) :
    chan'.msgInfo.dstId = chan.msgInfo.dstId := by
  unfold channelReadBody channelReadChunk channelReadMsg at h
  split at h
  · split at h
    · cases h
    · obtain ⟨_, _, h⟩ := bind_eq_ok.1 h
      obtain ⟨r, _, h⟩ := bind_eq_ok.1 h
      dsimp only at h
      split at h <;> cases h <;> rfl
  · split at h
    · cases h
    · obtain ⟨r, _, h⟩ := bind_eq_ok.1 h
      dsimp only at h
      split at h <;> cases h <;> rfl

/-- The body of a chunk for another node is read into a buffer of the channel. -/
theorem iomanReadBody_pass (hext : store.extBuff c = none)
    (hdst : chan.msgInfo.dstId ≠ node.nodeId)
    (h : DLFree.iomanReadBody bo now node c chan script = Except.ok (alive, node', script')) :
    store.iomanReadBody bo now node c chan script = Except.ok (alive, node', store, script') := by
  obtain ⟨⟨stat, msg, chan₁, script₁⟩, hread, h⟩ := bind_eq_ok.1 h
  have hrecv : ∀ n got, store.recvInto c n got = Except.ok store := by
    intro n got
    unfold recvInto
    rw [hext]
  have hdst₁ : chan₁.msgInfo.dstId ≠ node.nodeId := by
    rw [channelReadBody_dstId hread]
    exact hdst
  unfold iomanReadBody
  dsimp only at h ⊢
  rw [hread, ok_bind]
  dsimp only
  rw [hrecv, ok_bind]
  cases msg with
  | none =>
      cases h
      rfl
  | some msg =>
      obtain ⟨node₁, hdone, h⟩ := bind_eq_ok.1 h
      cases h
      unfold iomanReadDone
      dsimp only
      rw [if_neg fun hown => hdst₁ hown.2, ok_bind, hdone]
      rfl

/-- **A chunk for another node concerns no record**: a channel that has a buffer for it afterwards
has none in a record. -/
theorem iomanProcessChannelRead_pass {f : Frame} {r more tail : List Byte}
    {bursts : List (List Byte)} (hf : f.Ok) (hdst : f.info.dstId ≠ node.nodeId)
    (hchan : node.man.heap c = some chan) (hreading : Reading bo node.nodeId chan f r)
    (hext : chan.currBuff ≠ none → store.extBuff c = none)
    (hbytes : r ++ bursts.flatten ++ more = f.encode bo ++ tail)
    (h : DLFree.iomanProcessChannelRead bo now node c (dataScript bursts) =
      Except.ok (alive, node', script')) :
    ∃ store', store.iomanProcessChannelRead bo now node c (dataScript bursts) =
        Except.ok (alive, node', store', script') ∧
      (store' = store ∨ store' = store.setExtBuff c none) ∧
      (store'.extBuff c = none ∨
        ∃ chan', node'.man.heap c = some chan' ∧ chan'.currBuff = none) := by
  unfold DLFree.iomanProcessChannelRead at h
  unfold iomanProcessChannelRead
  rw [Ioman.get_eq_ok.2 hchan, ok_bind] at h ⊢
  cases hreading with
  | header hcurr hoff hlt htake =>
      rw [if_pos (by rw [hcurr]; rfl)] at h ⊢
      have hheader : r ++ bursts.flatten ++ more = packHeader bo f.info ++ (f.body ++ tail) := by
        rw [hbytes, Frame.encode, List.append_assoc]
      obtain ⟨bursts', ⟨headerBuff, r', hread, _⟩ | ⟨hread, _⟩⟩ :=
        channelReadHeader_data bursts hf.fits hf.kind hoff hlt htake hheader
      · rw [hread, ok_bind] at h ⊢
        cases h
        exact ⟨store, rfl, Or.inl rfl, Or.inr ⟨_, Ioman.heap_put_self, hcurr⟩⟩
      · rw [hread, ok_bind] at h ⊢
        dsimp only at h ⊢
        rw [if_pos rfl] at h ⊢
        obtain ⟨chan₁, hsetup, h⟩ := bind_eq_ok.1 h
        have hdst₁ : chan₁.msgInfo.dstId ≠ node.nodeId := by
          have hbuff := @iomanSetupRead_eq κ bo node.nodeId { chan with
            headerBuff := packHeader bo f.info, headerOff := 0, msgInfo := f.info.onWire } f hf rfl
              rfl hcurr
          obtain rfl := Except.ok.inj (hsetup.symm.trans hbuff)
          exact hdst
        have hsetup' : store.iomanSetupRead node.nodeId c { chan with
            headerBuff := packHeader bo f.info, headerOff := 0, msgInfo := f.info.onWire } =
              Except.ok (store.setExtBuff c none, chan₁) := by
          unfold iomanSetupRead
          rw [if_neg fun hown => hdst hown.2, hsetup, ok_bind]
        have hnone : (store.setExtBuff c none).extBuff c = none := Function.update_self _ _ _
        rw [hsetup', ok_bind]
        exact ⟨_, iomanReadBody_pass hnone hdst₁ h, Or.inr rfl, Or.inl hnone⟩
  | body hcurr hoff hinfo hlt =>
      have hbusy : chan.currBuff ≠ none := by
        rw [hcurr]
        exact Option.some_ne_none _
      rw [if_neg (by rw [hcurr]; exact Bool.false_ne_true)] at h ⊢
      exact ⟨store, iomanReadBody_pass (hext hbusy) (by rw [hinfo]; exact hdst) h, Or.inl rfl,
        Or.inl (hext hbusy)⟩

/-! ### The other channels -/

omit [DecidableEq κ] in
theorem findOrCreate_extBuff (header : MsgInfo) :
    (store.findOrCreate header).2.extBuff = store.extBuff := by
  unfold findOrCreate
  cases store.dataMsgMap header.sid <;> rfl

theorem iomanSetupRead_extBuff {d : κ} (hd : d ≠ c)
    (h : store.iomanSetupRead nodeId c chan = Except.ok (store', chan')) :
    store'.extBuff d = store.extBuff d := by
  unfold iomanSetupRead at h
  split at h
  · obtain ⟨_, _, h⟩ := bind_eq_ok.1 h
    obtain ⟨_, _, h⟩ := bind_eq_ok.1 h
    obtain ⟨_, _, h⟩ := bind_eq_ok.1 h
    cases h
    exact (Function.update_of_ne hd _ _).trans (congrFun (findOrCreate_extBuff _) d)
  · obtain ⟨_, _, h⟩ := bind_eq_ok.1 h
    cases h
    exact Function.update_of_ne hd _ _

omit [DecidableEq κ] in
theorem recvInto_extBuff {n : ℕ} {got : List Byte}
    (h : store.recvInto c n got = Except.ok store') : store'.extBuff = store.extBuff := by
  unfold recvInto at h
  split at h
  · cases h
    rfl
  · cases h
    rfl
  · obtain ⟨_, _, h⟩ := bind_eq_ok.1 h
    obtain ⟨_, _, h⟩ := bind_eq_ok.1 h
    cases h
    rfl

omit [DecidableEq κ] in
theorem commNodeHandleChunk_extBuff {header : MsgInfo} {chunk : MsgBuff}
    (h : store.commNodeHandleChunk header chunk = Except.ok store') :
    store'.extBuff = store.extBuff := by
  unfold commNodeHandleChunk at h
  obtain ⟨_, _, h⟩ := bind_eq_ok.1 h
  split at h
  · cases h
  · obtain ⟨_, _, h⟩ := bind_eq_ok.1 h
    obtain ⟨⟨full, _⟩, _, h⟩ := bind_eq_ok.1 h
    dsimp only at h
    split at h
    · obtain ⟨_, _, h⟩ := bind_eq_ok.1 h
      cases h
      rfl
    · cases h
      rfl

theorem iomanReadBody_extBuff
    (h : store.iomanReadBody bo now node c chan script =
      Except.ok (alive, node', store', script')) : store'.extBuff = store.extBuff := by
  unfold iomanReadBody at h
  dsimp only at h
  obtain ⟨⟨stat, msg, chan₁, script₁⟩, _, h⟩ := bind_eq_ok.1 h
  obtain ⟨store₁, hrecv, h⟩ := bind_eq_ok.1 h
  rw [← recvInto_extBuff hrecv]
  cases msg with
  | none =>
      cases h
      rfl
  | some msg =>
      obtain ⟨⟨node₂, store₂⟩, hdone, h⟩ := bind_eq_ok.1 h
      cases h
      unfold iomanReadDone at hdone
      obtain ⟨store₃, hupcall, hdone⟩ := bind_eq_ok.1 hdone
      obtain ⟨_, _, hdone⟩ := bind_eq_ok.1 hdone
      cases hdone
      split at hupcall
      · exact commNodeHandleChunk_extBuff hupcall
      · cases hupcall
        rfl

/-- **A read leaves the buffers of the other channels where they are.** -/
theorem iomanProcessChannelRead_extBuff {d : κ} (hd : d ≠ c)
    (h : store.iomanProcessChannelRead bo now node c script =
      Except.ok (alive, node', store', script')) : store'.extBuff d = store.extBuff d := by
  unfold iomanProcessChannelRead at h
  obtain ⟨chan₁, _, h⟩ := bind_eq_ok.1 h
  split at h
  · obtain ⟨⟨stat, chan₂, script₁⟩, _, h⟩ := bind_eq_ok.1 h
    dsimp only at h
    split at h
    · obtain ⟨⟨store₁, chan₃⟩, hsetup, h⟩ := bind_eq_ok.1 h
      rw [iomanReadBody_extBuff h]
      exact iomanSetupRead_extBuff hd hsetup
    · cases h
      rfl
  · rw [iomanReadBody_extBuff h]

end DataStore

namespace Arrivals

variable {κ ι : Type} [DecidableEq κ] [DecidableEq ι] {arr : Arrivals κ ι} {p : Progress ι}
  {store : DataStore κ} {c : κ}

omit [DecidableEq ι] in
/-- A channel that reads no body of a message may forget its buffer in a record. -/
theorem StoreOk.setExtBuff (h : arr.StoreOk p store) (hc : ∀ i, arr.chan i = c → p.pos i = 0) :
    arr.StoreOk p (store.setExtBuff c none) where
  le := h.le
  under := h.under
  distinct := h.distinct
  entry := h.entry
  only := h.only
  refs := h.refs
  used := h.used
  log := h.log
  ext i hi := by
    obtain ⟨ref, hmap, hext⟩ := h.ext i hi
    refine ⟨ref, hmap, (Function.update_of_ne (fun he => ?_) _ _).trans hext⟩
    have hpos := hc i he
    unfold channelMsgHeaderlen at hi
    omega

end Arrivals

end DLFree

